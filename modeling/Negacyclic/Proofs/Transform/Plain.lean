import Negacyclic.Proofs.Transform.EightLane

/-!
# The plain network

The transforms as one would first write them down: every layer over the whole array, one layer
after the other, with the roots of the layer cut from the table in one piece. `plainForward` and
`plainInverse` are total and do not speak of blocks.

The network of blocks leaves the same words (`network_eq_plain`). Nothing is asked of the entries
of the tables or of the words, so the equality is one of words and not of classes modulo `q`, and
it holds of lazy results too. The greatest block that runs layer by layer does not occur on the
right: no result depends on it, and neither does it show whether words or registers are worked
on.
-/

namespace Negacyclic.Transform

variable {T : Transform} {k K : ℕ} {a : Array Word}

/-! ### Whole layers -/

/-- The forward layer with `m` groups over a whole array. -/
def plainForwardLayer (T : Transform) (m : ℕ) (a : Array Word) : Array Word :=
  Layer.onWords (Butterfly.forward T.precision T.modulus) (T.degree / (2 * m))
    (T.roots.extract m (2 * m)) a

/-- The inverse layer with `m` groups over a whole array. -/
def plainInverseLayer (T : Transform) (m : ℕ) (a : Array Word) : Array Word :=
  Layer.onWords (Butterfly.inverse T.precision T.modulus) (T.degree / (2 * m))
    (T.inverseRoots.extract (T.degree - 2 * m + 1) (T.degree - m + 1)) a

/-- The last inverse layer over a whole array, with the division by the size. -/
def plainFinalLayer (T : Transform) (full : Bool) (a : Array Word) : Array Word :=
  Layer.onWords (fun _ => Butterfly.final T.precision T.modulus T.scale T.scaleRoot full)
    (T.degree / 2) #[] a

/-! ### Whole transforms -/

/-- The numbers of groups 1, 2, 4, ..., `n / 2` of the layers of a transform of size `n`. -/
def groupCounts (T : Transform) : List ℕ :=
  (List.range T.degree.log2).map (2 ^ ·)

/-- The forward transform layer by layer: from one group to `n / 2`. -/
def plainForward (T : Transform) (full : Bool) (a : Array Word) : Array Word :=
  let words := T.groupCounts.foldl (fun a m => plainForwardLayer T m a) a
  if full then words.map (Butterfly.settle T.modulus) else words

/-- The inverse transform layer by layer: from `n / 2` groups to two, and the last layer with its
one group. -/
def plainInverse (T : Transform) (full : Bool) (a : Array Word) : Array Word :=
  plainFinalLayer T full (T.groupCounts.tail.reverse.foldl (fun a m => plainInverseLayer T m a) a)

/-- The tables of a transform of `2^K` words have as many entries, whatever these are. -/
structure Sized (T : Transform) (K : ℕ) : Prop where
  degree_eq : T.degree = 2 ^ K
  size_roots : T.roots.size = 2 ^ K
  size_inverseRoots : T.inverseRoots.size = 2 ^ K

/-! ### Layers of the whole block -/

/-- A run of layers none of which fails. -/
theorem foldlM_eq_some_foldl {step : Array Word → ℕ → Option (Array Word)}
    {layer : Array Word → ℕ → Array Word} {js : List ℕ}
    (hstep : ∀ j ∈ js, ∀ a : Array Word, a.size = 2 ^ K → step a j = some (layer a j))
    (hsize : ∀ a j, (layer a j).size = a.size) (ha : a.size = 2 ^ K) :
    js.foldlM step a = some (js.foldl layer a) := by
  have htotal : ∀ (a : Array Word) j b, some (layer a j) = some b → b.size = a.size := by
    rintro a j b hb
    cases hb
    exact hsize a j
  rw [foldlM_congr_of_size hstep htotal ha]
  exact List.foldlM_pure

/-- The sizes of a layer with `2^j` groups. -/
theorem whole_groups {j : ℕ} (hj : j < K) :
    ∃ t, 0 < t ∧ 2 ^ K = 2 * t * 2 ^ j ∧ 2 ^ K / (2 * 2 ^ j) = t ∧ 2 * 2 ^ j ≤ 2 ^ K := by
  obtain ⟨t, ht, hsize⟩ := exists_even_parts hj
  refine ⟨t, ht, hsize, ?_, two_mul_two_pow_le hj⟩
  have hpos := Nat.two_pow_pos j
  rw [hsize, Nat.mul_right_comm, Nat.mul_div_cancel_left _ (by omega)]

/-- A forward layer of the whole block. -/
theorem forwardLayer_whole (hT : T.Sized K) {j : ℕ} (hj : j < K) (ha : a.size = 2 ^ K) :
    forwardLayer .portable T .whole (2 ^ j) a = some (plainForwardLayer T (2 ^ j) a) := by
  obtain ⟨t, ht, hgroups, hstride, hle⟩ := whole_groups hj
  have hstart : Block.whole.forwardStart (2 ^ j) = 2 ^ j := by
    simp [Block.forwardStart, Block.whole]
  have htable : 2 ^ j + 2 ^ j ≤ T.roots.size := by
    rw [hT.size_roots]
    omega
  rw [forwardLayer_portable, hstart,
    onGroups_of_le ht (Nat.two_pow_pos j) (ha.trans hgroups) htable, plainForwardLayer,
    hT.degree_eq, hstride, Nat.two_mul]

/-- An inverse layer of the whole block. -/
theorem inverseLayer_whole (hT : T.Sized K) {j : ℕ} (hj : j < K) (ha : a.size = 2 ^ K) :
    inverseLayer .portable T .whole (2 ^ j) a = some (plainInverseLayer T (2 ^ j) a) := by
  obtain ⟨t, ht, hgroups, hstride, hle⟩ := whole_groups hj
  have hpos := Nat.two_pow_pos j
  have hstart : Block.whole.inverseStart? (2 ^ K) (2 ^ j) = some (2 ^ K - 2 * 2 ^ j + 1) := by
    simpa [Block.inverseStart?, Block.whole] using hle
  have hstop : 2 ^ K - 2 * 2 ^ j + 1 + 2 ^ j = 2 ^ K - 2 ^ j + 1 := by omega
  have htable : 2 ^ K - 2 * 2 ^ j + 1 + 2 ^ j ≤ T.inverseRoots.size := by
    rw [hT.size_inverseRoots]
    omega
  rw [inverseLayer_portable, hT.degree_eq, hstart, Option.bind_some,
    onGroups_of_le ht hpos (ha.trans hgroups) htable, plainInverseLayer, hT.degree_eq, hstride,
    hstop]

/-! ### The network -/

/-- The forward layers of the whole block, one after the other. -/
theorem forwardLayers_whole (hT : T.Sized K) (full : Bool) (ha : a.size = 2 ^ K) :
    forwardLayers .portable T full .whole K a = some (plainForward T full a) := by
  have hloop : (List.range K).foldlM
      (fun a j => forwardLayer .portable T .whole (2 ^ j) a) a =
        some ((List.range K).foldl (fun a j => plainForwardLayer T (2 ^ j) a) a) := by
    refine foldlM_eq_some_foldl ?_ (fun a j => Layer.size_onWords) ha
    intro j hj a ha
    exact forwardLayer_whole hT (List.mem_range.1 hj) ha
  rw [forwardLayers_portable, hloop, plainForward, groupCounts, hT.degree_eq, Nat.log2_two_pow,
    List.foldl_map]
  rfl

/-- The inverse layers of the whole block, one after the other. -/
theorem inverseLayers_whole (hT : T.Sized (k + 1)) (full : Bool) (ha : a.size = 2 ^ (k + 1)) :
    inverseLayers .portable T full .whole (k + 1) a = some (plainInverse T full a) := by
  have hloop : (List.range k).reverse.foldlM
      (fun a j => inverseLayer .portable T .whole (2 ^ (j + 1)) a) a =
        some ((List.range k).reverse.foldl (fun a j => plainInverseLayer T (2 ^ (j + 1)) a) a) := by
    refine foldlM_eq_some_foldl ?_ (fun a j => Layer.size_onWords) ha
    intro j hj a ha
    have hjk := List.mem_range.1 (List.mem_reverse.1 hj)
    exact inverseLayer_whole hT (Nat.succ_lt_succ hjk) ha
  have hcounts : T.groupCounts.tail.reverse = (List.range k).reverse.map fun j => 2 ^ (j + 1) := by
    rw [groupCounts, hT.degree_eq, Nat.log2_two_pow, List.range_succ_eq_map, List.map_cons,
      List.tail_cons, List.map_map, List.map_reverse]
    rfl
  have hsize : ((List.range k).reverse.foldl
      (fun a j => plainInverseLayer T (2 ^ (j + 1)) a) a).size = T.degree := by
    rw [size_of_foldlM (fun _ _ _ h => size_of_inverseLayer_portable h) hloop, ha, hT.degree_eq]
  rw [inverseLayers_portable_whole full rfl, hloop, Option.bind_some, plainInverse, hcounts,
    List.foldl_map]
  exact if_pos hsize

/-- Depth first and layer by layer leave the same words, for arbitrary tables and words and
whatever the greatest block is that runs layer by layer. On registers this takes blocks that fill
them and the copies of the tables. -/
theorem network_eq_plain (hT : T.Sized K) (hK : 0 < K) (limit : ℕ) (full : Bool)
    (ha : a.size = 2 ^ K) :
    (forwardBlock .portable limit T full .whole K a = some (plainForward T full a) ∧
      inverseBlock .portable limit T full .whole K a = some (plainInverse T full a)) ∧
    (4 ≤ K → 16 ≤ limit →
      T.replicated = Replicated.ofTables T.degree T.roots T.inverseRoots →
      forwardBlock .eightLane limit T full .whole K a = some (plainForward T full a) ∧
        inverseBlock .eightLane limit T full .whole K a = some (plainInverse T full a)) := by
  obtain ⟨k, rfl⟩ : ∃ k, K = k + 1 := Nat.exists_eq_add_of_le' hK
  have hforward : forwardBlock .portable limit T full .whole (k + 1) a =
      some (plainForward T full a) := by
    rw [forwardBlock_portable limit full ha]
    exact forwardLayers_whole hT full ha
  have hinverse : inverseBlock .portable limit T full .whole (k + 1) a =
      some (plainInverse T full a) := by
    rw [inverseBlock_portable limit full ha]
    exact inverseLayers_whole hT full ha
  refine ⟨⟨hforward, hinverse⟩, fun hwide hlimit hreplicated => ?_⟩
  have hcomplete : T.Complete (k + 1) :=
    { degree_eq := hT.degree_eq
      size_roots := hT.size_roots
      size_inverseRoots := hT.size_inverseRoots
      replicated_eq := hreplicated }
  have hB := Block.whole_within (k + 1)
  exact ⟨(forwardBlock_eightLane hlimit full hcomplete hB hwide ha).trans hforward,
    (inverseBlock_eightLane hlimit full hcomplete hB hwide ha).trans hinverse⟩

/-- Tables of 32 entries that belong to no root of unity. -/
def unrelated : Transform :=
  let roots := Array.ofFn fun i : Fin 32 => ⟨.ofNat (7 * i + 5), .ofNat (2 ^ 64 - 1 - i)⟩
  let inverseRoots := Array.ofFn fun i : Fin 32 => ⟨.ofNat (2 ^ 63 + i), .ofNat (3 * i)⟩
  { degree := 32, modulus := 9, precision := .bits52, root := 0
    roots, inverseRoots
    scale := ⟨8, 13⟩, scaleRoot := ⟨9223372036854775807, 1⟩
    replicated := Replicated.ofTables 32 roots inverseRoots }

/-- Words none of which is reduced. -/
def unrelatedWords : Array Word :=
  Array.ofFn fun i : Fin 32 => .ofNat (2 ^ 64 - 1 - i)

/-- On 32 entries that are no powers of anything the recursion leaves what the layers one after the
other leave. -/
theorem network_eq_plain_unrelated :
    unrelated.Sized 5 ∧ 0 < 5 ∧ unrelatedWords.size = 2 ^ 5 ∧
      forwardBlock .portable 2 unrelated false .whole 5 unrelatedWords =
        some (plainForward unrelated false unrelatedWords) ∧
      inverseBlock .eightLane 16 unrelated true .whole 5 unrelatedWords =
        some (plainInverse unrelated true unrelatedWords) := by
  have hsized : unrelated.Sized 5 :=
    ⟨rfl, by simp [unrelated], by simp [unrelated]⟩
  have hsize : unrelatedWords.size = 2 ^ 5 := by simp [unrelatedWords]
  exact ⟨hsized, by decide, hsize, (network_eq_plain hsized (by decide) 2 false hsize).1.1,
    ((network_eq_plain hsized (by decide) 16 true hsize).2 (by decide) (by decide) rfl).2⟩

end Negacyclic.Transform
