import Negacyclic.Proofs.Transform.Plain

/-!
# Agreement of the engines

On complete tables every layer of a block finds its roots: those of the forward table end where
the layer with twice as many groups begins, and those of the inverse table where the layer with
half as many does. So a block of the portable engine is always run to its end
(`exists_forwardBlock`, `exists_inverseBlock`), and a block of at least sixteen words by the engine
on registers as well, with the same words (`engines_agree`). The narrow layers in it are layers on
words, whatever the depth of the block and its place among the blocks of that depth.

The tables of every transform that is built are complete (`Built.wellFormed`).
-/

namespace Negacyclic.Transform

variable {T : Transform} {B : Block} {k K limit : ℕ} {a : Array Word}

/-! ### Layers that run -/

/-- A forward layer of a block finds its roots: they end at or before the end of the table, because
the layer has at most half as many groups as the block has words. -/
theorem exists_forwardLayer (hT : T.Complete K) (hB : B.Within k K) {j : ℕ} (hj : j < k)
    (ha : a.size = 2 ^ k) :
    ∃ b, forwardLayer .portable T B (2 ^ j) a = some b ∧ b.size = 2 ^ k := by
  obtain ⟨t, ht, hgroups, -, hle⟩ := whole_groups hj
  have htable : B.forwardStart (2 ^ j) + 2 ^ j ≤ T.roots.size := by
    rw [hT.size_roots]
    exact (hB.forwardStart_le _).2.trans (hB.groups_le hle)
  rw [forwardLayer_portable, onGroups_of_le ht (Nat.two_pow_pos j) (ha.trans hgroups) htable]
  exact ⟨_, rfl, Layer.size_onWords.trans ha⟩

/-- An inverse layer of a block finds its roots: its place is not below zero, and the roots end
where the table does at the latest. -/
theorem exists_inverseLayer (hT : T.Complete K) (hB : B.Within k K) {j : ℕ} (hj : j < k)
    (ha : a.size = 2 ^ k) :
    ∃ b, inverseLayer .portable T B (2 ^ j) a = some b ∧ b.size = 2 ^ k := by
  obtain ⟨t, ht, hgroups, -, hle⟩ := whole_groups hj
  obtain ⟨start, hstart, -, -, hend⟩ := hB.inverseStart?_eq hle
  have hpos := Nat.mul_pos (Nat.two_pow_pos j) (Nat.two_pow_pos B.depth)
  have hbig := Nat.two_pow_pos K
  have htable : start + 2 ^ j ≤ T.inverseRoots.size := by
    rw [hT.size_inverseRoots]
    omega
  rw [inverseLayer_portable, hT.degree_eq, hstart, Option.bind_some,
    onGroups_of_le ht (Nat.two_pow_pos j) (ha.trans hgroups) htable]
  exact ⟨_, rfl, Layer.size_onWords.trans ha⟩

/-- The last inverse layer runs on as many words as the transform has. -/
theorem exists_final (hT : T.Complete K) (full : Bool) (ha : a.size = 2 ^ K) :
    ∃ b, Engine.portable.final T full a = some b ∧ b.size = 2 ^ K :=
  ⟨_, if_pos (ha.trans hT.degree_eq.symm), Layer.size_onWords.trans ha⟩

/-! ### Blocks that run -/

/-- Forward layers of a block can be run one after the other. -/
theorem exists_forwardLoop (hT : T.Complete K) (hB : B.Within k K) {js : List ℕ}
    (hjs : ∀ j ∈ js, j < k) (ha : a.size = 2 ^ k) :
    ∃ b, js.foldlM (fun a j => forwardLayer .portable T B (2 ^ j) a) a = some b ∧
      b.size = 2 ^ k :=
  exists_foldlM (fun j hj _ ha => exists_forwardLayer hT hB (hjs j hj) ha) ha

/-- Inverse layers of a block can be run one after the other. -/
theorem exists_inverseLoop (hT : T.Complete K) (hB : B.Within k K) {js : List ℕ}
    (hjs : ∀ j ∈ js, j < k) (ha : a.size = 2 ^ k) :
    ∃ b, js.foldlM (fun a j => inverseLayer .portable T B (2 ^ j) a) a = some b ∧
      b.size = 2 ^ k :=
  exists_foldlM (fun j hj _ ha => exists_inverseLayer hT hB (hjs j hj) ha) ha

/-- A forward block is run to its end. -/
theorem exists_forwardBlock (hT : T.Complete K) (hB : B.Within k K) (limit : ℕ) (full : Bool)
    (ha : a.size = 2 ^ k) :
    ∃ b, forwardBlock .portable limit T full B k a = some b ∧ b.size = 2 ^ k := by
  obtain ⟨b, hb, hbsize⟩ := exists_forwardLoop hT hB (fun _ hj => List.mem_range.1 hj) ha
  rw [forwardBlock_portable limit full ha, forwardLayers_portable, hb]
  refine ⟨_, rfl, ?_⟩
  cases full with
  | true => exact Array.size_map.trans hbsize
  | false => exact hbsize

/-- An inverse block is run to its end. -/
theorem exists_inverseBlock (hT : T.Complete K) (hB : B.Within k K) (hk : 0 < k) (limit : ℕ)
    (full : Bool) (ha : a.size = 2 ^ k) :
    ∃ b, inverseBlock .portable limit T full B k a = some b ∧ b.size = 2 ^ k := by
  rw [inverseBlock_portable limit full ha]
  by_cases hdepth : B.depth = 0
  · obtain ⟨k, rfl⟩ := Nat.exists_eq_add_of_le' hk
    have hK : k + 1 = K := by
      rw [← hB.depth_add, hdepth, Nat.zero_add]
    have hlayers : ∀ j ∈ (List.range k).reverse.map (· + 1), j < k + 1 := by
      intro j hj
      obtain ⟨i, hi, rfl⟩ := List.mem_map.1 hj
      exact Nat.succ_lt_succ (List.mem_range.1 (List.mem_reverse.1 hi))
    obtain ⟨b, hb, hbsize⟩ := exists_inverseLoop hT hB hlayers ha
    rw [List.foldlM_map] at hb
    rw [inverseLayers_portable_whole full hdepth, hb, Option.bind_some, hK]
    exact exists_final hT full (hK ▸ hbsize)
  · rw [inverseLayers_portable full hdepth]
    exact exists_inverseLoop hT hB (fun _ hj => List.mem_range.1 (List.mem_reverse.1 hj)) ha

/-! ### The engines -/

/-- The two engines on a block of at least sixteen words of any transform: forward and inverse, each
runs to its end and they leave the same words. The layers that the engine on registers runs on
chunks are the last three of the block forward and its first three in the inverse, and leave the
words that these leave on words. -/
theorem engines_agree (hT : T.Complete K) (hB : B.Within k K) (hk : 4 ≤ k) (hlimit : 16 ≤ limit)
    (full : Bool) (ha : a.size = 2 ^ k) :
    (∃ b, b.size = 2 ^ k ∧ forwardBlock .portable limit T full B k a = some b ∧
      forwardBlock .eightLane limit T full B k a = some b) ∧
    (∃ b, b.size = 2 ^ k ∧ inverseBlock .portable limit T full B k a = some b ∧
      inverseBlock .eightLane limit T full B k a = some b) ∧
    (∃ b, b.size = 2 ^ k ∧ Engine.eightLane.forwardNarrow T B a = some b ∧
      [k - 3, k - 2, k - 1].foldlM (fun a j => forwardLayer .portable T B (2 ^ j) a) a =
        some b) ∧
    ∃ b, b.size = 2 ^ k ∧ Engine.eightLane.inverseNarrow T B a = some b ∧
      [k - 1, k - 2, k - 3].foldlM (fun a j => inverseLayer .portable T B (2 ^ j) a) a =
        some b := by
  refine ⟨?_, ?_, ?_, ?_⟩
  · obtain ⟨b, hb, hsize⟩ := exists_forwardBlock hT hB limit full ha
    exact ⟨b, hsize, hb, (forwardBlock_eightLane hlimit full hT hB hk ha).trans hb⟩
  · obtain ⟨b, hb, hsize⟩ := exists_inverseBlock hT hB (by omega) limit full ha
    exact ⟨b, hsize, hb, (inverseBlock_eightLane hlimit full hT hB hk ha).trans hb⟩
  · obtain ⟨w, rfl⟩ := Nat.exists_eq_add_of_le' (show 3 ≤ k by omega)
    have hlast : ∀ j ∈ [w, w + 1, w + 2], j < w + 3 := by simp
    obtain ⟨b, hb, hsize⟩ := exists_forwardLoop hT hB hlast ha
    exact ⟨b, hsize, (forwardNarrow_eightLane hT hB (by omega) ha).trans hb, hb⟩
  · obtain ⟨w, rfl⟩ := Nat.exists_eq_add_of_le' (show 3 ≤ k by omega)
    have hfirst : ∀ j ∈ [w + 2, w + 1, w], j < w + 3 := by simp
    obtain ⟨b, hb, hsize⟩ := exists_inverseLoop hT hB hfirst ha
    exact ⟨b, hsize, (inverseNarrow_eightLane hT hB (by omega) ha).trans hb, hb⟩

/-- On 32 entries that are no powers of anything the engines agree, on the whole and on the second
half. -/
theorem engines_agree_unrelated :
    unrelated.Complete 5 ∧ Block.whole.upper.Within 4 5 ∧
      (∃ b, b.size = 2 ^ 5 ∧
        forwardBlock .portable 16 unrelated true .whole 5 unrelatedWords = some b ∧
        forwardBlock .eightLane 16 unrelated true .whole 5 unrelatedWords = some b) ∧
      ∃ b, b.size = 2 ^ 4 ∧
        inverseBlock .portable 16 unrelated false Block.whole.upper 4
          (unrelatedWords.extract 16 32) = some b ∧
        inverseBlock .eightLane 16 unrelated false Block.whole.upper 4
          (unrelatedWords.extract 16 32) = some b := by
  have hcomplete : unrelated.Complete 5 :=
    ⟨rfl, by simp [unrelated], by simp [unrelated], rfl⟩
  have hupper : Block.whole.upper.Within 4 5 := (Block.whole_within 5).upper
  have hsize : unrelatedWords.size = 2 ^ 5 := by simp [unrelatedWords]
  have hhalf : (unrelatedWords.extract 16 32).size = 2 ^ 4 := by simp [unrelatedWords]
  exact ⟨hcomplete, hupper,
    (engines_agree hcomplete (Block.whole_within 5) (by decide) le_rfl true hsize).1,
    (engines_agree hcomplete hupper le_rfl le_rfl false hhalf).2.1⟩

end Negacyclic.Transform
