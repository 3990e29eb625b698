import Negacyclic.Proofs.Transform.Tiling
import Negacyclic.Proofs.Transform.Watch

/-!
# What a run visits

A transform halves its blocks until they are small, and then runs layer by layer, with other
formulas for the place of a slice in each of the two tables and in those with copies. All of this
is shown of the record of a run (`forwardRecorded`, `inverseRecorded`).

Each visit is sound (`Visit.ForwardSound`, `Visit.InverseSound`): the block is one of those of its
depth and has its share of the words, the slice lies in its table, its place is what the formula
gives with the subtraction of integers, and the layer gets the words, the stride and the roots that
it checks. No slice of the inverse transform has the last entry of the table.

The invariant of the recursion is `Block.Within`: the depth of a block and its levels make up those
of the transform, and its position is below `2^depth`. With it each block traverses its layers
(`forwardBlock_traverses`, `inverseBlock_traverses`), from which follows which entries of a table
each layer of the whole transform takes (`tiledAt_forward`, `tiledAt_inverse`).
-/

namespace Negacyclic

/-! ### Places of copies -/

namespace Replicated

/-- `forwardIndex` with the subtraction of integers. -/
def forwardPlace (n i : ℤ) : ℤ :=
  if i < n / 8 then i
  else if i < n / 4 then (i - n / 8) * 4 + n / 8
  else if i < n / 2 then (i - n / 4) * 2 + 5 * n / 8
  else i + 5 * n / 8

/-- `inverseIndex` with the subtraction of integers. -/
def inversePlace (n i : ℤ) : ℤ :=
  if i ≤ n / 2 then i
  else if i ≤ 3 * n / 4 then (i - (n / 2 + 1)) * 2 + n / 2 + 1
  else if i ≤ 7 * n / 8 then (i - (3 * n / 4 + 1)) * 4 + n + 1
  else i + 5 * n / 8

/-- The subtractions of `forwardIndex` do not go below zero. -/
theorem forwardIndex_cast (n i : ℕ) : (forwardIndex n i : ℤ) = forwardPlace n i := by
  unfold forwardIndex forwardPlace
  split_ifs <;> omega

/-- The subtractions of `inverseIndex` do not go below zero. -/
theorem inverseIndex_cast (n i : ℕ) : (inverseIndex n i : ℤ) = inversePlace n i := by
  unfold inverseIndex inversePlace
  split_ifs <;> omega

end Replicated

/-! ### Sound visits -/

/-- The slice that a wide layer takes lies in its table, and the stride fills the registers and
goes with the words. -/
structure WideFits (table : Array Multiplier) (width words t m first : ℕ) : Prop where
  inside : first + m ≤ table.size
  fills : width ≤ t
  words_eq : words = 2 * t * m

/-- The slice that a narrow layer takes lies in the replicated table, has one multiplier for each
butterfly, and holds the copies of the entries from `first` on. -/
structure NarrowFits (table copies : Array Multiplier) (words m first start : ℕ) : Prop where
  inside : start + words / 2 ≤ copies.size
  words_eq : words = 2 * (words / 2)
  copied : ∃ t ∈ [4, 2, 1], words = 2 * t * m ∧ ∀ i < m, ∀ r < t,
    copies.getD (start + t * i + r) default = table.getD (first + i) default

namespace Visit

variable (T : Transform) (width : ℕ) (v : Visit)

/-- The block is one of those of its depth and has its share of the words. -/
def Placed : Prop :=
  v.block.index < 2 ^ v.block.depth ∧ v.words * 2 ^ v.block.depth = T.degree

/-- A visit of the forward transform that goes well. -/
def ForwardSound : Prop :=
  v.Placed T ∧
    match v.act with
    | .enter => True
    | .wide t m first =>
        first = v.block.forwardStart m ∧ WideFits T.roots width v.words t m first
    | .narrow m first start =>
        first = v.block.forwardStart m ∧ start = Replicated.forwardPlace T.degree first ∧
          NarrowFits T.roots T.replicated.roots v.words m first start
    | .final => False

/-- A visit of the inverse transform that goes well. The subtraction in the place of a slice is one
of natural numbers, and no slice has the last entry of the table. -/
def InverseSound : Prop :=
  v.Placed T ∧
    match v.act with
    | .enter => True
    | .wide t m first =>
        v.block.inverseStart? T.degree m = some first ∧ first + m < T.degree ∧
          WideFits T.inverseRoots width v.words t m first
    | .narrow m first start =>
        v.block.inverseStart? T.degree m = some first ∧ first + m < T.degree ∧
          start = Replicated.inversePlace T.degree first ∧
          NarrowFits T.inverseRoots T.replicated.inverseRoots v.words m first start
    | .final => v.block = .whole ∧ v.words = T.degree

end Visit

/-! ### Stages of a block -/

/-- Layer `l` of a block of the forward transform. -/
def forwardStage (B : Block) (l : ℕ) : Stage :=
  .taken B (2 ^ l) (B.forwardStart (2 ^ l))

/-- Layer `l` of a block of the inverse transform of size `n`. -/
def inverseStage (n : ℕ) (B : Block) (l : ℕ) : Stage :=
  if B.depth + l = 0 then .final B else .taken B (2 ^ l) (B.inverseStart n (2 ^ l))

/-- Layer `l` of a block is layer `depth + l` of the transform. -/
theorem total_forwardStage (B : Block) (l : ℕ) : (forwardStage B l).total = 2 ^ (B.depth + l) := by
  simp only [forwardStage, Stage.total]
  rw [← pow_add, Nat.add_comm]

/-- Layer `l` of a block is layer `depth + l` of the transform, the last layer included. -/
theorem total_inverseStage (n : ℕ) (B : Block) (l : ℕ) :
    (inverseStage n B l).total = 2 ^ (B.depth + l) := by
  unfold inverseStage
  split_ifs with h
  · rw [h, Stage.total, (Nat.add_eq_zero_iff.1 h).1]
  · rw [Stage.total, ← pow_add, Nat.add_comm]

/-! ### Engines -/

/-- The layers of an engine check what they are given and keep the number of words. -/
structure Engine.Steady (E : Engine) (T : Transform) : Prop where
  forward {B : Block} {t : ℕ} {roots : Array Multiplier} {a b : Array Word}
    (h : E.forward T B t roots a = some b) :
    2 ^ E.widthLog ≤ t ∧ a.size = 2 * t * roots.size ∧ b.size = a.size
  inverse {B : Block} {t : ℕ} {roots : Array Multiplier} {a b : Array Word}
    (h : E.inverse T B t roots a = some b) :
    2 ^ E.widthLog ≤ t ∧ a.size = 2 * t * roots.size ∧ b.size = a.size
  final {full : Bool} {a b : Array Word} (h : E.final T full a = some b) :
    a.size = T.degree ∧ b.size = a.size
  size_settle (a : Array Word) : (E.settle T a).size = a.size

/-- What is known of a layer that runs behind the check of its shape. -/
theorem Engine.size_of_fits {L t : ℕ} {roots : Array Multiplier} {a b b' : Array Word}
    (hsize : b'.size = a.size) (h : (if fits L t roots a then some b' else none) = some b) :
    L ≤ t ∧ a.size = 2 * t * roots.size ∧ b.size = a.size := by
  obtain ⟨hfits, hb⟩ := Option.ite_none_right_eq_some.1 h
  simp only [fits, Bool.and_eq_true, decide_eq_true_eq, beq_iff_eq] at hfits
  cases hb
  exact ⟨hfits.1, hfits.2, hsize⟩

/-- The portable engine checks what it is given. -/
theorem Engine.portable_steady (T : Transform) : Engine.portable.Steady T where
  forward h := size_of_fits Layer.size_onWords h
  inverse h := size_of_fits Layer.size_onWords h
  final h := by
    obtain ⟨ha, hb⟩ := Option.ite_none_right_eq_some.1 h
    cases hb
    exact ⟨ha, Layer.size_onWords⟩
  size_settle a := Array.size_map

/-- The engine on registers checks what it is given. -/
theorem Engine.eightLane_steady (T : Transform) : Engine.eightLane.Steady T where
  forward h := size_of_fits Array.size_ofFn h
  inverse h := size_of_fits Array.size_ofFn h
  final h := by
    obtain ⟨ha, hb⟩ := Option.ite_none_right_eq_some.1 h
    cases hb
    exact ⟨ha, Array.size_ofFn⟩
  size_settle a := Array.size_ofFn

/-! ### Recorded layers -/

section layers

variable {R : Recorder} {T : Transform} {B : Block} {k K j width : ℕ} {a y : Array Word}
  {log : List Visit}

/-- A visit to a block within the transform is in its place. -/
theorem Visit.placed (hdegree : T.degree = 2 ^ K) (hB : B.Within k K) (ha : a.size = 2 ^ k)
    (act : Act) : Visit.Placed T ⟨B, a.size, act⟩ := by
  refine ⟨hB.index_lt, ?_⟩
  rw [hdegree, ← hB.words_mul, ha]

/-- A loop over layers each of which is run once. -/
theorem Layers.of_foldlM {sound : Visit → Prop} {stage : Block → ℕ → Stage}
    {step : Array Word → ℕ → Recorded (Array Word)} {js : List ℕ}
    (hstep : ∀ j ∈ js, ∀ (a y : Array Word) (log : List Visit), a.size = 2 ^ k →
      (step a j).run = some (y, log) → y.size = 2 ^ k ∧ Layers sound stage B [j] log)
    (ha : a.size = 2 ^ k) (h : (js.foldlM step a).run = some (y, log)) :
    y.size = 2 ^ k ∧ Layers sound stage B js log := by
  induction js generalizing a log with
  | nil =>
      obtain ⟨rfl, rfl⟩ := Recorded.run_pure_eq_some.1 h
      exact ⟨ha, .nil⟩
  | cons j js ih =>
      rw [List.foldlM_cons, Recorded.run_bind_eq_some] at h
      obtain ⟨b, before, after, hb, h, rfl⟩ := h
      obtain ⟨hbsize, hfirst⟩ := hstep j List.mem_cons_self a b before ha hb
      obtain ⟨hysize, hrest⟩ := ih (fun i hi => hstep i (List.mem_cons_of_mem j hi)) hbsize h
      exact ⟨hysize, hfirst.append hrest⟩

/-- A slice that is there lies inside the table and has the size asked for. -/
theorem slice?_eq_some {table roots : Array Multiplier} {start count : ℕ}
    (h : slice? table start count = some roots) :
    start + count ≤ table.size ∧ roots.size = count := by
  obtain ⟨hle, h⟩ := Option.ite_none_right_eq_some.1 h
  cases h
  refine ⟨hle, ?_⟩
  rw [Array.size_extract]
  omega

/-- Only layer 0 of the whole inverse transform has a root that is the last of the table. -/
theorem Block.Within.inverseStart?_inside (hB : B.Within k K) (hdegree : T.degree = 2 ^ K)
    (hj : B.depth + j ≠ 0) {first : ℕ} (h : B.inverseStart? T.degree (2 ^ j) = some first) :
    first = B.inverseStart T.degree (2 ^ j) ∧ first + 2 ^ j < T.degree := by
  have hmany : 1 < 2 ^ j * 2 ^ B.depth := by
    rw [← pow_add, Nat.add_comm]
    exact Nat.one_lt_two_pow hj
  refine ⟨(Block.inverseStart?_eq_some_iff.1 h).2, ?_⟩
  rw [hdegree] at h ⊢
  exact hB.inverseStart?_add_lt h hmany

/-- A recorded forward layer is one sound visit, of the layer that it is said to be. -/
theorem forwardLayer_layers (hR : R.engine.Steady T) (hdegree : T.degree = 2 ^ K)
    (hB : B.Within k K) (ha : a.size = 2 ^ k)
    (h : (R.forwardLayer T B (2 ^ j) a).run = some (y, log)) :
    y.size = 2 ^ k ∧
      Layers (Visit.ForwardSound T (2 ^ R.engine.widthLog)) forwardStage B [j] log := by
  simp only [Recorder.forwardLayer, Recorded.run_visit_bind_eq_some,
    Recorded.run_lift_bind_eq_some, Recorded.run_lift_eq_some] at h
  obtain ⟨-, ⟨roots, hslice, hrun, rfl⟩, rfl⟩ := h
  obtain ⟨hinside, hsize⟩ := slice?_eq_some hslice
  obtain ⟨hfills, hwords, hy⟩ := hR.forward hrun
  rw [hsize] at hwords
  refine ⟨hy.trans ha, List.forall_mem_singleton.2 ?_, rfl⟩
  exact ⟨Visit.placed hdegree hB ha _, rfl, hinside, hfills, hwords⟩

/-- A recorded inverse layer is one sound visit. The layer is not the last of the whole, which is
why its slice ends before the last entry. -/
theorem inverseLayer_layers (hR : R.engine.Steady T) (hdegree : T.degree = 2 ^ K)
    (hB : B.Within k K) (ha : a.size = 2 ^ k) (hj : B.depth + j ≠ 0)
    (h : (R.inverseLayer T B (2 ^ j) a).run = some (y, log)) :
    y.size = 2 ^ k ∧
      Layers (Visit.InverseSound T (2 ^ R.engine.widthLog)) (inverseStage T.degree) B [j] log := by
  simp only [Recorder.inverseLayer, Recorded.run_visit_bind_eq_some,
    Recorded.run_lift_bind_eq_some, Recorded.run_lift_eq_some] at h
  obtain ⟨first, hstart, -, ⟨roots, hslice, hrun, rfl⟩, rfl⟩ := h
  obtain ⟨hinside, hsize⟩ := slice?_eq_some hslice
  obtain ⟨hfills, hwords, hy⟩ := hR.inverse hrun
  rw [hsize] at hwords
  obtain ⟨hplace, hlast⟩ := hB.inverseStart?_inside hdegree hj hstart
  refine ⟨hy.trans ha, List.forall_mem_singleton.2 ?_, ?_⟩
  · exact ⟨Visit.placed hdegree hB ha _, hstart, hlast, hinside, hfills, hwords⟩
  · rw [List.map_singleton, inverseStage, if_neg hj, ← hplace]
    rfl

/-- The last inverse layer is one sound visit, of the whole. -/
theorem final_layers (hR : R.engine.Steady T) (hdegree : T.degree = 2 ^ K)
    (hB : B.Within k K) (hdepth : B.depth = 0) (ha : a.size = 2 ^ k) {full : Bool}
    (h : (R.final T full B a).run = some (y, log)) :
    y.size = 2 ^ k ∧ Layers (Visit.InverseSound T width) (inverseStage T.degree) B [0] log := by
  simp only [Recorder.final, Recorded.run_visit_bind_eq_some, Recorded.run_lift_eq_some] at h
  obtain ⟨-, ⟨hrun, rfl⟩, rfl⟩ := h
  obtain ⟨hwords, hy⟩ := hR.final hrun
  have hwhole : B = .whole := hB.eq_whole hdepth
  refine ⟨hy.trans ha, List.forall_mem_singleton.2 ?_, ?_⟩
  · exact ⟨Visit.placed hdegree hB ha _, hwhole, hwords⟩
  · rw [List.map_singleton, inverseStage, if_pos (by omega)]
    rfl

/-! ### Narrow layers -/

/-- A narrow layer of stride `t` takes its copies from the replicated table. -/
theorem forwardChunksRecorded_layers {s : Layer.Shuffle} {t : ℕ} (ht : t = 4 ∨ t = 2 ∨ t = 1)
    (hT : T.Complete K) (hB : B.Within k K) (hk : 4 ≤ k) (ha : a.size = 2 ^ k)
    (hm : 2 ^ k = 2 * t * 2 ^ j)
    (h : (Engine.forwardChunksRecorded T B s (2 ^ j) a).run = some (y, log)) :
    y.size = 2 ^ k ∧ Layers (Visit.ForwardSound T width) forwardStage B [j] log := by
  unfold Engine.forwardChunksRecorded at h
  obtain ⟨rest, hrest, rfl⟩ := Recorded.run_visit_bind_eq_some.1 h
  obtain ⟨roots, hslice, hrest⟩ := Recorded.run_lift_bind_eq_some.1 hrest
  obtain ⟨_, hguard, hrest⟩ := Recorded.run_lift_bind_eq_some.1 hrest
  obtain ⟨rfl, rfl⟩ := Recorded.run_pure_eq_some.1 hrest
  obtain ⟨hinside, hsize⟩ := slice?_eq_some hslice
  have hn : a.size * 2 ^ B.depth = T.degree := by
    rw [ha, hB.words_mul, hT.degree_eq]
  have hwords : a.size = 2 * (a.size / 2) := by
    have := (Option.guard_eq_some' _).1 hguard
    omega
  refine ⟨Array.size_ofFn.trans ha, List.forall_mem_singleton.2 ?_, rfl⟩
  refine ⟨Visit.placed hT.degree_eq hB ha _, rfl, by rw [hn, Replicated.forwardIndex_cast],
    hinside, hwords, t, ?_, ?_, ?_⟩
  · simpa using ht
  · exact ha.trans hm
  · exact (Transform.forward_copies ht hT hB hk hm (by rw [hn, hT.degree_eq])).2

/-- A recorded narrow inverse layer is one sound visit; what it loads are copies of the slice that
the layer on words takes. -/
theorem inverseChunksRecorded_layers {s : Layer.Shuffle} {t : ℕ} (ht : t = 4 ∨ t = 2 ∨ t = 1)
    (hT : T.Complete K) (hB : B.Within k K) (hk : 4 ≤ k) (ha : a.size = 2 ^ k) (hj : j ≠ 0)
    (hm : 2 ^ k = 2 * t * 2 ^ j)
    (h : (Engine.inverseChunksRecorded T B s (2 ^ j) a).run = some (y, log)) :
    y.size = 2 ^ k ∧ Layers (Visit.InverseSound T width) (inverseStage T.degree) B [j] log := by
  have hn : a.size * 2 ^ B.depth = T.degree := by
    rw [ha, hB.words_mul, hT.degree_eq]
  unfold Engine.inverseChunksRecorded at h
  rw [hn] at h
  obtain ⟨first, hstart, hvisit⟩ := Recorded.run_lift_bind_eq_some.1 h
  obtain ⟨rest, hrest, rfl⟩ := Recorded.run_visit_bind_eq_some.1 hvisit
  obtain ⟨roots, hslice, hrest⟩ := Recorded.run_lift_bind_eq_some.1 hrest
  obtain ⟨_, hguard, hrest⟩ := Recorded.run_lift_bind_eq_some.1 hrest
  obtain ⟨rfl, rfl⟩ := Recorded.run_pure_eq_some.1 hrest
  obtain ⟨hinside, hsize⟩ := slice?_eq_some hslice
  have hwords : a.size = 2 * (a.size / 2) := by
    have := (Option.guard_eq_some' _).1 hguard
    omega
  obtain ⟨hplace, hlast⟩ := hB.inverseStart?_inside hT.degree_eq (by omega) hstart
  refine ⟨Array.size_ofFn.trans ha, List.forall_mem_singleton.2 ?_, ?_⟩
  · refine ⟨Visit.placed hT.degree_eq hB ha _, hstart, hlast,
      Replicated.inverseIndex_cast _ _, hinside, hwords, t, ?_, ?_, ?_⟩
    · simpa using ht
    · exact ha.trans hm
    · rw [hT.degree_eq] at hstart
      exact (Transform.inverse_copies ht hT hB hk hm hstart (by rw [hT.degree_eq])).2
  · rw [List.map_singleton, inverseStage, if_neg (by omega), ← hplace]
    rfl

/-- The strides 4, 2 and 1 are those of the last three layers. -/
theorem forwardNarrow_layers (hT : T.Complete K) (hB : B.Within k K) (hk : 3 < k)
    (ha : a.size = 2 ^ k) (h : (Recorder.eightLane.forwardNarrow T B a).run = some (y, log)) :
    y.size = 2 ^ k ∧
      Layers (Visit.ForwardSound T width) forwardStage B (List.range' (k - 3) 3) log := by
  obtain ⟨w, rfl⟩ := Nat.exists_eq_add_of_le' (show 3 ≤ k by omega)
  obtain ⟨b, before, rest, hb, hrest, rfl⟩ := Recorded.run_bind_eq_some.1 h
  obtain ⟨c, middle, after, hc, hy, rfl⟩ := Recorded.run_bind_eq_some.1 hrest
  obtain ⟨⟨hm, hwords⟩, -, -⟩ := Transform.narrow_groups ha
  rw [hm] at hb
  obtain ⟨hbsize, hfirst⟩ := forwardChunksRecorded_layers (.inl rfl) hT hB hk ha hwords hb
  obtain ⟨-, ⟨hm, hwords⟩, -⟩ := Transform.narrow_groups hbsize
  rw [hm] at hc
  obtain ⟨hcsize, hsecond⟩ :=
    forwardChunksRecorded_layers (.inr (.inl rfl)) hT hB hk hbsize hwords hc
  obtain ⟨-, -, ⟨hm, hwords⟩⟩ := Transform.narrow_groups hcsize
  rw [hm] at hy
  obtain ⟨hysize, hthird⟩ :=
    forwardChunksRecorded_layers (.inr (.inr rfl)) hT hB hk hcsize hwords hy
  rw [Nat.add_sub_cancel]
  exact ⟨hysize, hfirst.append (hsecond.append hthird)⟩

/-- The inverse transform has them first, in the other order. -/
theorem inverseNarrow_layers (hT : T.Complete K) (hB : B.Within k K) (hk : 3 < k)
    (ha : a.size = 2 ^ k) (h : (Recorder.eightLane.inverseNarrow T B a).run = some (y, log)) :
    y.size = 2 ^ k ∧ Layers (Visit.InverseSound T width) (inverseStage T.degree) B
      (List.range' (k - 3) 3).reverse log := by
  obtain ⟨w, rfl⟩ := Nat.exists_eq_add_of_le' (show 3 ≤ k by omega)
  obtain ⟨b, before, rest, hb, hrest, rfl⟩ := Recorded.run_bind_eq_some.1 h
  obtain ⟨c, middle, after, hc, hy, rfl⟩ := Recorded.run_bind_eq_some.1 hrest
  obtain ⟨-, -, ⟨hm, hwords⟩⟩ := Transform.narrow_groups ha
  rw [hm] at hb
  obtain ⟨hbsize, hfirst⟩ :=
    inverseChunksRecorded_layers (.inr (.inr rfl)) hT hB hk ha (by omega) hwords hb
  obtain ⟨-, ⟨hm, hwords⟩, -⟩ := Transform.narrow_groups hbsize
  rw [hm] at hc
  obtain ⟨hcsize, hsecond⟩ :=
    inverseChunksRecorded_layers (.inr (.inl rfl)) hT hB hk hbsize (by omega) hwords hc
  obtain ⟨⟨hm, hwords⟩, -, -⟩ := Transform.narrow_groups hcsize
  rw [hm] at hy
  obtain ⟨hysize, hthird⟩ :=
    inverseChunksRecorded_layers (.inl rfl) hT hB hk hcsize (by omega) hwords hy
  rw [Nat.add_sub_cancel]
  exact ⟨hysize, hfirst.append (hsecond.append hthird)⟩

/-! ### Recorders -/

/-- The layers that an engine runs by itself are the narrow ones of a block, of which each is run
once. -/
structure Recorder.Steady (R : Recorder) (T : Transform) (K : ℕ) : Prop
    extends R.engine.Steady T where
  forwardNarrow {B : Block} {k : ℕ} {a y : Array Word} {log : List Visit} (hB : B.Within k K)
    (hk : R.engine.widthLog < k) (ha : a.size = 2 ^ k)
    (h : (R.forwardNarrow T B a).run = some (y, log)) :
    y.size = 2 ^ k ∧ Layers (Visit.ForwardSound T (2 ^ R.engine.widthLog)) forwardStage B
      (List.range' (k - R.engine.widthLog) R.engine.widthLog) log
  inverseNarrow {B : Block} {k : ℕ} {a y : Array Word} {log : List Visit} (hB : B.Within k K)
    (hk : R.engine.widthLog < k) (ha : a.size = 2 ^ k)
    (h : (R.inverseNarrow T B a).run = some (y, log)) :
    y.size = 2 ^ k ∧
      Layers (Visit.InverseSound T (2 ^ R.engine.widthLog)) (inverseStage T.degree) B
        (List.range' (k - R.engine.widthLog) R.engine.widthLog).reverse log

/-- The portable recorder goes through sound visits. It has no narrow layers. -/
theorem Recorder.portable_steady (T : Transform) (K : ℕ) : Recorder.portable.Steady T K where
  toSteady := Engine.portable_steady T
  forwardNarrow _ _ ha h := by
    obtain ⟨rfl, rfl⟩ := Recorded.run_pure_eq_some.1 h
    exact ⟨ha, .nil⟩
  inverseNarrow _ _ ha h := by
    obtain ⟨rfl, rfl⟩ := Recorded.run_pure_eq_some.1 h
    exact ⟨ha, .nil⟩

/-- The recorder on registers goes through sound visits, the narrow ones included. -/
theorem Recorder.eightLane_steady (hT : T.Complete K) : Recorder.eightLane.Steady T K where
  toSteady := Engine.eightLane_steady T
  forwardNarrow := forwardNarrow_layers hT
  inverseNarrow := inverseNarrow_layers hT

/-- On every machine the recorder goes through sound visits. -/
theorem Transform.recorder_steady (hT : T.Complete K) (backend : Backend) :
    (T.recorder backend).Steady T K := by
  cases backend with
  | portable => exact Recorder.portable_steady T K
  | eightLane =>
      unfold recorder
      split_ifs
      · exact Recorder.eightLane_steady hT
      · exact Recorder.portable_steady T K

/-! ### Blocks -/

/-- Entering a block is no layer. -/
theorem Layers.enter {sound : Visit → Prop} {stage : Block → ℕ → Stage}
    (h : sound ⟨B, a.size, .enter⟩) : Layers sound stage B [] [⟨B, a.size, .enter⟩] :=
  ⟨List.forall_mem_singleton.2 h, rfl⟩

/-- The layers of a block are the wide ones and after them the `w` narrow ones. -/
theorem range_eq_append {w : ℕ} (h : w ≤ k) :
    List.range k = List.range (k - w) ++ List.range' (k - w) w := by
  have := @List.range'_append_1 0 (k - w) w
  rw [Nat.zero_add, Nat.sub_add_cancel h] at this
  rw [List.range_eq_range', List.range_eq_range', this]

/-- A block above a limit that registers go into can be halved. -/
theorem lt_of_not_le_limit {w limit : ℕ} (hlimit : 2 ^ (w + 1) ≤ limit)
    (h : ¬2 ^ (k + 1) ≤ limit) : w < k :=
  Nat.lt_of_succ_lt_succ
    ((Nat.pow_lt_pow_iff_right Nat.one_lt_two).1 (hlimit.trans_lt (not_le.1 h)))

section blocks

variable {limit : ℕ} {full : Bool} (hR : R.Steady T K) (hdegree : T.degree = 2 ^ K)

include hR hdegree

/-- Layer by layer, each layer is run once. -/
theorem forwardLayers_layers (hB : B.Within k K) (hk : R.engine.widthLog < k) (ha : a.size = 2 ^ k)
    (h : (R.forwardLayers T full B k a).run = some (y, log)) :
    y.size = 2 ^ k ∧
      Layers (Visit.ForwardSound T (2 ^ R.engine.widthLog)) forwardStage B (List.range k) log := by
  obtain ⟨b, wide, rest, hb, hrest, rfl⟩ := Recorded.run_bind_eq_some.1 h
  obtain ⟨c, narrow, last, hc, hy, rfl⟩ := Recorded.run_bind_eq_some.1 hrest
  obtain ⟨rfl, rfl⟩ := Recorded.run_pure_eq_some.1 hy
  obtain ⟨hbsize, hwide⟩ := Layers.of_foldlM
    (fun j _ a y log ha h => forwardLayer_layers hR.toSteady hdegree hB ha h) ha hb
  obtain ⟨hcsize, hnarrow⟩ := hR.forwardNarrow hB hk hbsize hc
  constructor
  · split_ifs
    · rw [hR.size_settle, hcsize]
    · exact hcsize
  · rw [List.append_nil, range_eq_append hk.le]
    exact hwide.append hnarrow

/-- The induction is on the levels of blocks: a block above the limit runs its layer 0 and then its
halves. -/
theorem forwardBlock_traverses (hlimit : 2 ^ (R.engine.widthLog + 1) ≤ limit) (hB : B.Within k K)
    (hk : R.engine.widthLog < k) (ha : a.size = 2 ^ k)
    (h : (R.forwardBlock limit T full B k a).run = some (y, log)) :
    y.size = 2 ^ k ∧
      Traverses (Visit.ForwardSound T (2 ^ R.engine.widthLog)) forwardStage limit B k log := by
  induction k generalizing B a y log with
  | zero => exact absurd hk (Nat.not_lt_zero _)
  | succ k ih =>
      obtain ⟨inner, hinner, rfl⟩ := Recorded.run_visit_bind_eq_some.1 h
      have henter : Layers (Visit.ForwardSound T (2 ^ R.engine.widthLog)) forwardStage B []
          [⟨B, a.size, .enter⟩] :=
        .enter ⟨Visit.placed hdegree hB ha _, trivial⟩
      split_ifs at hinner with hsmall
      · obtain ⟨hysize, hlayers⟩ := forwardLayers_layers hR hdegree hB hk ha hinner
        exact ⟨hysize, (henter.append hlayers).traverses total_forwardStage List.nodup_range
          (fun _ => List.mem_range) (.inl hsmall)⟩
      · obtain ⟨b, own, halves, hb, hhalves, rfl⟩ := Recorded.run_bind_eq_some.1 hinner
        obtain ⟨low, lower, rest, hlow, hrest, rfl⟩ := Recorded.run_bind_eq_some.1 hhalves
        obtain ⟨high, upper, last, hhigh, hy, rfl⟩ := Recorded.run_bind_eq_some.1 hrest
        obtain ⟨rfl, rfl⟩ := Recorded.run_pure_eq_some.1 hy
        have hkhalf := lt_of_not_le_limit hlimit hsmall
        obtain ⟨hbsize, hown⟩ := forwardLayer_layers (j := 0) hR.toSteady hdegree hB ha hb
        obtain ⟨hblow, hbhigh, -⟩ := size_halves hbsize
        obtain ⟨hlowSize, hlower⟩ := ih hB.lower hkhalf hblow hlow
        obtain ⟨hhighSize, hupper⟩ := ih hB.upper hkhalf hbhigh hhigh
        constructor
        · rw [Array.size_append, hlowSize, hhighSize, Nat.two_pow_succ]
        · have hall := henter.append hown
          rw [← List.append_nil ([_] ++ own)] at hall
          have := hall.halves total_forwardStage hsmall hlower hupper
          simpa only [List.cons_append, List.nil_append, List.append_assoc, List.append_nil]
            using this

/-- Layer by layer from the last to the first; of the whole transform the first is the one that
takes no roots. -/
theorem inverseLayers_layers (hB : B.Within k K) (hk : R.engine.widthLog < k) (ha : a.size = 2 ^ k)
    (h : (R.inverseLayers T full B k a).run = some (y, log)) :
    y.size = 2 ^ k ∧ Layers (Visit.InverseSound T (2 ^ R.engine.widthLog))
      (inverseStage T.degree) B (List.range k).reverse log := by
  obtain ⟨b, narrow, rest, hb, hrest, rfl⟩ := Recorded.run_bind_eq_some.1 h
  obtain ⟨c, wide, last, hc, hy, rfl⟩ := Recorded.run_bind_eq_some.1 hrest
  obtain ⟨hbsize, hnarrow⟩ := hR.inverseNarrow hB hk ha hb
  have hstage (n j : ℕ) (hj : j ∈ (List.range' (if B.depth = 0 then 1 else 0) n).reverse) :
      B.depth + j ≠ 0 := by
    have := (List.mem_range'_1.1 (List.mem_reverse.1 hj)).1
    split_ifs at this <;> omega
  obtain ⟨hcsize, hwide⟩ := Layers.of_foldlM (fun j hj a y log ha h =>
    inverseLayer_layers hR.toSteady hdegree hB ha (hstage _ j hj) h) hbsize hc
  rw [range_eq_append hk.le, List.reverse_append]
  -- the wide layers of the whole transform stop before layer 0
  by_cases hdepth : B.depth = 0
  · rw [if_pos hdepth] at hy hwide
    obtain ⟨hysize, hlast⟩ := final_layers hR.toSteady hdegree hB hdepth hcsize hy
    refine ⟨hysize, hnarrow.append ?_⟩
    have hfirst := range_eq_append (k := k - R.engine.widthLog) (w := k - R.engine.widthLog - 1)
      (Nat.sub_le _ _)
    rw [Nat.sub_sub_self (by omega)] at hfirst
    rw [hfirst, List.reverse_append]
    exact hwide.append hlast
  · rw [if_neg hdepth] at hy hwide
    obtain ⟨rfl, rfl⟩ := Recorded.run_pure_eq_some.1 hy
    rw [List.append_nil]
    refine ⟨hcsize, hnarrow.append ?_⟩
    rw [List.range_eq_range']
    exact hwide

/-- The halves come first, and after them layer 0 of a block above the limit. -/
theorem inverseBlock_traverses (hlimit : 2 ^ (R.engine.widthLog + 1) ≤ limit) (hB : B.Within k K)
    (hk : R.engine.widthLog < k) (ha : a.size = 2 ^ k)
    (h : (R.inverseBlock limit T full B k a).run = some (y, log)) :
    y.size = 2 ^ k ∧ Traverses (Visit.InverseSound T (2 ^ R.engine.widthLog))
      (inverseStage T.degree) limit B k log := by
  induction k generalizing B a y log with
  | zero => exact absurd hk (Nat.not_lt_zero _)
  | succ k ih =>
      obtain ⟨inner, hinner, rfl⟩ := Recorded.run_visit_bind_eq_some.1 h
      have henter : Layers (Visit.InverseSound T (2 ^ R.engine.widthLog)) (inverseStage T.degree)
          B [] [⟨B, a.size, .enter⟩] :=
        .enter ⟨Visit.placed hdegree hB ha _, trivial⟩
      by_cases hsmall : 2 ^ (k + 1) ≤ limit
      · rw [if_pos hsmall] at hinner
        obtain ⟨hysize, hlayers⟩ := inverseLayers_layers hR hdegree hB hk ha hinner
        exact ⟨hysize, (henter.append hlayers).traverses (total_inverseStage T.degree)
          (List.nodup_reverse.2 List.nodup_range)
          (fun _ => List.mem_reverse.trans List.mem_range) (.inl hsmall)⟩
      · rw [if_neg hsmall] at hinner
        obtain ⟨low, lower, rest, hlow, hrest, rfl⟩ := Recorded.run_bind_eq_some.1 hinner
        obtain ⟨high, upper, own, hhigh, hy, rfl⟩ := Recorded.run_bind_eq_some.1 hrest
        have hkhalf := lt_of_not_le_limit hlimit hsmall
        obtain ⟨hblow, hbhigh, -⟩ := size_halves ha
        obtain ⟨hlowSize, hlower⟩ := ih hB.lower hkhalf hblow hlow
        obtain ⟨hhighSize, hupper⟩ := ih hB.upper hkhalf hbhigh hhigh
        have hsize : (low ++ high).size = 2 ^ (k + 1) := by
          rw [Array.size_append, hlowSize, hhighSize, Nat.two_pow_succ]
        have hown : y.size = 2 ^ (k + 1) ∧
            Layers (Visit.InverseSound T (2 ^ R.engine.widthLog)) (inverseStage T.degree) B [0]
              own := by
          split_ifs at hy with hdepth
          · exact final_layers hR.toSteady hdegree hB hdepth hsize hy
          · exact inverseLayer_layers (j := 0) hR.toSteady hdegree hB hsize hdepth hy
        have := (henter.append hown.2).halves (total_inverseStage T.degree) hsmall hlower hupper
        refine ⟨hown.1, ?_⟩
        simpa only [List.cons_append, List.nil_append, List.append_assoc] using this

end blocks

/-! ### Whole transforms -/

/-- The layer with `2^j` groups is run by all blocks of one depth in their order, and their slices
make up the entries of a table from `lo` to `hi`. -/
def TiledAt (log : List Visit) (j lo hi : ℕ) : Prop :=
  ∃ d ≤ j, (stagesAt (2 ^ j) log).map Stage.block = (List.range (2 ^ d)).map (Block.mk d) ∧
    Tiles (stagesAt (2 ^ j) log) lo hi

/-- A layer of the whole transform of which every part takes a slice. -/
theorem Traverses.tiledAt {sound : Visit → Prop} {stage : Block → ℕ → Stage}
    {start : Block → ℕ → ℕ} {limit : ℕ} (h : Traverses sound stage limit .whole k log) (hj : j < k)
    (hstart : Block.Halving start)
    (hstage : ∀ B l, B.depth + l = j → stage B l = .taken B (2 ^ l) (start B (2 ^ l))) :
    TiledAt log j (start .whole (2 ^ j)) (start .whole (2 ^ j) + 2 ^ j) := by
  set d := descents limit k j with hd
  have hdj : d ≤ j := descents_le limit k j
  have hlayer := h.layer j hj
  rw [← hd, Block.whole, Nat.zero_add, ← Block.whole] at hlayer
  have hparts : stagesAt (2 ^ j) log =
      (Block.whole.parts d).map fun C => .taken C (2 ^ (j - d)) (start C (2 ^ (j - d))) := by
    rw [hlayer]
    refine List.map_congr_left fun C hC => hstage C (j - d) ?_
    rw [Block.parts_whole] at hC
    obtain ⟨i, -, rfl⟩ := List.mem_map.1 hC
    exact Nat.add_sub_cancel' hdj
  refine ⟨d, hdj, ?_, ?_⟩
  · rw [hparts, List.map_map, ← Block.parts_whole]
    exact List.map_id _
  · have htiles := tiles_parts hstart .whole d (2 ^ (j - d))
    rw [← pow_add, Nat.add_sub_cancel' hdj] at htiles
    rw [hparts]
    exact htiles

end layers

namespace Transform

variable {isPrime : Word → Bool} {T : Transform} {K : ℕ} {a y : Array Word}

/-- An engine is chosen for transforms that fill its registers, and so do blocks above the
limit. -/
theorem widthLog_recorder (hT : T.WellFormed K) (backend : Backend) :
    (T.recorder backend).engine.widthLog < K ∧
      2 ^ ((T.recorder backend).engine.widthLog + 1) ≤ blockLimit := by
  cases backend with
  | portable => exact ⟨hT.degree_pos, show 2 ^ (0 + 1) ≤ blockLimit by decide⟩
  | eightLane =>
      unfold recorder
      split_ifs with hmin
      · exact ⟨four_le_of_minDegree hT.toComplete hmin, show 2 ^ (3 + 1) ≤ blockLimit by decide⟩
      · exact ⟨hT.degree_pos, show 2 ^ (0 + 1) ≤ blockLimit by decide⟩

/-- A forward run that gets through has a record, and all of it is sound. -/
theorem WellFormed.forward_traverses (hT : T.WellFormed K) (backend : Backend) {full : Bool}
    (ha : a.size = 2 ^ K) (h : T.forwardWords backend full a = some y) :
    ∃ log, (T.forwardRecorded backend full a).run = some (y, log) ∧
      Traverses (Visit.ForwardSound T (2 ^ (T.engine backend).widthLog)) forwardStage blockLimit
        .whole K log := by
  rw [← erase_forwardRecorded, Recorded.erase_eq_some_iff] at h
  obtain ⟨log, hlog⟩ := h
  refine ⟨log, hlog, ?_⟩
  obtain ⟨hfills, hlimit⟩ := widthLog_recorder hT backend
  rw [forwardRecorded, hT.degree_eq, Nat.log2_two_pow] at hlog
  rw [← engine_recorder]
  exact (forwardBlock_traverses (recorder_steady hT.toComplete backend) hT.degree_eq hlimit
    (Block.whole_within K) hfills ha hlog).2

/-- An inverse run that gets through has a record, and all of it is sound. -/
theorem WellFormed.inverse_traverses (hT : T.WellFormed K) (backend : Backend) {full : Bool}
    (ha : a.size = 2 ^ K) (h : T.inverseWords backend full a = some y) :
    ∃ log, (T.inverseRecorded backend full a).run = some (y, log) ∧
      Traverses (Visit.InverseSound T (2 ^ (T.engine backend).widthLog)) (inverseStage T.degree)
        blockLimit .whole K log := by
  rw [← erase_inverseRecorded, Recorded.erase_eq_some_iff] at h
  obtain ⟨log, hlog⟩ := h
  refine ⟨log, hlog, ?_⟩
  obtain ⟨hfills, hlimit⟩ := widthLog_recorder hT backend
  rw [inverseRecorded, hT.degree_eq, Nat.log2_two_pow] at hlog
  rw [← engine_recorder]
  exact (inverseBlock_traverses (recorder_steady hT.toComplete backend) hT.degree_eq hlimit
    (Block.whole_within K) hfills ha hlog).2

/-- Every layer of a forward run takes the entries of the table that are its own. -/
theorem tiledAt_forward {sound : Visit → Prop} {limit j : ℕ} {log : List Visit}
    (h : Traverses sound forwardStage limit .whole K log) (hj : j < K) :
    TiledAt log j (2 ^ j) (2 * 2 ^ j) := by
  have htiled := h.tiledAt hj Block.halving_forwardStart fun _ _ _ => rfl
  have hstart : Block.whole.forwardStart (2 ^ j) = 2 ^ j := by
    rw [Block.forwardStart_eq, Block.whole, pow_zero, Nat.add_zero, Nat.one_mul]
  rwa [hstart, ← Nat.two_mul] at htiled

/-- So does every layer of an inverse run but the last. -/
theorem tiledAt_inverse {sound : Visit → Prop} {limit j : ℕ} {log : List Visit}
    (hdegree : T.degree = 2 ^ K)
    (h : Traverses sound (inverseStage T.degree) limit .whole K log) (hj : j < K) (hpos : 1 ≤ j) :
    TiledAt log j (T.degree - 2 * 2 ^ j + 1) (T.degree - 2 ^ j + 1) := by
  have htiled := h.tiledAt hj (Block.halving_inverseStart T.degree) fun B l hl => by
    rw [inverseStage, if_neg (by omega)]
  have hle : 2 * 2 ^ j ≤ T.degree := by
    rw [hdegree, ← pow_succ']
    exact Nat.pow_le_pow_right Nat.two_pos hj
  have hstart : Block.whole.inverseStart T.degree (2 ^ j) = T.degree - 2 * 2 ^ j + 1 := by
    rw [Block.inverseStart, Block.whole, pow_zero, Nat.mul_one, Nat.zero_mul, Nat.add_zero]
  have hstop : T.degree - 2 * 2 ^ j + 1 + 2 ^ j = T.degree - 2 ^ j + 1 := by omega
  rwa [hstart, hstop] at htiled

/-- Of the last layer of the inverse transform nothing is taken: it is the last visit, and of the
whole. -/
theorem stagesAt_one_inverse {sound : Visit → Prop} {n limit : ℕ} {log : List Visit}
    (h : Traverses sound (inverseStage n) limit .whole K log) (hK : 0 < K) :
    stagesAt 1 log = [.final .whole] := by
  have hlayer := h.layer 0 hK
  rwa [Nat.le_zero.1 (descents_le limit K 0), Block.parts_zero] at hlayer

/-- Whatever the transform, the machine and the factors: on an operand that its requirements let
pass, a transform comes through, and all that its record shows goes well. Every block is one of
those of its depth, every slice lies in its table, no subtraction in the place of a slice goes
below 0, the layers get what they check, and the result keeps the bound that was asked for. The
slices of each layer stand side by side in the order of the blocks and make up its part of the
table. The last inverse layer takes no slice, and the entry that would be its own is only a factor
of `scaleRoot`. -/
theorem visits_tile (hT : T.Built isPrime) (backend : Backend) (input output : Word)
    (a : Array Word) :
    T.degree = 2 ^ T.degree.log2 ∧
    (verify (T.forwardRequirements input output a) = .ok () →
      ∃ y log, (T.forwardRecorded backend (output == 1) a).run = some (y, log) ∧
        T.forwardWords backend (output == 1) a = some y ∧
        Below (output.toNat * T.modulus.toNat) y ∧ T.ForwardGives backend input output a y ∧
        (∀ v ∈ log, v.ForwardSound T (2 ^ (T.engine backend).widthLog)) ∧
        ∀ j < T.degree.log2, TiledAt log j (2 ^ j) (2 * 2 ^ j)) ∧
    (verify (T.inverseRequirements input output a) = .ok () →
      ∃ y log, (T.inverseRecorded backend (output == 1) a).run = some (y, log) ∧
        T.inverseWords backend (output == 1) a = some y ∧
        Below (output.toNat * T.modulus.toNat) y ∧ T.InverseGives backend input output a y ∧
        (∀ v ∈ log, v.InverseSound T (2 ^ (T.engine backend).widthLog)) ∧
        (∀ j < T.degree.log2, 1 ≤ j →
          TiledAt log j (T.degree - 2 * 2 ^ j + 1) (T.degree - 2 ^ j + 1)) ∧
        stagesAt 1 log = [.final .whole] ∧
        residue T.modulus T.scaleRoot.value = residue T.modulus T.scale.value *
          residue T.modulus (T.inverseRoots.getD (T.degree - 1) default).value) := by
  obtain ⟨K, -, hK⟩ := hT.wellFormed
  have hlog2 : T.degree.log2 = K := by rw [hK.degree_eq, Nat.log2_two_pow]
  rw [hlog2]
  refine ⟨hK.degree_eq, ?_, ?_⟩
  · intro hpass
    obtain ⟨y, hwords, -, hbelow, hgives⟩ := hK.forward_accepted backend hpass
    have hsize := (forwardRequirements_hold_iff.1 (verify_eq_ok_iff.1 hpass)).1
    obtain ⟨log, hrun, hlog⟩ := hK.forward_traverses backend (hsize.trans hK.degree_eq) hwords
    exact ⟨y, log, hrun, hwords, hbelow, hgives, hlog.sound, fun j hj => tiledAt_forward hlog hj⟩
  · intro hpass
    obtain ⟨y, hwords, -, hbelow, hgives⟩ := hK.inverse_accepted backend hpass
    have hsize := (inverseRequirements_hold_iff.1 (verify_eq_ok_iff.1 hpass)).1
    obtain ⟨log, hrun, hlog⟩ := hK.inverse_traverses backend (hsize.trans hK.degree_eq) hwords
    refine ⟨y, log, hrun, hwords, hbelow, hgives, hlog.sound,
      fun j => tiledAt_inverse hK.degree_eq hlog, stagesAt_one_inverse hlog hK.degree_pos, ?_⟩
    rw [hK.degree_eq]
    exact hK.residue_scaleRoot

/-- The greatest operands there are, in blocks, on registers of eight words and on words: the
last of eleven forward layers takes the upper half of its table. -/
theorem visits_tile_deep :
    let a : Array Word := .replicate 2048 49155
    let b : Array Word := .replicate 2048 24577
    deep.Built Prime.exactTest ∧ verify (deep.forwardRequirements 4 1 a) = .ok () ∧
      verify (deep.inverseRequirements 2 2 b) = .ok () ∧
      (∃ y log, (deep.forwardRecorded .eightLane true a).run = some (y, log) ∧
        TiledAt log 10 1024 2048) ∧
      ∃ z log, (deep.inverseRecorded .portable false b).run = some (z, log) ∧
        stagesAt 1 log = [.final .whole] := by
  intro a b
  have hforward : verify (deep.forwardRequirements 4 1 a) = .ok () :=
    verify_eq_ok_iff.2 (forwardRequirements_hold (by decide) (by decide) Array.size_replicate
      (toNat_lt_of_mem_replicate (by decide)))
  have hinverse : verify (deep.inverseRequirements 2 2 b) = .ok () :=
    verify_eq_ok_iff.2 (inverseRequirements_hold (by decide) (by decide) Array.size_replicate
      (toNat_lt_of_mem_replicate (by decide)))
  have hlayers : deep.degree.log2 = 11 := by decide
  obtain ⟨y, log, hrun, -, -, -, -, htiled⟩ :=
    (visits_tile deep_built .eightLane 4 1 a).2.1 hforward
  obtain ⟨z, log', hrun', -, -, -, -, -, hlast, -⟩ :=
    (visits_tile deep_built .portable 2 2 b).2.2 hinverse
  exact ⟨deep_built, hforward, hinverse, ⟨y, log, hrun, htiled 10 (by omega)⟩, z, log', hrun',
    hlast⟩

/-- The only layer of the smallest transform takes entry 1. -/
example : (smallest.forwardRecorded .eightLane true #[19, 7]).run.map Prod.snd =
    some [⟨.whole, 2, .enter⟩, ⟨.whole, 2, .wide 1 1 1⟩] :=
  rfl

end Transform

end Negacyclic
