import Mathlib.Data.List.Nodup
import Negacyclic.Proofs.Transform.Block
import Negacyclic.Proofs.Transform.Record

/-!
# The layers in a record

Layer `l` of a block of `2^k` words is run by its parts of some depth, all of one depth: by the
block itself if it runs layer by layer or `l` is 0, else by the parts of its halves that run layer
`l - 1` of these. So the record of a block shows for every layer the `2^e` parts of one relative
depth `e` in their order (`Traverses`).

Parts that stand side by side take neighbouring entries of a table, because the entries of a half
are a half of the entries that the block takes for twice as many groups. From this alone the slices
of a layer tile the entries of the layer (`tiles_parts`).
-/

namespace Negacyclic

/-! ### Parts of a block -/

namespace Block

variable {B : Block}

/-- Part `i` of the `2^e` equal parts of a block. -/
def part (B : Block) (e i : ℕ) : Block :=
  ⟨B.depth + e, B.index * 2 ^ e + i⟩

/-- The `2^e` equal parts of a block in their order. -/
def parts (B : Block) (e : ℕ) : List Block :=
  (List.range (2 ^ e)).map (B.part e)

/-- A block is its own only part. -/
theorem parts_zero (B : Block) : B.parts 0 = [B] := by
  simp [parts, part]

/-- The parts of the lower half come first. -/
theorem parts_succ (B : Block) (e : ℕ) : B.parts (e + 1) = B.lower.parts e ++ B.upper.parts e := by
  have hlower (i : ℕ) : B.part (e + 1) i = B.lower.part e i := by
    simp only [part, lower, mk.injEq, pow_succ]
    constructor <;> ring
  have hupper (i : ℕ) : B.part (e + 1) (2 ^ e + i) = B.upper.part e i := by
    simp only [part, upper, mk.injEq, pow_succ]
    constructor <;> ring
  unfold parts
  rw [Nat.two_pow_succ, List.range_add, List.map_append, List.map_map]
  congr 1
  · exact List.map_congr_left fun i _ => hlower i
  · exact List.map_congr_left fun i _ => hupper i

/-- The parts of the whole are the blocks of one depth. -/
theorem parts_whole (e : ℕ) : whole.parts e = (List.range (2 ^ e)).map (Block.mk e) := by
  simp [parts, part, whole]

/-- The entry of the inverse table where the roots of a layer with `m` groups in this block start,
whether or not there is room for them. -/
def inverseStart (n : ℕ) (B : Block) (m : ℕ) : ℕ :=
  n - 2 * (m * 2 ^ B.depth) + 1 + B.index * m

/-- The place in the inverse table is there exactly if it is not below zero. -/
theorem inverseStart?_eq_some_iff {n m first : ℕ} :
    B.inverseStart? n m = some first ↔
      2 * (m * 2 ^ B.depth) ≤ n ∧ first = inverseStart n B m := by
  unfold inverseStart? inverseStart
  split_ifs with h
  · simp [h, eq_comm]
  · simp [h]

/-- The roots of a half are a half of those of the block for twice as many groups. -/
structure Halving (start : Block → ℕ → ℕ) : Prop where
  lower (B : Block) (m : ℕ) : start B.lower m = start B (2 * m)
  upper (B : Block) (m : ℕ) : start B.upper m = start B (2 * m) + m

/-- In the forward table the roots of a half are a half of those of the block. -/
theorem halving_forwardStart : Halving forwardStart :=
  ⟨forwardStart_lower, forwardStart_upper⟩

/-- In the inverse table the roots of a half are a half of those of the block. -/
theorem halving_inverseStart (n : ℕ) : Halving (inverseStart n) := by
  have hgroups (B : Block) (m : ℕ) : m * 2 ^ (B.depth + 1) = 2 * m * 2 ^ B.depth := by
    rw [pow_succ]
    ring
  constructor
  · intro B m
    simp only [inverseStart, Block.lower, hgroups]
    ring
  · intro B m
    simp only [inverseStart, Block.upper, hgroups]
    ring

end Block

/-! ### Stages -/

/-- A layer of one block. -/
inductive Stage where
  /-- It takes `groups` entries of a table from `first` on. -/
  | taken (B : Block) (groups first : ℕ)
  /-- The last inverse layer, which takes none. -/
  | final (B : Block)
  deriving DecidableEq, Repr

namespace Stage

def block : Stage → Block
  | taken B _ _ => B
  | final B => B

/-- The number of groups that the layer has in the whole transform. -/
def total : Stage → ℕ
  | taken B m _ => m * 2 ^ B.depth
  | final B => 2 ^ B.depth

end Stage

/-- The layer that is run at a visit. -/
def Visit.stage? (v : Visit) : Option Stage :=
  match v.act with
  | .enter => none
  | .wide _ m first => some (.taken v.block m first)
  | .narrow m first _ => some (.taken v.block m first)
  | .final => some (.final v.block)

/-- What is done of the layer with `M` groups in the whole transform, in the order of the record. -/
def stagesAt (M : ℕ) (log : List Visit) : List Stage :=
  (log.filterMap Visit.stage?).filter fun s => s.total = M

/-- What is done of a layer is done in the order of the record. -/
theorem stagesAt_append (M : ℕ) (log log' : List Visit) :
    stagesAt M (log ++ log') = stagesAt M log ++ stagesAt M log' := by
  simp [stagesAt]

/-! ### Slices side by side -/

/-- The slices stand side by side and make up the entries from `lo` to `hi`. -/
def Tiles : List Stage → (lo hi : ℕ) → Prop
  | [], lo, hi => lo = hi
  | .taken _ m first :: rest, lo, hi => first = lo ∧ Tiles rest (lo + m) hi
  | .final _ :: _, _, _ => False

/-- Slices put behind each other make up what they make up together. -/
theorem Tiles.append {xs ys : List Stage} {lo mid hi : ℕ} (hx : Tiles xs lo mid)
    (hy : Tiles ys mid hi) : Tiles (xs ++ ys) lo hi := by
  induction xs generalizing lo with
  | nil => exact hx ▸ hy
  | cons s xs ih =>
      cases s with
      | taken B m first => exact ⟨hx.1, ih hx.2⟩
      | final B => exact hx.elim

/-- The slices of the parts of a block make up the slice of the block. -/
theorem tiles_parts {start : Block → ℕ → ℕ} (h : Block.Halving start) (B : Block) (e m : ℕ) :
    Tiles ((B.parts e).map fun C => .taken C m (start C m)) (start B (2 ^ e * m))
      (start B (2 ^ e * m) + 2 ^ e * m) := by
  induction e generalizing B with
  | zero =>
      rw [Block.parts_zero, pow_zero, Nat.one_mul]
      exact ⟨rfl, rfl⟩
  | succ e ih =>
      have hlow := ih B.lower
      have hhigh := ih B.upper
      rw [h.lower] at hlow
      rw [h.upper] at hhigh
      rw [Block.parts_succ, List.map_append, pow_succ', Nat.mul_assoc, Nat.two_mul,
        ← Nat.add_assoc, ← Nat.two_mul]
      exact hlow.append hhigh

/-! ### Traversals -/

/-- How deep below a block of `2^k` words its layer `l` is run: each halving of a block above
`limit` leaves one layer behind. -/
def descents (limit : ℕ) : (k l : ℕ) → ℕ
  | 0, _ => 0
  | _ + 1, 0 => 0
  | k + 1, l + 1 => if 2 ^ (k + 1) ≤ limit then 0 else descents limit k l + 1

/-- A layer is not handed down further than it lies. -/
theorem descents_le (limit k l : ℕ) : descents limit k l ≤ l := by
  induction k generalizing l with
  | zero => exact Nat.zero_le l
  | succ k ih =>
      cases l with
      | zero => exact le_rfl
      | succ l =>
          have := ih l
          unfold descents
          split_ifs <;> omega

/-- A block that is run layer by layer hands nothing down. -/
theorem descents_of_le {limit k : ℕ} (h : 2 ^ k ≤ limit ∨ k = 0) (l : ℕ) :
    descents limit k l = 0 := by
  cases k with
  | zero => rfl
  | succ k =>
      cases l with
      | zero => rfl
      | succ l => exact if_pos (h.resolve_right k.succ_ne_zero)

section traversal

variable {sound : Visit → Prop} {stage : Block → ℕ → Stage} {limit k : ℕ} {B : Block}
  {js : List ℕ} {log : List Visit}

/-- All visits are sound, and they run the layers `js` of the block, in this order. -/
structure Layers (sound : Visit → Prop) (stage : Block → ℕ → Stage) (B : Block) (js : List ℕ)
    (log : List Visit) : Prop where
  sound : ∀ v ∈ log, sound v
  stages : log.filterMap Visit.stage? = js.map (stage B)

/-- Nothing done is no layer. -/
theorem Layers.nil : Layers sound stage B [] [] :=
  ⟨by simp, rfl⟩

/-- Layers done one after the other are the layers of both. -/
theorem Layers.append {js' : List ℕ} {log' : List Visit} (h : Layers sound stage B js log)
    (h' : Layers sound stage B js' log') : Layers sound stage B (js ++ js') (log ++ log') where
  sound := List.forall_mem_append.2 ⟨h.sound, h'.sound⟩
  stages := by rw [List.filterMap_append, List.map_append, h.stages, h'.stages]

/-- All visits are sound, and every layer of the block is run by its parts of one depth. -/
structure Traverses (sound : Visit → Prop) (stage : Block → ℕ → Stage) (limit : ℕ) (B : Block)
    (k : ℕ) (log : List Visit) : Prop where
  sound : ∀ v ∈ log, sound v
  layer : ∀ l < k, stagesAt (2 ^ (B.depth + l)) log =
    (B.parts (descents limit k l)).map fun C => stage C (l - descents limit k l)
  /-- Nothing is done of the layers above the block. -/
  within : ∀ s ∈ log.filterMap Visit.stage?, 2 ^ B.depth ≤ s.total

variable (htotal : ∀ (B : Block) (l : ℕ), (stage B l).total = 2 ^ (B.depth + l))

include htotal

/-- A layer that is run by the block itself is run once. -/
theorem Layers.stagesAt_eq (h : Layers sound stage B js log) (hjs : js.Nodup) (l : ℕ) :
    stagesAt (2 ^ (B.depth + l)) log = if l ∈ js then [stage B l] else [] := by
  have hlayer (j : ℕ) : (stage B j).total = 2 ^ (B.depth + l) ↔ j = l := by
    rw [htotal, Nat.pow_right_inj Nat.one_lt_two]
    omega
  unfold stagesAt
  rw [h.stages, List.filter_map]
  simp only [Function.comp_def, hlayer, List.filter_eq, List.map_replicate]
  split_ifs with hl
  · rw [List.count_eq_one_of_mem hjs hl, List.replicate_one]
  · rw [List.count_eq_zero.2 hl, List.replicate_zero]

/-- A block that runs all its layers by itself. -/
theorem Layers.traverses (h : Layers sound stage B js log) (hjs : js.Nodup)
    (hall : ∀ j, j ∈ js ↔ j < k) (hk : 2 ^ k ≤ limit ∨ k = 0) :
    Traverses sound stage limit B k log where
  sound := h.sound
  layer := by
    intro l hl
    rw [h.stagesAt_eq htotal hjs, if_pos ((hall l).2 hl), descents_of_le hk, Block.parts_zero]
    rfl
  within := by
    intro s hs
    rw [h.stages] at hs
    obtain ⟨j, -, rfl⟩ := List.mem_map.1 hs
    rw [htotal]
    exact Nat.pow_le_pow_right Nat.two_pos (Nat.le_add_right _ _)

omit htotal in
/-- Nothing is done of the layers above a block. -/
theorem Traverses.stagesAt_eq_nil (h : Traverses sound stage limit B k log) {M : ℕ}
    (hM : M < 2 ^ B.depth) : stagesAt M log = [] := by
  refine List.filter_eq_nil_iff.2 fun s hs => ?_
  have := h.within s hs
  simp only [decide_eq_true_eq]
  omega

/-- A block that runs its layer 0 by itself, before or after its halves. -/
theorem Layers.halves {before low high after : List Visit}
    (hown : Layers sound stage B [0] (before ++ after)) (hk : ¬2 ^ (k + 1) ≤ limit)
    (hlow : Traverses sound stage limit B.lower k low)
    (hhigh : Traverses sound stage limit B.upper k high) :
    Traverses sound stage limit B (k + 1) (before ++ (low ++ high) ++ after) where
  sound := by
    obtain ⟨hbefore, hafter⟩ := List.forall_mem_append.1 hown.sound
    exact List.forall_mem_append.2 ⟨List.forall_mem_append.2
      ⟨hbefore, List.forall_mem_append.2 ⟨hlow.sound, hhigh.sound⟩⟩, hafter⟩
  layer := by
    intro l hl
    have hself := hown.stagesAt_eq htotal (List.nodup_singleton 0) l
    rw [stagesAt_append] at hself
    simp only [stagesAt_append]
    -- layer 0 is not one of the halves, and layer `l + 1` is layer `l` of each
    cases l with
    | zero =>
        have hdepth : 2 ^ (B.depth + 0) < 2 ^ B.lower.depth :=
          Nat.pow_lt_pow_right Nat.one_lt_two (Nat.lt_succ_self _)
        rw [hlow.stagesAt_eq_nil hdepth, hhigh.stagesAt_eq_nil hdepth,
          List.append_nil, List.append_nil, hself, if_pos (List.mem_singleton_self 0)]
        change _ = (B.parts 0).map fun C => stage C 0
        rw [Block.parts_zero, List.map_singleton]
    | succ l =>
        have hlower := hlow.layer l (Nat.lt_of_succ_lt_succ hl)
        have hupper := hhigh.layer l (Nat.lt_of_succ_lt_succ hl)
        rw [if_neg (by simp), List.append_eq_nil_iff] at hself
        have hdeeper : B.depth + (l + 1) = B.depth + 1 + l := by omega
        have hdescents : descents limit (k + 1) (l + 1) = descents limit k l + 1 := if_neg hk
        rw [hself.1, hself.2, List.nil_append, List.append_nil, hdescents, Block.parts_succ,
          List.map_append, hdeeper, Nat.add_sub_add_right]
        exact congrArg₂ _ hlower hupper
  within := by
    have howns : ∀ s ∈ (before ++ after).filterMap Visit.stage?, 2 ^ B.depth ≤ s.total := by
      rw [hown.stages]
      simp [htotal]
    rw [List.filterMap_append] at howns
    obtain ⟨hbefore, hafter⟩ := List.forall_mem_append.1 howns
    have hdeeper : 2 ^ B.depth ≤ 2 ^ (B.depth + 1) :=
      Nat.pow_le_pow_right Nat.two_pos (Nat.le_succ _)
    have hlower := fun s hs => hdeeper.trans (hlow.within s hs)
    have hupper := fun s hs => hdeeper.trans (hhigh.within s hs)
    simp only [List.filterMap_append]
    exact List.forall_mem_append.2 ⟨List.forall_mem_append.2
      ⟨hbefore, List.forall_mem_append.2 ⟨hlower, hupper⟩⟩, hafter⟩

end traversal

end Negacyclic
