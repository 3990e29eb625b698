import Mathlib.Tactic.Ring
import Mathlib.Tactic.SplitIfs
import Negacyclic.Transform.Engine

/-!
# Blocks and their place in the tables

A block of `2^k` words of a transform of `2^K` words is `K - k` levels deep (`Block.Within`). Its
layer with `m` groups reads `m` consecutive entries of each table: in the forward table those
from `(2^depth + index) * m` on. The entries of a half are a half of the entries that the block
reads for twice as many groups, the lower half first.
-/

namespace Negacyclic

namespace Block

variable {B : Block} {k K : ℕ}

/-- A block of `2^k` words of a transform of `2^K` words. -/
structure Within (B : Block) (k K : ℕ) : Prop where
  depth_add : B.depth + k = K
  index_lt : B.index < 2 ^ B.depth

/-- The whole transform is a block of itself. -/
theorem whole_within (K : ℕ) : whole.Within K K :=
  ⟨Nat.zero_add K, Nat.one_pos⟩

/-- A block has no more levels than the transform. -/
theorem Within.le (h : B.Within k K) : k ≤ K := by
  rw [← h.depth_add]
  exact Nat.le_add_left k B.depth

/-- The blocks of one depth have all the words. -/
theorem Within.words_mul (h : B.Within k K) : 2 ^ k * 2 ^ B.depth = 2 ^ K := by
  rw [← pow_add, Nat.add_comm, h.depth_add]

/-- At depth zero there is one block. -/
theorem Within.eq_whole (h : B.Within k K) (hdepth : B.depth = 0) : B = whole := by
  have hindex := h.index_lt
  rw [hdepth, pow_zero, Nat.lt_one_iff] at hindex
  cases B
  simp_all [whole]

/-- A block that has halves is not at the greatest depth. -/
theorem Within.depth_lt (h : B.Within (k + 1) K) : B.depth < K := by
  have := h.depth_add
  omega

/-- The lower half lies deeper than the whole. -/
theorem depth_lower_ne (B : Block) : B.lower.depth ≠ 0 :=
  Nat.succ_ne_zero _

/-- The upper half lies deeper than the whole. -/
theorem depth_upper_ne (B : Block) : B.upper.depth ≠ 0 :=
  Nat.succ_ne_zero _

/-- The lower half of a block is a block with one level less. -/
theorem Within.lower (h : B.Within (k + 1) K) : B.lower.Within k K := by
  have hdepth := h.depth_add
  have hindex := h.index_lt
  constructor
  · change B.depth + 1 + k = K
    omega
  · change 2 * B.index < 2 ^ (B.depth + 1)
    rw [pow_succ]
    omega

/-- The upper half of a block is a block with one level less. -/
theorem Within.upper (h : B.Within (k + 1) K) : B.upper.Within k K := by
  have hdepth := h.depth_add
  have hindex := h.index_lt
  constructor
  · change B.depth + 1 + k = K
    omega
  · change 2 * B.index + 1 < 2 ^ (B.depth + 1)
    rw [pow_succ]
    omega

/-- The positions of the lower half come first. -/
theorem index_lower (B : Block) (m j : ℕ) : B.lower.index * m + j = B.index * (m + m) + j := by
  unfold lower
  ring

/-- The positions of the upper half follow. -/
theorem index_upper (B : Block) (m j : ℕ) :
    B.upper.index * m + j = B.index * (m + m) + (m + j) := by
  unfold upper
  ring

/-! ### The forward table -/

/-- The entry where the roots of a layer start, as one product: there are as many before it as
groups in the layers above and in the blocks to the left. -/
theorem forwardStart_eq (B : Block) (m : ℕ) :
    B.forwardStart m = (2 ^ B.depth + B.index) * m := by
  unfold forwardStart
  ring

/-- The roots of the lower half come first. -/
theorem forwardStart_lower (B : Block) (m : ℕ) :
    B.lower.forwardStart m = B.forwardStart (2 * m) := by
  simp only [forwardStart, lower, pow_succ]
  ring

/-- The roots of the upper half follow. -/
theorem forwardStart_upper (B : Block) (m : ℕ) :
    B.upper.forwardStart m = B.forwardStart (2 * m) + m := by
  simp only [forwardStart, upper, pow_succ]
  ring

/-- A layer with `m` groups reads entries of the forward table between those of `m * 2^depth`
groups. -/
theorem Within.forwardStart_le (h : B.Within k K) (m : ℕ) :
    m * 2 ^ B.depth ≤ B.forwardStart m ∧ B.forwardStart m + m ≤ 2 * (m * 2 ^ B.depth) := by
  have hindex : (B.index + 1) * m ≤ 2 ^ B.depth * m := Nat.mul_le_mul_right m h.index_lt
  rw [Nat.add_mul, Nat.mul_comm (2 ^ B.depth)] at hindex
  unfold forwardStart
  omega

/-! ### The inverse table -/

/-- The roots of the lower half come first. -/
theorem inverseStart?_lower (B : Block) (n m : ℕ) :
    B.lower.inverseStart? n m = B.inverseStart? n (2 * m) := by
  have hgroups : m * 2 ^ (B.depth + 1) = 2 * m * 2 ^ B.depth := by
    rw [pow_succ]
    ring
  have hindex : 2 * B.index * m = B.index * (2 * m) := by ring
  simp only [inverseStart?, lower, hgroups, hindex]

/-- The roots of the upper half follow. -/
theorem inverseStart?_upper (B : Block) (n m : ℕ) :
    B.upper.inverseStart? n m = (B.inverseStart? n (2 * m)).map (· + m) := by
  have hgroups : m * 2 ^ (B.depth + 1) = 2 * m * 2 ^ B.depth := by
    rw [pow_succ]
    ring
  have hindex : (2 * B.index + 1) * m = B.index * (2 * m) + m := by ring
  simp only [inverseStart?, upper, hgroups, hindex, ← Nat.add_assoc]
  split_ifs <;> rfl

/-- The groups that a layer of a block has are not more than the words of the transform allow. -/
theorem Within.groups_le (h : B.Within k K) {m : ℕ} (hm : 2 * m ≤ 2 ^ k) :
    2 * (m * 2 ^ B.depth) ≤ 2 ^ K := by
  have := Nat.mul_le_mul_left (2 ^ B.depth) hm
  rw [← pow_add, h.depth_add] at this
  calc 2 * (m * 2 ^ B.depth) = 2 ^ B.depth * (2 * m) := by ring
    _ ≤ 2 ^ K := this

/-- A layer with `m` groups of a block that has as many reads entries of the inverse table
between those of `m * 2^depth` groups. -/
theorem Within.inverseStart?_eq (h : B.Within k K) {m : ℕ} (hm : 2 * m ≤ 2 ^ k) :
    ∃ start, B.inverseStart? (2 ^ K) m = some start ∧
      start = 2 ^ K - 2 * (m * 2 ^ B.depth) + 1 + B.index * m ∧
      2 * (m * 2 ^ B.depth) ≤ 2 ^ K ∧ start + m ≤ 2 ^ K - m * 2 ^ B.depth + 1 := by
  have hgroups := h.groups_le hm
  have hindex : (B.index + 1) * m ≤ 2 ^ B.depth * m := Nat.mul_le_mul_right m h.index_lt
  rw [Nat.add_mul, Nat.mul_comm (2 ^ B.depth)] at hindex
  refine ⟨_, if_pos hgroups, rfl, hgroups, ?_⟩
  omega

/-- Only the layer with one group in the whole transform has a root that is the last entry of the
inverse table. -/
theorem Within.inverseStart?_add_lt (h : B.Within k K) {m first : ℕ}
    (hfirst : B.inverseStart? (2 ^ K) m = some first) (hm : 1 < m * 2 ^ B.depth) :
    first + m < 2 ^ K := by
  obtain ⟨hgroups, hfirst⟩ := Option.ite_none_right_eq_some.1 hfirst
  have hindex : (B.index + 1) * m ≤ 2 ^ B.depth * m := Nat.mul_le_mul_right m h.index_lt
  rw [Nat.add_mul, Nat.mul_comm (2 ^ B.depth)] at hindex
  cases hfirst
  omega

end Block

namespace Transform

/-- The tables of a transform of `2^K` words are complete. -/
structure Complete (T : Transform) (K : ℕ) : Prop where
  degree_eq : T.degree = 2 ^ K
  size_roots : T.roots.size = 2 ^ K
  size_inverseRoots : T.inverseRoots.size = 2 ^ K
  replicated_eq : T.replicated = Replicated.ofTables T.degree T.roots T.inverseRoots

end Transform

end Negacyclic
