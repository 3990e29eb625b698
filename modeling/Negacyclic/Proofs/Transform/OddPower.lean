import Mathlib.Algebra.BigOperators.Ring.Finset
import Negacyclic.Proofs.Transform.Block
import Negacyclic.Proofs.Word.Bits

/-!
# Odd powers of a root of -1

A transform of `2^K` words evaluates a polynomial at the odd powers of `psi`, where
`psi^(2^K) = -1`; position `j` gets the one whose number is `j` reversed (`oddPower`).

The points of a block of `2^(k + 1)` words have only two `2^k`-th powers. The root that the first
layer of the block multiplies by is the one on the lower half, and minus that root the one on the
upper half (`oddPower_pow_lower`, `oddPower_pow_upper`). So a polynomial with `2^(k + 1)`
coefficients is on each half one with `2^k` coefficients (`sum_mul_pow_halves`). All of this holds
in any commutative ring, and of the inverse of `psi` as of `psi`.
-/

namespace Negacyclic

variable {R : Type} [CommRing R] {psi : R} {k K : ℕ} {B : Block}

/-- The point that belongs to position `j` of a transform of `2^K` words. -/
def oddPower (psi : R) (K j : ℕ) : R :=
  psi ^ (2 * bitReverse K j + 1)

/-- The root of the layer with one group in a block. -/
def Block.root (psi : R) (K : ℕ) (B : Block) : R :=
  psi ^ bitReverse K (2 ^ B.depth + B.index)

/-! ### The half powers of the points of a block -/

/-- The half power of a point, by the parity of its position read backwards. -/
theorem oddPower_pow (hpsi : psi ^ 2 ^ K = -1) (hB : B.Within (k + 1) K) {j : ℕ}
    (hj : j < 2 ^ (k + 1)) :
    oddPower psi K (B.index * 2 ^ (k + 1) + j) ^ 2 ^ k =
      B.root psi K * (-1) ^ bitReverse (k + 1) j := by
  have hdepth := hB.depth_lt
  have hrest : K - 1 - B.depth = k := by
    have := hB.depth_add
    omega
  have hrev : bitReverse K (B.index * 2 ^ (k + 1) + j) =
      bitReverse B.depth B.index + 2 ^ B.depth * bitReverse (k + 1) j := by
    rw [← hB.depth_add, bitReverse_mul_add _ _ _ _ hj]
  have hexp : (2 * bitReverse K (B.index * 2 ^ (k + 1) + j) + 1) * 2 ^ k =
      2 ^ k * (1 + 2 * bitReverse B.depth B.index) + 2 ^ K * bitReverse (k + 1) j := by
    rw [hrev, ← hB.depth_add, pow_add, pow_succ]
    ring
  unfold oddPower
  rw [← pow_mul, hexp, pow_add, pow_mul psi (2 ^ K), hpsi, Block.root,
    bitReverse_two_pow_add hdepth hB.index_lt, hrest]

/-- On the lower half of a block the half powers of the points are its root. -/
theorem oddPower_pow_lower (hpsi : psi ^ 2 ^ K = -1) (hB : B.Within (k + 1) K) {j : ℕ}
    (hj : j < 2 ^ k) :
    oddPower psi K (B.lower.index * 2 ^ k + j) ^ 2 ^ k = B.root psi K := by
  have hindex : B.lower.index * 2 ^ k + j = B.index * 2 ^ (k + 1) + j := by
    rw [B.index_lower, Nat.two_pow_succ]
  have hlt : j < 2 ^ (k + 1) := hj.trans (Nat.pow_lt_pow_right (by omega) (by omega))
  rw [hindex, oddPower_pow hpsi hB hlt, bitReverse_of_lt hj, pow_mul, neg_one_sq, one_pow, mul_one]

/-- On the upper half they are minus its root. -/
theorem oddPower_pow_upper (hpsi : psi ^ 2 ^ K = -1) (hB : B.Within (k + 1) K) {j : ℕ}
    (hj : j < 2 ^ k) :
    oddPower psi K (B.upper.index * 2 ^ k + j) ^ 2 ^ k = -B.root psi K := by
  have hindex : B.upper.index * 2 ^ k + j = B.index * 2 ^ (k + 1) + (2 ^ k + j) := by
    rw [B.index_upper, Nat.two_pow_succ]
  have hlt : 2 ^ k + j < 2 ^ (k + 1) := by
    rw [pow_succ]
    omega
  rw [hindex, oddPower_pow hpsi hB hlt, bitReverse_two_pow_add_of_lt hj, pow_succ, pow_mul,
    neg_one_sq, one_pow, one_mul, mul_neg_one]

/-- The whole power of every point is `-1`. -/
theorem oddPower_pow_whole (hpsi : psi ^ 2 ^ K = -1) (j : ℕ) : oddPower psi K j ^ 2 ^ K = -1 := by
  unfold oddPower
  rw [← pow_mul, Nat.mul_comm, pow_mul, hpsi, pow_succ, pow_mul, neg_one_sq, one_pow,
    one_mul]

/-! ### Halves of a sum -/

/-- A polynomial with `m + m` coefficients at a point with a known `m`-th power. -/
theorem sum_mul_pow_halves (f : ℕ → R) {x r : R} {m : ℕ} (hx : x ^ m = r) :
    ∑ i ∈ Finset.range (m + m), f i * x ^ i =
      ∑ i ∈ Finset.range m, (f i + r * f (m + i)) * x ^ i := by
  rw [Finset.sum_range_add, ← Finset.sum_add_distrib]
  apply Finset.sum_congr rfl
  intro i _
  rw [pow_add, hx]
  ring

end Negacyclic
