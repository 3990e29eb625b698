import Mathlib.Algebra.BigOperators.Group.Finset.Sigma
import Negacyclic.Proofs.Transform.OddPower

/-!
# Evaluation and interpolation undo each other

Let `psi^(2^K) = -1` and let `phi` be the inverse of `psi`. The sum of a power of the points of a
transform vanishes unless the exponent does (`sum_oddPower_pow_eq_zero`), so the powers of the
points and of the inverse points are orthogonal in both directions
(`sum_oddPower_mul_positions`, `sum_oddPower_mul_exponents`). Evaluation at the points followed by
the sums against the inverse points multiplies by `2^K`, and so does the other order.

The vanishing sum is a geometric one whose ratio is the square of a power of `psi`. It is halved
until the exponent is odd: then the ratio has a half power of -1, and the two halves of the sum
cancel. No division takes place, so the modulus need not be prime.
-/

namespace Negacyclic

variable {R : Type} [CommRing R] {psi phi : R} {K m : ℕ}

/-! ### Sums that vanish -/

/-- A geometric sum of `2^K` terms whose ratio is an even power of a root of -1. -/
theorem sum_pow_eq_zero (hpsi : psi ^ 2 ^ K = -1) (hpos : 0 < m) (hlt : m < 2 ^ K) :
    ∑ j ∈ Finset.range (2 ^ K), (psi ^ (2 * m)) ^ j = 0 := by
  induction K generalizing psi m with
  | zero => omega
  | succ K ih =>
      have hhalves : ∑ j ∈ Finset.range (2 ^ (K + 1)), (psi ^ (2 * m)) ^ j =
          (1 + (psi ^ (2 * m)) ^ 2 ^ K) * ∑ j ∈ Finset.range (2 ^ K), (psi ^ (2 * m)) ^ j := by
        rw [Nat.two_pow_succ, Finset.sum_range_add, add_mul, one_mul, Finset.mul_sum]
        congr 1
        exact Finset.sum_congr rfl fun j _ => pow_add _ _ _
      rcases Nat.even_or_odd' m with ⟨l, rfl | rfl⟩
      · have hsquare : (psi ^ 2) ^ 2 ^ K = -1 := by
          rw [← pow_mul, ← pow_succ', hpsi]
        have hzero := ih hsquare (show 0 < l by omega) (by rw [pow_succ] at hlt; omega)
        rw [hhalves, pow_mul psi 2, hzero, mul_zero]
      · have hratio : (psi ^ (2 * (2 * l + 1))) ^ 2 ^ K = -1 := by
          rw [← pow_mul, show 2 * (2 * l + 1) * 2 ^ K = 2 ^ (K + 1) * (2 * l + 1) by ring, pow_mul,
            hpsi, pow_succ, pow_mul, neg_one_sq, one_pow, one_mul]
        rw [hhalves, hratio, add_neg_cancel, zero_mul]

/-- The sum of a power of all points. -/
theorem sum_oddPower_pow_eq_zero (hpsi : psi ^ 2 ^ K = -1) (hpos : 0 < m) (hlt : m < 2 ^ K) :
    ∑ j ∈ Finset.range (2 ^ K), oddPower psi K j ^ m = 0 := by
  have hterm (j : ℕ) : oddPower psi K j ^ m = psi ^ m * (psi ^ (2 * m)) ^ bitReverse K j := by
    unfold oddPower
    rw [← pow_mul, ← pow_mul, ← pow_add]
    congr 1
    ring
  simp only [hterm]
  rw [sum_bitReverse K fun j => psi ^ m * (psi ^ (2 * m)) ^ j, ← Finset.mul_sum,
    sum_pow_eq_zero hpsi hpos hlt, mul_zero]

/-! ### The two orthogonality relations -/

section orthogonality

variable (hinv : phi * psi = 1) (hpsi : psi ^ 2 ^ K = -1) (hphi : phi ^ 2 ^ K = -1)

include hinv

/-- The odd powers of a root and of its inverse, slot by slot, are inverse to each other. -/
theorem oddPower_mul_inverse (j : ℕ) : oddPower psi K j * oddPower phi K j = 1 := by
  unfold oddPower
  rw [← mul_pow, mul_comm psi, hinv, one_pow]

/-- Powers of a point and its inverse, the former the higher one. -/
theorem oddPower_pow_mul_of_le (j : ℕ) {i l : ℕ} (h : i ≤ l) :
    oddPower psi K j ^ l * oddPower phi K j ^ i = oddPower psi K j ^ (l - i) := by
  obtain ⟨m, rfl⟩ := Nat.exists_eq_add_of_le h
  rw [Nat.add_sub_cancel_left, pow_add, mul_right_comm, ← mul_pow, oddPower_mul_inverse hinv,
    one_pow, one_mul]

include hpsi hphi

/-- Two powers of the points, over all positions. -/
theorem sum_oddPower_mul_positions {i l : ℕ} (hi : i < 2 ^ K) (hl : l < 2 ^ K) :
    ∑ j ∈ Finset.range (2 ^ K), oddPower psi K j ^ l * oddPower phi K j ^ i =
      if l = i then 2 ^ K else 0 := by
  rcases Nat.lt_trichotomy l i with h | rfl | h
  · have hinv' : psi * phi = 1 := by rw [mul_comm, hinv]
    rw [if_neg h.ne]
    calc ∑ j ∈ Finset.range (2 ^ K), oddPower psi K j ^ l * oddPower phi K j ^ i
        = ∑ j ∈ Finset.range (2 ^ K), oddPower phi K j ^ (i - l) :=
          Finset.sum_congr rfl fun j _ => by
            rw [mul_comm, oddPower_pow_mul_of_le hinv' j h.le]
      _ = 0 := sum_oddPower_pow_eq_zero hphi (by omega) (by omega)
  · rw [if_pos rfl]
    simp [oddPower_pow_mul_of_le hinv]
  · rw [if_neg h.ne']
    calc ∑ j ∈ Finset.range (2 ^ K), oddPower psi K j ^ l * oddPower phi K j ^ i
        = ∑ j ∈ Finset.range (2 ^ K), oddPower psi K j ^ (l - i) :=
          Finset.sum_congr rfl fun j _ => oddPower_pow_mul_of_le hinv j h.le
      _ = 0 := sum_oddPower_pow_eq_zero hpsi (by omega) (by omega)

/-- The powers of two points, over all exponents. -/
theorem sum_oddPower_mul_exponents {j l : ℕ} (hj : j < 2 ^ K) (hl : l < 2 ^ K) :
    ∑ i ∈ Finset.range (2 ^ K), oddPower phi K l ^ i * oddPower psi K j ^ i =
      if l = j then 2 ^ K else 0 := by
  -- the product of the two points is an even power of the root or of its inverse
  have hpower {a b : R} (hab : a * b = 1) {s t : ℕ} (hst : s ≤ t) :
      a ^ (2 * s + 1) * b ^ (2 * t + 1) = b ^ (2 * (t - s)) := by
    obtain ⟨d, rfl⟩ := Nat.exists_eq_add_of_le hst
    rw [Nat.add_sub_cancel_left, show 2 * (s + d) + 1 = 2 * s + 1 + 2 * d by ring, pow_add b,
      ← mul_assoc, ← mul_pow, hab, one_pow, one_mul]
  have hinv' : psi * phi = 1 := by rw [mul_comm, hinv]
  have hrl := bitReverse_lt K l
  have hrj := bitReverse_lt K j
  simp only [← mul_pow]
  rcases Nat.lt_trichotomy (bitReverse K l) (bitReverse K j) with h | h | h
  · rw [if_neg (fun hlj => h.ne (congrArg _ hlj)), oddPower, oddPower, hpower hinv h.le]
    exact sum_pow_eq_zero hpsi (by omega) (by omega)
  · have hlj : l = j := by rw [← bitReverse_bitReverse hl, h, bitReverse_bitReverse hj]
    rw [if_pos hlj, oddPower, oddPower, h, hpower hinv le_rfl]
    simp
  · rw [if_neg (fun hlj => h.ne' (congrArg _ hlj)), oddPower, oddPower, mul_comm,
      hpower hinv' h.le]
    exact sum_pow_eq_zero hphi (by omega) (by omega)

/-! ### The two orders -/

/-- Interpolation gives the coefficients of an evaluated polynomial back. -/
theorem interpolate_evaluate {s : R} (hs : s * 2 ^ K = 1) (f : ℕ → R) {i : ℕ} (hi : i < 2 ^ K) :
    s * ∑ j ∈ Finset.range (2 ^ K),
      (∑ l ∈ Finset.range (2 ^ K), f l * oddPower psi K j ^ l) * oddPower phi K j ^ i = f i := by
  have hterm : ∀ l ∈ Finset.range (2 ^ K),
      ∑ j ∈ Finset.range (2 ^ K), f l * oddPower psi K j ^ l * oddPower phi K j ^ i =
        f l * if l = i then 2 ^ K else 0 := by
    intro l hl
    rw [← sum_oddPower_mul_positions hinv hpsi hphi hi (Finset.mem_range.1 hl), Finset.mul_sum]
    exact Finset.sum_congr rfl fun j _ => mul_assoc _ _ _
  simp only [Finset.sum_mul]
  rw [Finset.sum_comm, Finset.sum_congr rfl hterm]
  simp only [mul_ite, mul_zero, Finset.sum_ite_eq', Finset.mem_range, if_pos hi]
  rw [mul_left_comm, hs, mul_one]

/-- Evaluation gives the values of an interpolated polynomial back. -/
theorem evaluate_interpolate {s : R} (hs : s * 2 ^ K = 1) (f : ℕ → R) {j : ℕ} (hj : j < 2 ^ K) :
    ∑ i ∈ Finset.range (2 ^ K),
      (s * ∑ l ∈ Finset.range (2 ^ K), f l * oddPower phi K l ^ i) * oddPower psi K j ^ i =
        f j := by
  have hterm : ∀ l ∈ Finset.range (2 ^ K),
      ∑ i ∈ Finset.range (2 ^ K), f l * oddPower phi K l ^ i * oddPower psi K j ^ i =
        f l * if l = j then 2 ^ K else 0 := by
    intro l hl
    rw [← sum_oddPower_mul_exponents hinv hpsi hphi hj (Finset.mem_range.1 hl), Finset.mul_sum]
    exact Finset.sum_congr rfl fun i _ => mul_assoc _ _ _
  simp only [mul_assoc s, ← Finset.mul_sum, Finset.sum_mul]
  rw [Finset.sum_comm, Finset.sum_congr rfl hterm]
  simp only [mul_ite, mul_zero, Finset.sum_ite_eq', Finset.mem_range, if_pos hj]
  rw [mul_left_comm, hs, mul_one]

end orthogonality

end Negacyclic
