import Mathlib.Tactic.Ring
import Mathlib.Tactic.Linarith
import Negacyclic.Proofs.Residue.Class
import Negacyclic.Word.Halves

/-!
# The high product from halves is the high product

With `x = x₁ * 2^32 + x₀` and `y = y₁ * 2^32 + y₀`, the product is the sum of four products of
halves at weights `1`, `2^32`, `2^32` and `2^64`. `HalfProducts.mid` gathers what stands at weight
`2^32` before its carry, and none of the sums exceeds a word (`HalfProducts.exact`), so `high` and
`low` are the exact words of the product (`toNat_high_mul_add_low`). At the two smaller scales the
answer is put together from the low end of `high` and the high end of `low`, which do not overlap.
-/

namespace Negacyclic.Word

variable (x y : Word)

/-- The low half is the remainder by `2^32`. -/
theorem toNat_lowHalf : (lowHalf x).toNat = x.toNat % 2 ^ 32 := by
  unfold lowHalf
  rw [UInt64.toNat_and]
  exact Nat.and_two_pow_sub_one_eq_mod _ 32

/-- The high half is the quotient by `2^32`. -/
theorem toNat_highHalf : (highHalf x).toNat = x.toNat / 2 ^ 32 := by
  unfold highHalf
  rw [UInt64.toNat_shiftRight, Nat.shiftRight_eq_div_pow]
  rfl

/-- The exact product of two words below `2^32`. -/
theorem toNat_mul_of_halves {x y : Word} (hx : x.toNat < 2 ^ 32) (hy : y.toNat < 2 ^ 32) :
    (x * y).toNat = x.toNat * y.toNat ∧ x.toNat * y.toNat ≤ (2 ^ 32 - 1) * (2 ^ 32 - 1) := by
  have h : x.toNat * y.toNat ≤ (2 ^ 32 - 1) * (2 ^ 32 - 1) :=
    Nat.mul_le_mul (Nat.le_sub_one_of_lt hx) (Nat.le_sub_one_of_lt hy)
  refine ⟨?_, h⟩
  rw [UInt64.toNat_mul, Nat.mod_eq_of_lt (by omega)]

/-- Words whose bits do not overlap are joined by addition. -/
theorem toNat_shiftLeft_or {k : Word} (hk : k.toNat < 64) {y : Word}
    (hy : y.toNat < 2 ^ k.toNat) :
    (x <<< k ||| y).toNat = x.toNat * 2 ^ k.toNat % 2 ^ 64 + y.toNat := by
  have hsplit : (2 : ℕ) ^ 64 = 2 ^ (64 - k.toNat) * 2 ^ k.toNat := by
    rw [← Nat.pow_add]
    congr 1
    omega
  rw [UInt64.toNat_or, UInt64.toNat_shiftLeft, Nat.mod_eq_of_lt hk, Nat.shiftLeft_eq, hsplit,
    Nat.mul_mod_mul_right, ← Nat.shiftLeft_eq, Nat.shiftLeft_add_eq_or_of_lt hy]

namespace HalfProducts

/-- The two sums at weight `2^32` do not wrap. -/
theorem mid_exact :
    AddExact (highHalf (halfProducts x y).ll) (lowHalf (halfProducts x y).lh) ∧
      AddExact (highHalf (halfProducts x y).ll + lowHalf (halfProducts x y).lh)
        (lowHalf (halfProducts x y).hl) := by
  have hll := (halfProducts x y).ll.toNat_lt
  have hfirst : AddExact (highHalf (halfProducts x y).ll) (lowHalf (halfProducts x y).lh) := by
    apply addExact_of_lt
    rw [toNat_highHalf, toNat_lowHalf]
    omega
  refine ⟨hfirst, addExact_of_lt ?_⟩
  rw [hfirst, toNat_highHalf, toNat_lowHalf, toNat_lowHalf]
  omega

/-- The middle is the exact sum of three halves, which is below `3 * 2^32`. -/
theorem toNat_mid : (halfProducts x y).mid.toNat =
    (halfProducts x y).ll.toNat / 2 ^ 32 + (halfProducts x y).lh.toNat % 2 ^ 32 +
      (halfProducts x y).hl.toNat % 2 ^ 32 := by
  obtain ⟨hfirst, hsecond⟩ := mid_exact x y
  refine hsecond.trans ?_
  rw [hfirst, toNat_highHalf, toNat_lowHalf, toNat_lowHalf]

/-- The four products of halves fit a word. -/
theorem products_exact :
    (halfProducts x y).ll.toNat = (lowHalf x).toNat * (lowHalf y).toNat ∧
      (halfProducts x y).lh.toNat = (lowHalf x).toNat * (highHalf y).toNat ∧
      (halfProducts x y).hl.toNat = (highHalf x).toNat * (lowHalf y).toNat ∧
      (halfProducts x y).hh.toNat = (highHalf x).toNat * (highHalf y).toNat := by
  have hlow (z : Word) : (lowHalf z).toNat < 2 ^ 32 := by
    rw [toNat_lowHalf]
    omega
  have hhigh (z : Word) : (highHalf z).toNat < 2 ^ 32 := by
    have := z.toNat_lt
    rw [toNat_highHalf]
    omega
  exact ⟨(toNat_mul_of_halves (hlow x) (hlow y)).1, (toNat_mul_of_halves (hlow x) (hhigh y)).1,
    (toNat_mul_of_halves (hhigh x) (hlow y)).1, (toNat_mul_of_halves (hhigh x) (hhigh y)).1⟩

/-- The product is the sum of the four products of halves. -/
theorem product_eq : x.toNat * y.toNat =
    (halfProducts x y).hh.toNat * 2 ^ 64 +
      ((halfProducts x y).lh.toNat + (halfProducts x y).hl.toNat) * 2 ^ 32 +
      (halfProducts x y).ll.toNat := by
  have hsplit (z : Word) : z.toNat = (highHalf z).toNat * 2 ^ 32 + (lowHalf z).toNat := by
    rw [toNat_highHalf, toNat_lowHalf]
    omega
  obtain ⟨hll, hlh, hhl, hhh⟩ := products_exact x y
  rw [hll, hlh, hhl, hhh]
  conv_lhs => rw [hsplit x, hsplit y]
  ring

/-- The product of two words is a double word. -/
theorem product_lt : x.toNat * y.toNat < 2 ^ 64 * 2 ^ 64 :=
  Nat.mul_lt_mul'' x.toNat_lt y.toNat_lt

/-- The three sums of the high word do not wrap, since their total is at most the high word of the
product. -/
theorem high_exact :
    AddExact (halfProducts x y).hh (highHalf (halfProducts x y).lh) ∧
      AddExact (highHalf (halfProducts x y).hl) (highHalf (halfProducts x y).mid) ∧
      AddExact ((halfProducts x y).hh + highHalf (halfProducts x y).lh)
        (highHalf (halfProducts x y).hl + highHalf (halfProducts x y).mid) := by
  have hmid := toNat_mid x y
  have hprod := product_eq x y
  have hlt := product_lt x y
  have hleft : AddExact (halfProducts x y).hh (highHalf (halfProducts x y).lh) := by
    apply addExact_of_lt
    rw [toNat_highHalf]
    omega
  have hright : AddExact (highHalf (halfProducts x y).hl) (highHalf (halfProducts x y).mid) := by
    apply addExact_of_lt
    rw [toNat_highHalf, toNat_highHalf]
    omega
  refine ⟨hleft, hright, addExact_of_lt ?_⟩
  rw [hleft, hright, toNat_highHalf, toNat_highHalf, toNat_highHalf]
  omega

/-- The high word is the exact sum of its four parts: the product of the words would not fit
otherwise. -/
theorem toNat_high : (halfProducts x y).high.toNat =
    (halfProducts x y).hh.toNat + (halfProducts x y).lh.toNat / 2 ^ 32 +
      ((halfProducts x y).hl.toNat / 2 ^ 32 + (halfProducts x y).mid.toNat / 2 ^ 32) := by
  obtain ⟨hleft, hright, htotal⟩ := high_exact x y
  refine htotal.trans ?_
  rw [hleft, hright, toNat_highHalf, toNat_highHalf, toNat_highHalf]

/-- The low word is put together from two halves, so nothing is carried. -/
theorem toNat_low : (halfProducts x y).low.toNat =
    (halfProducts x y).mid.toNat % 2 ^ 32 * 2 ^ 32 + (halfProducts x y).ll.toNat % 2 ^ 32 := by
  have hk : (32 : Word).toNat = 32 := rfl
  rw [low, toNat_shiftLeft_or _ (by rw [hk]; omega) (by rw [hk, toNat_lowHalf]; omega),
    toNat_lowHalf, hk]
  omega

/-- The two words hold the exact product. -/
theorem toNat_high_mul_add_low :
    (halfProducts x y).high.toNat * 2 ^ 64 + (halfProducts x y).low.toNat =
      x.toNat * y.toNat := by
  have hmid := toNat_mid x y
  rw [product_eq x y, toNat_high, toNat_low]
  omega

/-- No product of halves and no sum of such products wraps, and together they are the product. -/
structure Exact (x y : Word) : Prop where
  products :
    (halfProducts x y).ll.toNat = (lowHalf x).toNat * (lowHalf y).toNat ∧
      (halfProducts x y).lh.toNat = (lowHalf x).toNat * (highHalf y).toNat ∧
      (halfProducts x y).hl.toNat = (highHalf x).toNat * (lowHalf y).toNat ∧
      (halfProducts x y).hh.toNat = (highHalf x).toNat * (highHalf y).toNat
  mid :
    AddExact (highHalf (halfProducts x y).ll) (lowHalf (halfProducts x y).lh) ∧
      AddExact (highHalf (halfProducts x y).ll + lowHalf (halfProducts x y).lh)
        (lowHalf (halfProducts x y).hl)
  mid_lt : (halfProducts x y).mid.toNat < 3 * 2 ^ 32
  high :
    AddExact (halfProducts x y).hh (highHalf (halfProducts x y).lh) ∧
      AddExact (highHalf (halfProducts x y).hl) (highHalf (halfProducts x y).mid) ∧
      AddExact ((halfProducts x y).hh + highHalf (halfProducts x y).lh)
        (highHalf (halfProducts x y).hl + highHalf (halfProducts x y).mid)
  words :
    (halfProducts x y).high.toNat * 2 ^ 64 + (halfProducts x y).low.toNat = x.toNat * y.toNat

/-- Of the four products and the sums that put them together none wraps. -/
theorem exact : Exact x y where
  products := products_exact x y
  mid := mid_exact x y
  mid_lt := by
    have hll := (halfProducts x y).ll.toNat_lt
    rw [toNat_mid]
    omega
  high := high_exact x y
  words := toNat_high_mul_add_low x y

end HalfProducts

/-- The high product put together from halves is the high product, at every precision. -/
theorem toNat_mulHighByHalves (p : Precision) :
    (mulHighByHalves p x y).toNat = x.toNat * y.toNat / 2 ^ p.bits % 2 ^ 64 := by
  have hprod := HalfProducts.toNat_high_mul_add_low x y
  have hhigh := (halfProducts x y).high.toNat_lt
  have hlow := (halfProducts x y).low.toNat_lt
  have h12 : (12 : Word).toNat = 12 := rfl
  have h32 : (32 : Word).toNat = 32 := rfl
  cases p with
  | bits64 =>
      simp only [mulHighByHalves, Precision.bits]
      omega
  | bits52 =>
      have hr : ((halfProducts x y).low >>> 52).toNat = (halfProducts x y).low.toNat / 2 ^ 52 := by
        rw [UInt64.toNat_shiftRight, Nat.shiftRight_eq_div_pow]
        rfl
      simp only [mulHighByHalves, Precision.bits]
      rw [toNat_shiftLeft_or _ (by rw [h12]; omega) (by rw [hr, h12]; omega), hr, h12]
      omega
  | bits32 =>
      have hr : ((halfProducts x y).low >>> 32).toNat = (halfProducts x y).low.toNat / 2 ^ 32 := by
        rw [UInt64.toNat_shiftRight, Nat.shiftRight_eq_div_pow]
        rfl
      simp only [mulHighByHalves, Precision.bits]
      rw [toNat_shiftLeft_or _ (by rw [h32]; omega) (by rw [hr, h32]; omega), hr, h32]
      omega

/-- The high product put together from halves is the high product, at every precision. -/
theorem mulHighByHalves_eq (p : Precision) : mulHighByHalves p x y = mulHigh p x y := by
  rw [← UInt64.toNat_inj, toNat_mulHighByHalves, toNat_mulHigh]

end Negacyclic.Word
