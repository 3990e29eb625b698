import Negacyclic.Proofs.Residue.Lazy
import Negacyclic.Residue.WideReciprocal

/-!
# Reduction of double words

The quotient put together by `WideReciprocal.estimate` is exactly `⌊x * r / 2^128⌋`, whatever the
two words of the reciprocal `r` are (`toNat_quotient`): the one sum that can exceed a double word
is carried. For `r = ⌊2^128 / q⌋` the remainder is then below `2 * q` by the estimate of the nested
floor, so that for a modulus up to `2^63` it fits a word and one conditional subtraction reduces it
(`toNat_reduce`). A greater modulus may leave more than a word, and then the result is not the
residue (`toNat_reduce_eq_mod_iff`).
-/

namespace Negacyclic

/-! ### Double words as natural numbers -/

namespace DoubleWord

/-- A word keeps its value as a double word. -/
@[simp] theorem toNat_ofWord (x : Word) : (ofWord x).toNat = x.toNat := by
  have := x.toNat_lt
  simp only [ofWord, BitVec.toNat_setWidth, UInt64.toNat_toBitVec]
  omega

/-- The high word is the quotient by `2^64`. -/
@[simp] theorem toNat_high (x : DoubleWord) : x.high.toNat = x.toNat / 2 ^ 64 := by
  rw [high, BitVec.toNat_ushiftRight, Nat.shiftRight_eq_div_pow]

/-- The low word is the remainder by `2^64`. -/
@[simp] theorem toNat_low (x : DoubleWord) : x.low.toNat = x.toNat % 2 ^ 64 := by
  simp only [low, BitVec.toNat_setWidth]
  omega

/-- Cutting to a word takes the remainder by `2^64`. -/
@[simp] theorem toNat_toWord (x : DoubleWord) : x.toWord.toNat = x.toNat % 2 ^ 64 := by
  change (x.setWidth 64).toNat = _
  rw [BitVec.toNat_setWidth]

/-- The product of two halves leaves room for a carry below a double word. -/
theorem mul_le_of_halves {x y : ℕ} (hx : x < 2 ^ 64) (hy : y < 2 ^ 64) :
    x * y ≤ (2 ^ 64 - 1) * (2 ^ 64 - 1) :=
  Nat.mul_le_mul (Nat.le_sub_one_of_lt hx) (Nat.le_sub_one_of_lt hy)

/-- Double words below `2^64` have a product that fits. -/
theorem toNat_mul_of_lt {x y : DoubleWord} (hx : x.toNat < 2 ^ 64) (hy : y.toNat < 2 ^ 64) :
    (x * y).toNat = x.toNat * y.toNat := by
  rw [BitVec.toNat_mul, Nat.mod_eq_of_lt]
  exact (Nat.mul_lt_mul'' hx hy).trans_eq (by norm_num)

/-- The product of two words is exact as a double word. -/
theorem toNat_product (x y : Word) : (product x y).toNat = x.toNat * y.toNat := by
  unfold product
  rw [toNat_mul_of_lt, toNat_ofWord, toNat_ofWord] <;> rw [toNat_ofWord]
  · exact x.toNat_lt
  · exact y.toNat_lt

/-- The high word is a word. -/
theorem toNat_high_lt (x : DoubleWord) : x.high.toNat < 2 ^ 64 := by
  have := x.isLt
  rw [toNat_high]
  omega

/-- The low word is a word. -/
theorem toNat_low_lt (x : DoubleWord) : x.low.toNat < 2 ^ 64 := by
  rw [toNat_low]
  omega

/-- The product of half a double word and a word fits. -/
theorem toNat_mul_ofWord {x : DoubleWord} (hx : x.toNat < 2 ^ 64) (w : Word) :
    (x * ofWord w).toNat = x.toNat * w.toNat := by
  have hw : (ofWord w).toNat < 2 ^ 64 := by
    rw [toNat_ofWord]
    exact w.toNat_lt
  rw [toNat_mul_of_lt hx hw, toNat_ofWord]

/-! ### Arithmetic that can fail -/

/-- The sum of two double words, if it is one. -/
def add? (x y : DoubleWord) : Option DoubleWord :=
  if x.toNat + y.toNat < 2 ^ 128 then some (x + y) else none

/-- The product of two double words, if it is one. -/
def mul? (x y : DoubleWord) : Option DoubleWord :=
  if x.toNat * y.toNat < 2 ^ 128 then some (x * y) else none

/-- A sum below `2^128` is there. -/
theorem add?_of_lt {x y : DoubleWord} (h : x.toNat + y.toNat < 2 ^ 128) :
    add? x y = some (x + y) :=
  if_pos h

/-- Half a double word and a word can be multiplied. -/
theorem mul?_ofWord {x : DoubleWord} (hx : x.toNat < 2 ^ 64) (w : Word) :
    mul? x (ofWord w) = some (x * ofWord w) := by
  refine if_pos ?_
  rw [toNat_ofWord]
  exact (Nat.mul_lt_mul'' hx w.toNat_lt).trans_eq (by norm_num)

end DoubleWord

namespace WideReciprocal

open DoubleWord

/-- The reciprocal that the two words hold. -/
def value (r : WideReciprocal) : ℕ :=
  r.high.toNat * 2 ^ 64 + r.low.toNat

/-- A reciprocal is a double word. -/
theorem value_lt (r : WideReciprocal) : r.value < 2 ^ 128 := by
  have hhigh := r.high.toNat_lt
  have hlow := r.low.toNat_lt
  unfold value
  omega

/-! ### The quotient -/

section quotient

variable (r : WideReciprocal) (x : DoubleWord)

/-- One cross product and the carry of the low words fit a double word. -/
theorem toNat_partialMiddle : (r.estimate x).partialMiddle.toNat =
    x.high.toNat * r.low.toNat + x.low.toNat * r.low.toNat / 2 ^ 64 := by
  have h₁ := mul_le_of_halves x.toNat_high_lt r.low.toNat_lt
  have h₂ := mul_le_of_halves x.toNat_low_lt r.low.toNat_lt
  simp only [estimate, BitVec.toNat_add, BitVec.toNat_ushiftRight, Nat.shiftRight_eq_div_pow,
    toNat_mul_ofWord x.toNat_high_lt, toNat_mul_ofWord x.toNat_low_lt]
  omega

/-- The middle with its overflow is the exact sum. -/
theorem toNat_middle : (r.estimate x).middle.toNat +
    (if (r.estimate x).overflow then 2 ^ 128 else 0) =
      (r.estimate x).partialMiddle.toNat + x.low.toNat * r.high.toNat := by
  have h := mul_le_of_halves x.toNat_low_lt r.high.toNat_lt
  have hpartial := (r.estimate x).partialMiddle.isLt
  have hmiddle : (r.estimate x).middle =
      (r.estimate x).partialMiddle + x.low * ofWord r.high := rfl
  have hoverflow : (r.estimate x).overflow = decide ((r.estimate x).partialMiddle.toNat +
      (x.low * ofWord r.high).toNat ≥ 2 ^ 128) := rfl
  rw [hmiddle, hoverflow, BitVec.toNat_add, toNat_mul_ofWord x.toNat_low_lt]
  simp only [decide_eq_true_eq, ge_iff_le]
  split_ifs <;> omega

/-- The exact product by the halves of its factors. -/
theorem toNat_mul_value : x.toNat * r.value =
    x.high.toNat * r.high.toNat * 2 ^ 128 +
      (x.high.toNat * r.low.toNat + x.low.toNat * r.high.toNat) * 2 ^ 64 +
      x.low.toNat * r.low.toNat := by
  have hx : x.toNat = x.high.toNat * 2 ^ 64 + x.low.toNat := by
    rw [toNat_high, toNat_low]
    omega
  conv_lhs => rw [hx, value]
  ring

/-- The sum that the quotient is has no room to overflow: it is the floor of the exact product. -/
theorem sum_eq_div : x.high.toNat * r.high.toNat + (r.estimate x).middle.toNat / 2 ^ 64 +
    (if (r.estimate x).overflow then 2 ^ 64 else 0) = x.toNat * r.value / 2 ^ 128 := by
  have hmiddle := toNat_middle r x
  rw [toNat_partialMiddle] at hmiddle
  rw [toNat_mul_value]
  split_ifs at hmiddle ⊢ <;> omega

/-- The floor of the exact product is a double word. -/
theorem mul_value_div_lt : x.toNat * r.value / 2 ^ 128 < 2 ^ 128 :=
  Nat.div_lt_of_lt_mul (Nat.mul_lt_mul'' x.isLt r.value_lt)

/-- What the overflow of the middle carries into the quotient. -/
theorem toNat_overflow :
    (if (r.estimate x).overflow then ofWord 1 <<< 64 else 0 : DoubleWord).toNat =
      if (r.estimate x).overflow then 2 ^ 64 else 0 := by
  cases (r.estimate x).overflow <;> rfl

/-- The quotient is the floor of the exact product. -/
theorem toNat_quotient : (r.estimate x).quotient.toNat = x.toNat * r.value / 2 ^ 128 := by
  have hquotient : (r.estimate x).quotient = x.high * ofWord r.high +
      ((r.estimate x).middle >>> 64) +
        if (r.estimate x).overflow then ofWord 1 <<< 64 else 0 := rfl
  have hsum := sum_eq_div r x
  have hlt := mul_value_div_lt r x
  rw [hquotient, BitVec.toNat_add, BitVec.toNat_add, toNat_overflow, BitVec.toNat_ushiftRight,
    Nat.shiftRight_eq_div_pow, toNat_mul_ofWord x.toNat_high_lt, Nat.mod_add_mod, hsum,
    Nat.mod_eq_of_lt hlt]

/-- Of the products and sums from which the quotient is put together only the middle, whose overflow
is carried, can exceed a double word. -/
structure Fits : Prop where
  high_mul_high_lt : x.toNat / 2 ^ 64 * r.high.toNat < 2 ^ 128
  high_mul_low_lt : x.toNat / 2 ^ 64 * r.low.toNat < 2 ^ 128
  low_mul_high_lt : x.toNat % 2 ^ 64 * r.high.toNat < 2 ^ 128
  low_mul_low_lt : x.toNat % 2 ^ 64 * r.low.toNat < 2 ^ 128
  partialMiddle_lt :
    x.toNat / 2 ^ 64 * r.low.toNat + x.toNat % 2 ^ 64 * r.low.toNat / 2 ^ 64 < 2 ^ 128
  quotient_lt : x.toNat / 2 ^ 64 * r.high.toNat + (r.estimate x).middle.toNat / 2 ^ 64 +
    (if (r.estimate x).overflow then 2 ^ 64 else 0) < 2 ^ 128

/-- Whatever words the reciprocal is made of, nothing but the middle can exceed a double word. -/
theorem fits : r.Fits x := by
  have hhigh := x.toNat_high_lt
  have hlow := x.toNat_low_lt
  have hsum := sum_eq_div r x
  have hlt := mul_value_div_lt r x
  have hpartial := (r.estimate x).partialMiddle.isLt
  rw [toNat_partialMiddle] at hpartial
  rw [toNat_high] at hhigh hsum hpartial
  rw [toNat_low] at hlow hpartial
  have hproduct {y : ℕ} (hy : y < 2 ^ 64) (w : Word) : y * w.toNat < 2 ^ 128 :=
    (Nat.mul_lt_mul'' hy w.toNat_lt).trans_eq (by norm_num)
  exact
    { high_mul_high_lt := hproduct hhigh r.high
      high_mul_low_lt := hproduct hhigh r.low
      low_mul_high_lt := hproduct hlow r.high
      low_mul_low_lt := hproduct hlow r.low
      partialMiddle_lt := hpartial
      quotient_lt := hsum.trans_lt hlt }

end quotient

/-! ### The run with every sum and product checked -/

/-- `x` reduced, where no product may exceed a double word and of the sums only the middle. -/
def reduce? (r : WideReciprocal) (x : DoubleWord) : Option Word := do
  let rHigh := ofWord r.high
  let rLow := ofWord r.low
  let lowLow ← mul? x.low rLow
  let highLow ← mul? x.high rLow
  let partialMiddle ← add? highLow (lowLow >>> 64)
  let lowHigh ← mul? x.low rHigh
  let middle := partialMiddle + lowHigh
  let highHigh ← mul? x.high rHigh
  let sum ← add? highHigh (middle >>> 64)
  let quotient ← add? sum
    (if BitVec.uaddOverflow partialMiddle lowHigh then ofWord 1 <<< 64 else 0)
  return Word.reduceOnce (x - quotient * ofWord r.modulus).toWord r.modulus

/-- `a * b` reduced, with the same checks. -/
def mul? (r : WideReciprocal) (a b : Word) : Option Word := do
  r.reduce? (← DoubleWord.mul? (ofWord a) (ofWord b))

/-- Whatever the two words of the reciprocal are, no check fails. -/
theorem reduce?_eq (r : WideReciprocal) (x : DoubleWord) : r.reduce? x = some (r.reduce x) := by
  have hpartial := (r.estimate x).partialMiddle.isLt
  have hquotient := (fits r x).quotient_lt
  rw [toNat_partialMiddle] at hpartial
  rw [← toNat_high] at hquotient
  have hmiddle : add? (x.high * ofWord r.low) ((x.low * ofWord r.low) >>> 64) =
      some (r.estimate x).partialMiddle := by
    refine add?_of_lt ?_
    rwa [BitVec.toNat_ushiftRight, Nat.shiftRight_eq_div_pow, toNat_mul_ofWord x.toNat_high_lt,
      toNat_mul_ofWord x.toNat_low_lt]
  have hsum : (x.high * ofWord r.high).toNat + ((r.estimate x).middle >>> 64).toNat =
      x.high.toNat * r.high.toNat + (r.estimate x).middle.toNat / 2 ^ 64 := by
    rw [BitVec.toNat_ushiftRight, Nat.shiftRight_eq_div_pow, toNat_mul_ofWord x.toNat_high_lt]
  have hhigh : add? (x.high * ofWord r.high) ((r.estimate x).middle >>> 64) =
      some (x.high * ofWord r.high + ((r.estimate x).middle >>> 64)) :=
    add?_of_lt (by omega)
  have hlast : add? (x.high * ofWord r.high + ((r.estimate x).middle >>> 64))
      (if (r.estimate x).overflow then ofWord 1 <<< 64 else 0) =
        some (r.estimate x).quotient := by
    refine add?_of_lt ?_
    rw [BitVec.toNat_add, hsum, toNat_overflow]
    exact (Nat.add_le_add_right (Nat.mod_le _ _) _).trans_lt hquotient
  unfold reduce?
  simp only [mul?_ofWord x.toNat_low_lt, mul?_ofWord x.toNat_high_lt, hmiddle,
    Option.bind_eq_bind, Option.bind_some]
  change (add? (x.high * ofWord r.high) ((r.estimate x).middle >>> 64)).bind (fun sum =>
    (add? sum (if (r.estimate x).overflow then ofWord 1 <<< 64 else 0)).bind _) = _
  rw [hhigh, Option.bind_some, hlast]
  rfl

/-- No product of two words fails to be reduced. -/
theorem mul?_eq (r : WideReciprocal) (a b : Word) : r.mul? a b = some (r.mul a b) := by
  have ha : (ofWord a).toNat < 2 ^ 64 := by
    rw [toNat_ofWord]
    exact a.toNat_lt
  rw [mul?, mul?_ofWord ha]
  exact reduce?_eq r (product a b)

/-! ### Reduction -/

variable {q : Word}

/-- There is no other reciprocal than that of the modulus. -/
theorem ofModulus?_of_eq_some {r : WideReciprocal} (h : ofModulus? q = some r) :
    ofModulus? q = some (ofModulus q) := by
  unfold ofModulus? at h ⊢
  split at h
  · cases h
  · exact if_neg ‹_›

/-- The two words hold `⌊2^128 / q⌋`. -/
theorem value_ofModulus (hq : 1 < q.toNat) : (ofModulus q).value = 2 ^ 128 / q.toNat := by
  have hlt : 2 ^ 128 / q.toNat < 2 ^ 128 := Nat.div_lt_self (by omega) hq
  simp only [value, ofModulus, UInt64.toNat_ofNat']
  generalize 2 ^ 128 / q.toNat = r at hlt ⊢
  omega

/-- The estimated quotient is not too great. -/
theorem quotient_mul_le (hq : 1 < q.toNat) (x : DoubleWord) :
    ((ofModulus q).estimate x).quotient.toNat * q.toNat ≤ x.toNat := by
  have h := nestedFloor_mul_le 1 x.toNat (q := q.toNat) (S := 2 ^ 128) (by omega)
  rwa [Nat.one_mul, Nat.one_mul, Nat.mul_comm _ x.toNat, ← value_ofModulus hq,
    ← toNat_quotient] at h

/-- The estimated quotient is less than 2 too small, so less than twice the modulus is left. -/
theorem lt_quotient_mul_add (hq : 1 < q.toNat) (x : DoubleWord) :
    x.toNat < ((ofModulus q).estimate x).quotient.toNat * q.toNat + 2 * q.toNat := by
  have h := lt_nestedFloor_mul_add 1 (q := q.toNat) (S := 2 ^ 128) (by omega) (by omega)
    x.isLt.le
  rwa [Nat.one_mul, Nat.one_mul, Nat.mul_comm _ x.toNat, ← value_ofModulus hq,
    ← toNat_quotient] at h

/-- The remainder is what the quotient leaves, cut to a word. -/
theorem toNat_remainder_eq_mod (hq : 1 < q.toNat) (x : DoubleWord) :
    ((ofModulus q).remainder x).toNat =
      (x.toNat - ((ofModulus q).estimate x).quotient.toNat * q.toNat) % 2 ^ 64 := by
  have hle := quotient_mul_le hq x
  have hx := x.isLt
  have hmod : (ofWord (ofModulus q).modulus).toNat = q.toNat := toNat_ofWord q
  unfold remainder
  rw [toNat_toWord, BitVec.toNat_sub, BitVec.toNat_mul, hmod]
  generalize ((ofModulus q).estimate x).quotient.toNat * q.toNat = m at hle ⊢
  omega

/-- What the quotient leaves is the residue, or the residue and one modulus. -/
theorem rest_cases (hq : 1 < q.toNat) (x : DoubleWord) :
    ∃ rest, x.toNat - ((ofModulus q).estimate x).quotient.toNat * q.toNat = rest ∧
      rest < 2 * q.toNat ∧ x.toNat % q.toNat = rest % q.toNat := by
  have hle := quotient_mul_le hq x
  have hlt := lt_quotient_mul_add hq x
  refine ⟨_, rfl, by omega, ?_⟩
  conv_lhs => rw [← Nat.sub_add_cancel hle, Nat.add_mul_mod_self_right]

/-- The reduction is exact where what the quotient leaves fits a word, and nowhere else: beyond that
the cut takes off `2^64` where the modulus has to come off. -/
theorem toNat_reduce_eq_mod_iff (hq : 1 < q.toNat) (x : DoubleWord) :
    ((ofModulus q).reduce x).toNat = x.toNat % q.toNat ↔
      x.toNat - ((ofModulus q).estimate x).quotient.toNat * q.toNat < 2 ^ 64 := by
  obtain ⟨rest, hrest, hlt, hmod⟩ := rest_cases hq x
  have hcut := toNat_remainder_eq_mod hq x
  have hword := q.toNat_lt
  rw [hrest] at hcut ⊢
  rw [hmod, reduce, show (ofModulus q).modulus = q from rfl]
  by_cases hfits : rest < 2 ^ 64
  · rw [Nat.mod_eq_of_lt hfits] at hcut
    rw [toNat_reduceOnce_eq_mod (hcut ▸ hlt), hcut]
    exact iff_of_true rfl hfits
  · -- the cut word is below the modulus, so nothing more is taken off
    have hover : ((ofModulus q).remainder x).toNat = rest - 2 ^ 64 := by omega
    have honce : rest % q.toNat = rest - q.toNat := by
      rw [Nat.mod_eq_sub_mod (by omega), Nat.mod_eq_of_lt (by omega)]
    rw [Word.toNat_reduceOnce, if_neg (by omega), hover, honce]
    omega

/-- A double word is reduced exactly for a modulus up to `2^63`. -/
theorem toNat_reduce (hq : 1 < q.toNat) (hq63 : q.toNat ≤ 2 ^ 63) (x : DoubleWord) :
    ((ofModulus q).reduce x).toNat = x.toNat % q.toNat := by
  obtain ⟨rest, hrest, hlt, -⟩ := rest_cases hq x
  rw [toNat_reduce_eq_mod_iff hq, hrest]
  omega

/-- The product of two words is reduced exactly for a modulus up to `2^63`. -/
theorem toNat_mul (hq : 1 < q.toNat) (hq63 : q.toNat ≤ 2 ^ 63) (a b : Word) :
    ((ofModulus q).mul a b).toNat = a.toNat * b.toNat % q.toNat := by
  unfold mul
  rw [toNat_reduce hq hq63, toNat_product]

/-- The reduction of a double word by its reciprocal, for every modulus. The two words hold `⌊2^128
/ q⌋`, the one sum that can exceed a double word is carried, and the quotient is the floor of the
exact product. It leaves less than twice the modulus, so a modulus up to `2^63` reduces every double
word, and a greater one exactly those of which it leaves a word. -/
theorem reduction_exact (hq : 1 < q.toNat) (x : DoubleWord) :
    ofModulus? q = some (ofModulus q) ∧
      (ofModulus q).high.toNat * 2 ^ 64 + (ofModulus q).low.toNat = 2 ^ 128 / q.toNat ∧
      (ofModulus q).Fits x ∧
      ((ofModulus q).estimate x).middle.toNat +
          (if ((ofModulus q).estimate x).overflow then 2 ^ 128 else 0) =
        x.toNat / 2 ^ 64 * (ofModulus q).low.toNat +
            x.toNat % 2 ^ 64 * (ofModulus q).low.toNat / 2 ^ 64 +
          x.toNat % 2 ^ 64 * (ofModulus q).high.toNat ∧
      ((ofModulus q).estimate x).quotient.toNat =
        x.toNat * (2 ^ 128 / q.toNat) / 2 ^ 128 ∧
      ((ofModulus q).estimate x).quotient.toNat * q.toNat ≤ x.toNat ∧
      x.toNat - ((ofModulus q).estimate x).quotient.toNat * q.toNat < 2 * q.toNat ∧
      (q.toNat ≤ 2 ^ 63 → ((ofModulus q).reduce x).toNat = x.toNat % q.toNat) ∧
      (((ofModulus q).reduce x).toNat = x.toNat % q.toNat ↔
        x.toNat - ((ofModulus q).estimate x).quotient.toNat * q.toNat < 2 ^ 64) := by
  have hone : ¬q ≤ 1 := by
    rw [UInt64.le_iff_toNat_le, show (1 : Word).toNat = 1 from rfl]
    omega
  have hmiddle := toNat_middle (ofModulus q) x
  rw [toNat_partialMiddle, toNat_high, toNat_low] at hmiddle
  have hquotient := toNat_quotient (ofModulus q) x
  rw [value_ofModulus hq] at hquotient
  obtain ⟨rest, hrest, hlt, -⟩ := rest_cases hq x
  exact ⟨if_neg hone, value_ofModulus hq, fits _ x, hmiddle, hquotient, quotient_mul_le hq x,
    hrest ▸ hlt, fun hq63 => toNat_reduce hq hq63 x, toNat_reduce_eq_mod_iff hq x⟩

/-- The greatest double word modulo a modulus close to `2^64`: what the quotient leaves does not fit
a word, and the answer is wrong. -/
theorem reduction_exact_cut :
    1 < (0xffffffff00000001 : Word).toNat ∧
      ((ofModulus 0xffffffff00000001).estimate (BitVec.allOnes 128)).quotient.toNat =
        (2 ^ 128 - 1) * (2 ^ 128 / 0xffffffff00000001) / 2 ^ 128 ∧
      ((ofModulus 0xffffffff00000001).reduce (BitVec.allOnes 128)).toNat ≠
        (2 ^ 128 - 1) % 0xffffffff00000001 := by
  have hq : 1 < (0xffffffff00000001 : Word).toNat := by decide
  obtain ⟨-, -, -, -, hquotient, -, -, -, hiff⟩ := reduction_exact hq (BitVec.allOnes 128)
  refine ⟨hq, hquotient, fun h => ?_⟩
  have hfits := hiff.1 h
  rw [hquotient] at hfits
  exact absurd hfits (by decide)

end WideReciprocal

end Negacyclic
