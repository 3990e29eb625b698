import Mathlib.Data.ZMod.Basic
import Mathlib.Tactic.LinearCombination
import Negacyclic.Residue.Basic

/-!
# Residue classes of words

`residue q x` is the class of the word `x` in `ZMod q`. Words that the transforms and the kernels
handle are representatives that need not be reduced, so what an operation computes is said in two
parts: a bound on the word (a statement on `toNat`) and its class (a statement on `residue`). The
lemmas here give the class of each word operation, under the bound that keeps it from wrapping.
-/

namespace Negacyclic

variable {q : Word}

/-- The class of a word modulo `q`. -/
def residue (q x : Word) : ZMod q.toNat :=
  (x.toNat : ZMod q.toNat)

/-- A modulus above 1 is not zero. -/
theorem ne_zero_of_one_lt (hq : 1 < q.toNat) : q ≠ 0 := by
  rintro rfl
  exact absurd hq (by decide)

/-- The comparison with 1 on words is that on numbers. -/
theorem not_le_one_iff : ¬q ≤ 1 ↔ 1 < q.toNat := by
  rw [UInt64.not_le, UInt64.lt_iff_toNat_lt]
  rfl

/-- Two words have one class exactly if they leave the same remainder. -/
theorem residue_eq_residue_iff {x y : Word} :
    residue q x = residue q y ↔ x.toNat % q.toNat = y.toNat % q.toNat :=
  ZMod.natCast_eq_natCast_iff' _ _ _

/-- A reduced word is determined by its class. -/
theorem toNat_eq_mod_of_residue_eq {x y : Word} (hx : x.toNat < q.toNat)
    (h : residue q x = residue q y) : x.toNat = y.toNat % q.toNat := by
  rw [residue_eq_residue_iff] at h
  rw [← h, Nat.mod_eq_of_lt hx]

/-- A word below the modulus is determined by its class. -/
theorem eq_of_residue_eq {x y : Word} (hx : x.toNat < q.toNat) (hy : y.toNat < q.toNat)
    (h : residue q x = residue q y) : x = y := by
  apply UInt64.toNat_inj.1
  rw [toNat_eq_mod_of_residue_eq hx h, Nat.mod_eq_of_lt hy]

/-- A word that represents the class of a natural number. -/
theorem residue_eq_natCast {x : Word} {n : ℕ} (h : x.toNat % q.toNat = n % q.toNat) :
    residue q x = (n : ZMod q.toNat) :=
  (ZMod.natCast_eq_natCast_iff' _ _ _).2 h

/-- A reduced word in the class of a natural number is its remainder. -/
theorem toNat_eq_mod_of_residue_eq_natCast {x : Word} {n : ℕ} (hx : x.toNat < q.toNat)
    (h : residue q x = (n : ZMod q.toNat)) : x.toNat = n % q.toNat := by
  rw [← (ZMod.natCast_eq_natCast_iff' _ _ _).1 h, Nat.mod_eq_of_lt hx]

/-- The class of a number that fits a word. -/
theorem residue_ofNat {n : ℕ} (h : n < 2 ^ 64) :
    residue q (.ofNat n) = (n : ZMod q.toNat) := by
  rw [residue, UInt64.toNat_ofNat', Nat.mod_eq_of_lt h]

/-- Two numbers whose classes are inverse to each other. -/
theorem natCast_mul_eq_one_iff (hq : 1 < q.toNat) {m n : ℕ} :
    (m : ZMod q.toNat) * n = 1 ↔ m * n % q.toNat = 1 := by
  rw [← Nat.cast_mul, ← Nat.cast_one, ZMod.natCast_eq_natCast_iff', Nat.mod_eq_of_lt hq]

/-- The word that holds the residue of an integer. -/
theorem toNat_ofNat_emod (hq : 0 < q.toNat) (c : ℤ) :
    ((UInt64.ofNat (c % q.toNat).toNat).toNat : ℤ) = c % q.toNat := by
  have hpos : 0 < (q.toNat : ℤ) := by omega
  have hnonneg := Int.emod_nonneg c hpos.ne'
  have hlt := Int.emod_lt_of_pos c hpos
  have hword := q.toNat_lt
  rw [UInt64.toNat_ofNat', Nat.mod_eq_of_lt (by omega), Int.toNat_of_nonneg hnonneg]

/-- The class of the word 1. -/
@[simp] theorem residue_one : residue q 1 = 1 := by
  simp [residue]

/-- The modulus is in the class of zero. -/
@[simp] theorem residue_self : residue q q = 0 := by
  simp [residue]

/-! ### Sums and differences that do not wrap -/

/-- A sum that is below `2^64` does not wrap. -/
theorem toNat_add_of_lt {x y : Word} (h : x.toNat + y.toNat < 2 ^ 64) :
    (x + y).toNat = x.toNat + y.toNat := by
  rw [UInt64.toNat_add, Nat.mod_eq_of_lt h]

namespace Word

/-- The sum of two words is that of the integers. -/
def AddExact (x y : Word) : Prop :=
  (x + y).toNat = x.toNat + y.toNat

/-- The difference of two words is that of the integers. -/
def SubExact (x y : Word) : Prop :=
  ((x - y).toNat : ℤ) = x.toNat - y.toNat

instance (x y : Word) : Decidable (AddExact x y) :=
  inferInstanceAs (Decidable (_ = _))

instance (x y : Word) : Decidable (SubExact x y) :=
  inferInstanceAs (Decidable (_ = _))

/-- A sum that is below `2^64` is that of the integers. -/
theorem addExact_of_lt {x y : Word} (h : x.toNat + y.toNat < 2 ^ 64) : AddExact x y :=
  toNat_add_of_lt h

/-- The difference with a word that is no greater is that of the integers. -/
theorem subExact_of_le {x y : Word} (h : y.toNat ≤ x.toNat) : SubExact x y := by
  unfold SubExact
  rw [UInt64.toNat_sub_of_le _ _ (UInt64.le_iff_toNat_le.2 h)]
  omega

/-! ### Arithmetic that can fail -/

/-- The sum of two words, if it is a word. -/
def add? (x y : Word) : Option Word :=
  if AddExact x y then some (x + y) else none

/-- The difference of two words, if it is a word. -/
def sub? (x y : Word) : Option Word :=
  if SubExact x y then some (x - y) else none

/-- The remainder of two words; there is none by zero. -/
def rem? (x y : Word) : Option Word :=
  if y = 0 then none else some (x % y)

/-- A word that is no greater can be subtracted. -/
theorem sub?_eq_some {x y : Word} (h : y ≤ x) : sub? x y = some (x - y) :=
  if_pos (subExact_of_le (UInt64.le_iff_toNat_le.1 h))

/-- A positive word divides. -/
theorem rem?_eq_some {x y : Word} (h : 0 < y) : rem? x y = some (x % y) :=
  if_neg (UInt64.pos_iff_ne_zero.1 h)

/-- A sum below `2^64` is there, with its value. -/
theorem add?_of_lt {x y : Word} (h : x.toNat + y.toNat < 2 ^ 64) :
    ∃ z, add? x y = some z ∧ z.toNat = x.toNat + y.toNat :=
  ⟨x + y, if_pos (addExact_of_lt h), addExact_of_lt h⟩

/-- The difference with a word that is no greater is there, with its value. -/
theorem sub?_of_le {x y : Word} (h : y.toNat ≤ x.toNat) :
    ∃ z, sub? x y = some z ∧ z.toNat = x.toNat - y.toNat :=
  have hle := UInt64.le_iff_toNat_le.2 h
  ⟨x - y, sub?_eq_some hle, UInt64.toNat_sub_of_le _ _ hle⟩

/-- The remainder by a positive word is there, with its value. -/
theorem rem?_of_pos {x y : Word} (h : 0 < y.toNat) :
    ∃ z, rem? x y = some z ∧ z.toNat = x.toNat % y.toNat :=
  ⟨x % y, rem?_eq_some (UInt64.lt_iff_toNat_lt.2 h), UInt64.toNat_mod x y⟩

/-- A remainder that is there is the remainder of the words. -/
theorem eq_mod_of_rem?_eq {x y z : Word} (h : rem? x y = some z) : z = x % y := by
  unfold rem? at h
  split at h
  · cases h
  · exact (Option.some_inj.1 h).symm

/-- Only a word that is no greater can be subtracted. -/
theorem le_of_sub?_eq {x y z : Word} (h : sub? x y = some z) : y ≤ x := by
  unfold sub? at h
  split at h
  · rename_i hexact
    unfold SubExact at hexact
    exact UInt64.le_iff_toNat_le.2 (by omega)
  · cases h

end Word

/-- The class of a sum that does not wrap. -/
theorem residue_add {x y : Word} (h : x.toNat + y.toNat < 2 ^ 64) :
    residue q (x + y) = residue q x + residue q y := by
  simp only [residue, toNat_add_of_lt h, Nat.cast_add]

/-- The class of a difference that does not wrap. -/
theorem residue_sub {x y : Word} (h : y ≤ x) :
    residue q (x - y) = residue q x - residue q y := by
  simp only [residue, UInt64.toNat_sub_of_le _ _ h, Nat.cast_sub (UInt64.le_iff_toNat_le.1 h)]

/-- Twice a modulus below `2^63` fits a word. -/
theorem toNat_twice (hq : q.toNat < 2 ^ 63) : (2 * q).toNat = 2 * q.toNat := by
  rw [UInt64.toNat_mul, show (2 : Word).toNat = 2 from rfl]
  omega

/-- Twice a modulus below `2^63` is in the class of zero. -/
theorem residue_twice (hq : q.toNat < 2 ^ 63) : residue q (2 * q) = 0 := by
  simp [residue, toNat_twice hq]

/-! ### Conditional subtraction -/

/-- Subtracting a multiple of the modulus where it is possible keeps the class. -/
theorem residue_reduceOnce {x m : Word} (hm : residue q m = 0) :
    residue q (Word.reduceOnce x m) = residue q x := by
  unfold Word.reduceOnce
  split_ifs with h
  · rw [residue_sub h, hm, sub_zero]
  · rfl

/-- One conditional subtraction brings a word below `2 * m` to below `m`. -/
theorem toNat_reduceOnce_lt {x m : Word} (h : x.toNat < 2 * m.toNat) :
    (Word.reduceOnce x m).toNat < m.toNat := by
  rw [Word.toNat_reduceOnce]
  split_ifs <;> omega

/-- One conditional subtraction reduces a word below twice the modulus. -/
theorem toNat_reduceOnce_eq_mod {x : Word} (h : x.toNat < 2 * q.toNat) :
    (Word.reduceOnce x q).toNat = x.toNat % q.toNat :=
  toNat_eq_mod_of_residue_eq (toNat_reduceOnce_lt h) (residue_reduceOnce residue_self)

/-! ### Products -/

/-- The product modulo `q` is in the class of the product. -/
theorem residue_mul (hq : q ≠ 0) (a b : Word) :
    residue q (Residue.mul q a b) = residue q a * residue q b := by
  rw [residue_eq_natCast (n := a.toNat * b.toNat), Nat.cast_mul]
  · rfl
  · rw [Residue.toNat_mul hq, Nat.mod_mod]

/-- The product modulo `q` is reduced. -/
theorem toNat_mul_lt (hq : q ≠ 0) (a b : Word) :
    (Residue.mul q a b).toNat < q.toNat := by
  rw [Residue.toNat_mul hq]
  exact Nat.mod_lt _ (UInt64.lt_iff_toNat_lt.1 (UInt64.pos_iff_ne_zero.2 hq))

end Negacyclic
