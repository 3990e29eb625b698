/-!
# Words

A word is an unsigned 64-bit integer; its arithmetic wraps. This file holds the three things the
rest of the library does with words besides `+`, `-` and `*`:

* `Precision`, the three scales `2^32`, `2^52`, `2^64` at which reciprocals are stored;
* `Word.mulHigh`, the high part of a product at such a scale, defined through the exact product
  of the two values, so that `Word.toNat_mulHigh` is all one needs to know of it;
* `Word.reduceOnce`, one conditional subtraction.
-/

namespace Negacyclic

-- A power of natural numbers is the core one, whatever else a module imports.
attribute [instance (high)] instPowNat

/-- An unsigned 64-bit integer with wrapping arithmetic. -/
abbrev Word := UInt64

/-! ### Precisions -/

/-- The scale `2^bits` at which a reciprocal is stored. -/
inductive Precision where
  | bits32
  | bits52
  | bits64
  deriving DecidableEq, Repr

namespace Precision

/-- The exponent of the scale. -/
def bits : Precision → Nat
  | bits32 => 32
  | bits52 => 52
  | bits64 => 64

/-- The precision with a given exponent, if there is one. -/
def ofBits? : Nat → Option Precision
  | 32 => some bits32
  | 52 => some bits52
  | 64 => some bits64
  | _ => none

/-- A precision is found again by its number of bits. -/
@[simp] theorem ofBits?_bits (p : Precision) : ofBits? p.bits = some p := by
  cases p <;> rfl

/-- The precision that is found for a number of bits has that number. -/
theorem bits_of_ofBits? {n : Nat} {p : Precision} (h : ofBits? n = some p) : p.bits = n := by
  unfold ofBits? at h
  split at h <;> cases h <;> rfl

/-- The narrowest precision that leaves two spare bits above the modulus. -/
def forModulus (q : Word) : Precision :=
  if q.toNat < 2 ^ (30 : Nat) then bits32
  else if q.toNat < 2 ^ (50 : Nat) then bits52
  else bits64

end Precision

namespace Word

/-! ### High products and conditional subtraction -/

/-- The low 64 bits of `⌊x * y / 2^p⌋`. -/
def mulHigh (p : Precision) (x y : Word) : Word :=
  .ofNat ((x.toNat * y.toNat) >>> p.bits)

/-- The high product is the exact product shifted down, cut to a word. -/
theorem toNat_mulHigh (p : Precision) (x y : Word) :
    (mulHigh p x y).toNat = x.toNat * y.toNat / 2 ^ p.bits % 2 ^ (64 : Nat) := by
  simp [mulHigh, Nat.shiftRight_eq_div_pow]

/-- `x - m` if `x` is at least `m`, else `x`. -/
def reduceOnce (x m : Word) : Word :=
  if m ≤ x then x - m else x

/-- The conditional subtraction as a natural number. It never goes below zero. -/
theorem toNat_reduceOnce (x m : Word) :
    (reduceOnce x m).toNat = if m.toNat ≤ x.toNat then x.toNat - m.toNat else x.toNat := by
  unfold reduceOnce
  by_cases h : m ≤ x
  · rw [if_pos h, if_pos (UInt64.le_iff_toNat_le.1 h), UInt64.toNat_sub_of_le _ _ h]
  · rw [if_neg h, if_neg (fun h' => h (UInt64.le_iff_toNat_le.2 h'))]

end Word

end Negacyclic
