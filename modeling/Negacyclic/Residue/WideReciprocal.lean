import Negacyclic.Word.Basic

/-!
# Reduction of double words

A `WideReciprocal` holds `⌊2^128 / q⌋` in two words and reduces a double word by it. The quotient
`⌊x * ⌊2^128 / q⌋ / 2^128⌋` is put together from the four products of the words of `x` and of the
reciprocal. `Estimate` names the values on the way: of all sums only `middle` can exceed a double
word, and its overflow is carried into the quotient.

The remainder is cut to a word before the last conditional subtraction. For a modulus above `2^63`
it can be as large as `2 * q - 1`, which need not fit; the answer is then what is left of it.
-/

namespace Negacyclic

/-- An unsigned 128-bit integer with wrapping arithmetic. -/
abbrev DoubleWord := BitVec 128

namespace DoubleWord

/-- A word as a double word. -/
def ofWord (x : Word) : DoubleWord :=
  x.toBitVec.setWidth 128

/-- The exact product of two words. -/
def product (x y : Word) : DoubleWord :=
  ofWord x * ofWord y

/-- The high word, as a double word. -/
def high (x : DoubleWord) : DoubleWord :=
  x >>> 64

/-- The low word, as a double word. -/
def low (x : DoubleWord) : DoubleWord :=
  (x.setWidth 64).setWidth 128

/-- The low word. -/
def toWord (x : DoubleWord) : Word :=
  ⟨x.setWidth 64⟩

end DoubleWord

/-- A modulus with `⌊2^128 / modulus⌋` in two words. -/
structure WideReciprocal where
  modulus : Word
  high : Word
  low : Word
  deriving DecidableEq, Repr

namespace WideReciprocal

/-- The reciprocal of `q`, for a modulus above 1. -/
def ofModulus (q : Word) : WideReciprocal :=
  let r := 2 ^ (128 : Nat) / q.toNat
  ⟨q, .ofNat (r / 2 ^ (64 : Nat)), .ofNat r⟩

/-- The reciprocal of `q`; a modulus of 0 or 1 has none. -/
def ofModulus? (q : Word) : Option WideReciprocal :=
  if q ≤ 1 then none else some (ofModulus q)

/-- The values from which the quotient is put together. -/
structure Estimate where
  /-- What the low by low product carries into the middle. -/
  carry : DoubleWord
  /-- The high by low product and the carry. -/
  partialMiddle : DoubleWord
  /-- Both cross products and the carry, as far as they fit. -/
  middle : DoubleWord
  /-- Whether the middle did not fit. -/
  overflow : Bool
  /-- The quotient. -/
  quotient : DoubleWord

/-- The quotient of `x` by the modulus, up to one, and how it comes about. -/
def estimate (r : WideReciprocal) (x : DoubleWord) : Estimate :=
  let rHigh := DoubleWord.ofWord r.high
  let rLow := DoubleWord.ofWord r.low
  let carry := (x.low * rLow) >>> 64
  let partialMiddle := x.high * rLow + carry
  let middle := partialMiddle + x.low * rHigh
  let overflow := BitVec.uaddOverflow partialMiddle (x.low * rHigh)
  { carry, partialMiddle, middle, overflow
    quotient :=
      x.high * rHigh + (middle >>> 64) + if overflow then DoubleWord.ofWord 1 <<< 64 else 0 }

/-- What is left of `x` after the estimated quotient, cut to a word. -/
def remainder (r : WideReciprocal) (x : DoubleWord) : Word :=
  (x - (r.estimate x).quotient * DoubleWord.ofWord r.modulus).toWord

/-- `x` reduced modulo the modulus. -/
def reduce (r : WideReciprocal) (x : DoubleWord) : Word :=
  Word.reduceOnce (r.remainder x) r.modulus

/-- `a * b` reduced modulo the modulus. -/
def mul (r : WideReciprocal) (a b : Word) : Word :=
  r.reduce (DoubleWord.product a b)

end WideReciprocal

end Negacyclic
