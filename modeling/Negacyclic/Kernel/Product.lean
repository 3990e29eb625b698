import Negacyclic.Kernel.Sum
import Negacyclic.Residue.Multiplier
import Negacyclic.Residue.WideReciprocal

/-!
# Products

`a * b mod q` for two arrays, and `a * s + c mod q` for an array, a word and, if wanted, a second
array. The modulus is below `2^62` and the operands are below `factor * q` for a factor of 1, 2 or
4, so that even four times the modulus fits a word.

The product of two arrays reduces the exact double word of each pair. The product with a word
brings the elements below `q` by one or two conditional subtractions and then uses the quotient of
the word at 64 bits.
-/

namespace Negacyclic.Kernel

/-- The input factors of a product. -/
def productFactors : List Word :=
  [1, 2, 4]

/-- `a * b mod q` for operands below `factor * q`. -/
def mul (q factor : Word) : Kernel 2 where
  requirements m xs :=
    .factor .input factor productFactors :: 
      binaryRequirements q 62 factor.toNat m (xs.get first) (xs.get second)
  rule :=
    let r := WideReciprocal.ofModulus q
    .wordwise fun xs => r.mul (xs.get first) (xs.get second)

/-- The residue of a term that is below `factor * q`. -/
def reduceInput {n : Nat} (q factor : Word) (x : Term n) : Term n :=
  if factor = 1 then x
  else if factor = 2 then .reduceOnce x (.word q)
  else .reduceOnce (.reduceOnce x (.word (2 * q))) (.word q)

/-- `x * s mod q` for a term below `factor * q`. -/
def scaleTerm {n : Nat} (q s factor : Word) (x : Term n) : Term n :=
  let m := Multiplier.ofResidue .bits64 q (s % q)
  .reduceOnce (.mulLazy .bits64 (reduceInput q factor x) (.word m.value) (.word m.quotient)
    (.word q)) (.word q)

/-- What is asked of the multiplicand and the multiplier. -/
def scaleRequirements (q s factor : Word) (resultSize : Nat) (a : Array Word) :
    List Requirement :=
  [.nonEmpty a, .size .result a.size resultSize, .modulus q 62,
    .factor .input factor productFactors,
    .elements .multiplicand a (factor.toNat * q.toNat),
    .scalar .multiplier s (factor.toNat * q.toNat)]

/-- `a * s mod q`. -/
def scale (q s factor : Word) : Kernel 1 where
  requirements m xs := scaleRequirements q s factor m (xs.get only)
  rule := .term (scaleTerm q s factor (.input only))

/-- `a * s + c mod q`. -/
def scaleAdd (q s factor : Word) : Kernel 2 where
  requirements m xs :=
    scaleRequirements q s factor m (xs.get first) ++
      [.size .addend (xs.get first).size (xs.get second).size,
        .elements .addend (xs.get second) (factor.toNat * q.toNat)]
  rule :=
    .term (.reduceOnce
      (.add (scaleTerm q s factor (.input first)) (reduceInput q factor (.input second)))
      (.word q))

end Negacyclic.Kernel
