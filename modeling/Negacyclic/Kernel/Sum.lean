import Negacyclic.Kernel.Basic

/-!
# Sums and differences

`a + b` and `a - b` modulo `q < 2^63` for arrays of residues, and the same with one word in place
of the second array. No sum of two residues exceeds a word, so one comparison settles each
element: a sum is compared with `q`, a difference is taken as it wraps and `q` is added back where
`a < b`. The sum with a scalar compares with `q - s` beforehand.
-/

namespace Negacyclic.Kernel

/-- What is asked of two arrays with elements below `factor * q`. -/
def binaryRequirements (q : Word) (bits factor : Nat) (resultSize : Nat) (a b : Array Word) :
    List Requirement :=
  [.nonEmpty a, .size .result a.size resultSize, .size .right a.size b.size, .modulus q bits,
    .elements .left a (factor * q.toNat), .elements .right b (factor * q.toNat)]

/-- What is asked of an array of residues and one residue. -/
def scalarRequirements (q s : Word) (resultSize : Nat) (a : Array Word) : List Requirement :=
  [.nonEmpty a, .size .result a.size resultSize, .modulus q 63, .elements .left a q.toNat,
    .scalar .scalar s q.toNat]

/-- The difference of two terms modulo `q`. -/
def subTerm {n : Nat} (q : Word) (x y : Term n) : Term n :=
  .select .ge x y (.sub x y) (.add (.sub x y) (.word q))

/-- `a + b mod q`. -/
def add (q : Word) : Kernel 2 where
  requirements m xs := binaryRequirements q 63 1 m (xs.get first) (xs.get second)
  rule := .term (.reduceOnce (.add (.input first) (.input second)) (.word q))

/-- `a - b mod q`. -/
def sub (q : Word) : Kernel 2 where
  requirements m xs := binaryRequirements q 63 1 m (xs.get first) (xs.get second)
  rule := .term (subTerm q (.input first) (.input second))

/-- `a + s mod q`. -/
def addScalar (q s : Word) : Kernel 1 where
  requirements m xs := scalarRequirements q s m (xs.get only)
  rule :=
    let gap := .word (q - s)
    .term (.select .ge (.input only) gap (.sub (.input only) gap) (.add (.input only) (.word s)))

/-- `a - s mod q`. -/
def subScalar (q s : Word) : Kernel 1 where
  requirements m xs := scalarRequirements q s m (xs.get only)
  rule := .term (subTerm q (.input only) (.word s))

end Negacyclic.Kernel
