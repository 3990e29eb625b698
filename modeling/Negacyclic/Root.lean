import Negacyclic.Residue.Basic
import Negacyclic.Word.Bits

/-!
# Roots of unity

Primitive roots of unity whose order is a power of two. Such a root is recognised by one power:
its half-order power is `-1`. `leastPrimitiveRoot?` finds one root as a power of a small base and
then takes the least of its odd powers, which for a prime modulus are all the roots of that order.
-/

namespace Negacyclic

/-- Whether `n` can be the order of a root here: a power of two from 2 on. -/
def isRootOrder (n : Nat) : Bool :=
  2 ≤ n && isPowerOfTwo n

/-- Whether `root` is a primitive root of unity of the given order modulo `q`. -/
def isPrimitiveRoot (q root : Word) (order : Nat) : Bool :=
  root != 0 && isRootOrder order && Residue.pow q root (order / 2) == q - 1

/-- As `isPrimitiveRoot`; a modulus of zero has no powers to look at. -/
def isPrimitiveRoot? (q root : Word) (order : Nat) : Option Bool :=
  if q = 0 ∧ root ≠ 0 ∧ isRootOrder order then none else some (isPrimitiveRoot q root order)

/-- The first primitive root among the `cofactor`-th powers of `x`, `x + 1`, ... below `q`. -/
def findRoot? (q : Word) (order cofactor x : Nat) : Option Word :=
  if x < q.toNat then
    let r := Residue.pow q (.ofNat x) cofactor
    if isPrimitiveRoot q r order then some r else findRoot? q order cofactor (x + 1)
  else
    none
termination_by q.toNat - x

/-- The least of `least` and the first `k` terms that start at `current` and grow by the factor
`square`. -/
def leastOddPower (q square : Word) : (k : Nat) → (current least : Word) → Word
  | 0, _, least => least
  | k + 1, current, least =>
      leastOddPower q square k (Residue.mul q current square)
        (if current < least then current else least)

/-- The least primitive root of unity of the given order modulo `q`, if one is found. For a
composite modulus the odd powers of the root found need not be all roots of that order. -/
def leastPrimitiveRoot? (q : Word) (order : Nat) : Option Word := do
  guard (isRootOrder order ∧ 2 < q ∧ (q.toNat - 1) % order = 0)
  let root ← findRoot? q order ((q.toNat - 1) / order) 2
  return leastOddPower q (Residue.mul q root root) (order / 2) root root

end Negacyclic
