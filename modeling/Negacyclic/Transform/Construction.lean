import Negacyclic.Root
import Negacyclic.Transform.Basic

/-!
# Construction of transforms

A transform of size `n` modulo `q` exists for a power of two `n` from 2 to `2^20` and a prime `q`
that is 1 modulo `2 * n` and leaves two spare bits at the precision of the tables. The parameters
are looked at in that order. Three ways to choose what is left open:

* `Transform.ofModulus`: the least primitive root and the narrowest precision;
* `Transform.ofRoot`: a given root and the narrowest precision;
* `Transform.ofPrecision`: the least primitive root and a given precision.

The test for primality is their first argument, `isPrime`. It is looked at in one place, and nothing
here depends on how it works: the tables of what is built are sound for any test
(`Transform.Built.wellFormed`). That composite moduli and no others are refused for being composite
is true of a test that is right about the modulus, and is shown under that assumption.
-/

namespace Negacyclic.Transform

variable (isPrime : Word → Bool)

/-- Refuse a size that is not a power of two from 2 to the greatest. -/
def checkDegree (n : Nat) : Except Fault Unit :=
  if 2 ≤ n ∧ n ≤ maxDegree ∧ isPowerOfTwo n then .ok () else .error (.invalidDegree n)

/-- Refuse a modulus that is not in `(1, 2^bits)`. -/
def checkRange (q : Word) (bits : Nat) : Except Fault Unit :=
  if 1 < q.toNat ∧ q.toNat < 2 ^ bits then .ok () else .error (.modulusOutOfRange q bits)

/-- Refuse a modulus that is too large for the precision, not 1 modulo `2 * n`, or composite by the
test. -/
def checkModulus (n : Nat) (q : Word) (p : Precision) : Except Fault Unit := do
  checkRange q (p.bits - 2)
  if q.toNat % (2 * n) ≠ 1 then throw (.notCongruent q n)
  if !isPrime q then throw (.notPrime q)

/-- The least primitive root of order `2 * n`. -/
def leastRoot (n : Nat) (q : Word) : Except Fault Word :=
  match leastPrimitiveRoot? q (2 * n) with
  | some root => .ok root
  | none => .error (.noPrimitiveRoot (2 * n) q)

/-- The transform with the least root and the narrowest precision. -/
def ofModulus (n : Nat) (q : Word) : Except Fault Transform := do
  checkDegree n
  checkRange q 62
  let p := Precision.forModulus q
  checkModulus isPrime n q p
  ofTables n q (← leastRoot n q) p

/-- The transform with a given root and the narrowest precision. -/
def ofRoot (n : Nat) (q root : Word) : Except Fault Transform := do
  checkDegree n
  checkRange q 62
  let p := Precision.forModulus q
  checkModulus isPrime n q p
  if q ≤ root ∨ !isPrimitiveRoot q root (2 * n) then
    throw (.notPrimitiveRoot root (2 * n) q)
  ofTables n q root p

/-- The transform with the least root and the precision of a given number of bits. -/
def ofPrecision (n : Nat) (q : Word) (bits : Nat) : Except Fault Transform := do
  let some p := Precision.ofBits? bits | throw (.unsupportedPrecision bits)
  checkDegree n
  checkModulus isPrime n q p
  ofTables n q (← leastRoot n q) p

end Negacyclic.Transform
