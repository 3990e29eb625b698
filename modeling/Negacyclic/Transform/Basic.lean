import Negacyclic.Fault
import Negacyclic.Residue.Basic
import Negacyclic.Residue.Inverse
import Negacyclic.Transform.Replicated
import Negacyclic.Word.Bits

/-!
# Transforms and their tables

A `Transform` is a size `n`, a modulus `q` and a primitive `2 * n`-th root of unity `psi`, together
with the tables that its layers read. Each table entry is a `Multiplier` at the precision of the
transform.

* Entry `i` of `roots` is `psi` to the power of `i` reversed: a layer with `m` groups reads the
  entries from `m` to `2 * m`.
* `inverseRoots` holds the inverses of `roots`, first that of entry 0 and then those of the layers
  with `n / 2`, `n / 4`, ..., 1 groups: a layer with `m` groups reads the entries from
  `n - 2 * m + 1` on.
* `scale` is the inverse of `n`, and `scaleRoot` the same times the last entry of `inverseRoots`;
  the last inverse layer multiplies by them.
-/

namespace Negacyclic

/-- A negacyclic transform with its tables. -/
structure Transform where
  /-- The number of words it transforms. -/
  degree : Nat
  modulus : Word
  /-- The scale of the quotients in the tables. -/
  precision : Precision
  /-- The primitive root of unity of order `2 * degree`. -/
  root : Word
  roots : Array Multiplier
  inverseRoots : Array Multiplier
  /-- The inverse of the degree. -/
  scale : Multiplier
  /-- The inverse of the degree times the root of the last inverse layer. -/
  scaleRoot : Multiplier
  replicated : Replicated

namespace Transform

/-- The greatest size of a transform. -/
def maxDegree : Nat := 2 ^ (20 : Nat)

/-! ### Contents of the tables -/

/-- The first `2^k` powers of `psi` in reversed order. The lower half of the table holds the even
powers, in the order in which the powers of the square of `psi` have in the table of half the
size, and the upper half the same times `psi`. -/
def reversedPowers (q psi : Word) : (k : Nat) → Array Word
  | 0 => #[1]
  | k + 1 =>
      let even := reversedPowers q (Residue.mul q psi psi) k
      even ++ even.map fun w => Residue.mul q w psi

/-- The inverse of `x` modulo `q`. -/
def invert (q x : Word) : Except Fault Word :=
  match Residue.inverse? q x with
  | some y => .ok y
  | none => .error (.notInvertible x q)

/-- The entries of a table of `2^k` words in the order in which the inverse layers read them: the
first entry, then the upper half, the half below it, and so on. -/
def inverseOrder (k : Nat) (table : Array Word) : Array Word :=
  (List.range k).reverse.foldl (fun out j => out ++ table.extract (2 ^ j) (2 ^ (j + 1)))
    (table.extract 0 1)

/-- The transform of size `n` modulo `q` with the root `psi`. Two residues have to be inverted, the
root and the size; the inverses of the powers of `psi` are the powers of its inverse. -/
def ofTables (n : Nat) (q psi : Word) (p : Precision) : Except Fault Transform := do
  let k := n.log2
  let multiplier := Multiplier.ofResidue p q
  let inverseRoot ← invert q psi
  let scale ← invert q (.ofNat n)
  let roots := (reversedPowers q psi k).map multiplier
  let inverseRoots := (inverseOrder k (reversedPowers q inverseRoot k)).map multiplier
  let scaleRoot := Residue.mul q scale (inverseRoots.getD (n - 1) default).value
  return {
    degree := n, modulus := q, precision := p, root := psi
    roots, inverseRoots
    scale := multiplier scale, scaleRoot := multiplier scaleRoot
    replicated := Replicated.ofTables n roots inverseRoots }

end Transform

end Negacyclic
