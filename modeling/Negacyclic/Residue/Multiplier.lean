import Negacyclic.Word.Basic

/-!
# Multipliers

A `Multiplier` is a residue `w` together with `⌊w * 2^p / q⌋`, by which `w * x mod q` is computed
with two word products and no division. `Word.mulLazy` and `Word.barrettLazy` leave a word that is
congruent to the answer and below `2 * q`; the products wrap, and only their difference is small.
The first is meant for `x < 2^p`, the second for any word.
-/

namespace Negacyclic

/-- A residue and its quotient at some scale. -/
structure Multiplier where
  /-- The residue. -/
  value : Word
  /-- `⌊value * 2^p / q⌋` for the precision `p` and modulus `q` it was made for. -/
  quotient : Word
  deriving DecidableEq, Repr, Inhabited

namespace Multiplier

/-- The multiplier of the residue `w` modulo `q` at precision `p`. -/
def ofResidue (p : Precision) (q w : Word) : Multiplier :=
  ⟨w, .ofNat ((w.toNat <<< p.bits) / q.toNat)⟩

/-- The multiplier of `w` at the scale `2^bits`, if there is such a precision and `w` is a residue
modulo `q`. -/
def of? (bits : Nat) (q w : Word) : Option Multiplier := do
  let p ← Precision.ofBits? bits
  if w < q then some (ofResidue p q w) else none

end Multiplier

namespace Word

/-- `⌊2^64 / q⌋`. -/
def reciprocal (q : Word) : Word :=
  (Multiplier.ofResidue .bits64 q 1).quotient

/-- A word congruent to `w * x` modulo `q`, given the quotient `r` of `w` at precision `p`. -/
def mulLazy (p : Precision) (x w r q : Word) : Word :=
  w * x - mulHigh p r x * q

/-- A word congruent to `x` modulo `q`, given the reciprocal `r` of `q`. -/
def barrettLazy (x r q : Word) : Word :=
  x - mulHigh .bits64 x r * q

end Word

/-- A word congruent to `m.value * x` modulo `q`. -/
def Multiplier.mulLazy (m : Multiplier) (p : Precision) (q x : Word) : Word :=
  Word.mulLazy p x m.value m.quotient q

end Negacyclic
