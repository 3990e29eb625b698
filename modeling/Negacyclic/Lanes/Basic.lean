import Negacyclic.Residue.Multiplier
import Negacyclic.Word.Comparison

/-!
# Registers of words

A register holds `L` words. A `Lanes L` says how a machine computes with registers of that width:
arithmetic, high products, comparison to a mask, and selection by a mask. `Lanes.Lawful` says that
each operation does in every lane what the corresponding operation does on words; code written
against a lawful machine therefore computes the same words whatever the width.

* `Lanes.reduceOnce`, `Lanes.mulLazy`, `Lanes.barrettLazy` are derived from the operations.
* `Lanes.portable L` works lane by lane with the word operations, for any width.
* `Lanes.load` and `Lanes.store` move a register between an array and a position in it.
-/

namespace Negacyclic

/-- `L` words side by side. -/
abbrev Register (L : Nat) := Vector Word L

/-- One truth value for each lane. -/
abbrev Mask (L : Nat) := Vector Bool L

/-- The operations of a machine on registers of `L` words. -/
structure Lanes (L : Nat) where
  splat : Word → Register L
  add : Register L → Register L → Register L
  sub : Register L → Register L → Register L
  mulLow : Register L → Register L → Register L
  mulHigh : Precision → Register L → Register L → Register L
  compare : Comparison → Register L → Register L → Mask L
  select : Mask L → Register L → Register L → Register L

namespace Lanes

variable {L : Nat}

/-! ### Derived operations -/

/-- `x - m` in the lanes where `x` is at least `m`, else `x`. -/
def reduceOnce (R : Lanes L) (x m : Register L) : Register L :=
  R.select (R.compare .ge x m) (R.sub x m) x

/-- In each lane a word congruent to `w * x` modulo `q`, given the quotient `r` of `w`. -/
def mulLazy (R : Lanes L) (p : Precision) (x w r q : Register L) : Register L :=
  R.sub (R.mulLow w x) (R.mulLow (R.mulHigh p r x) q)

/-- In each lane a word congruent to `x` modulo `q`, given the reciprocal `r` of `q`. -/
def barrettLazy (R : Lanes L) (x r q : Register L) : Register L :=
  R.sub x (R.mulLow (R.mulHigh .bits64 x r) q)

/-! ### Lawful machines -/

/-- Every operation acts on each lane as the operation on words. -/
structure Lawful (R : Lanes L) : Prop where
  getElem_splat (w : Word) (i : Nat) (h : i < L) : (R.splat w)[i] = w
  getElem_add (x y : Register L) (i : Nat) (h : i < L) : (R.add x y)[i] = x[i] + y[i]
  getElem_sub (x y : Register L) (i : Nat) (h : i < L) : (R.sub x y)[i] = x[i] - y[i]
  getElem_mulLow (x y : Register L) (i : Nat) (h : i < L) : (R.mulLow x y)[i] = x[i] * y[i]
  getElem_mulHigh (p : Precision) (x y : Register L) (i : Nat) (h : i < L) :
    (R.mulHigh p x y)[i] = Word.mulHigh p x[i] y[i]
  getElem_compare (c : Comparison) (x y : Register L) (i : Nat) (h : i < L) :
    (R.compare c x y)[i] = c.holds x[i] y[i]
  getElem_select (m : Mask L) (x y : Register L) (i : Nat) (h : i < L) :
    (R.select m x y)[i] = if m[i] then x[i] else y[i]

namespace Lawful

variable {R : Lanes L}

/-- The conditional subtraction acts on each lane as on words. -/
theorem getElem_reduceOnce (law : R.Lawful) (x m : Register L) (i : Nat) (h : i < L) :
    (R.reduceOnce x m)[i] = Word.reduceOnce x[i] m[i] := by
  simp [reduceOnce, Word.reduceOnce, law.getElem_select, law.getElem_compare, law.getElem_sub,
    Comparison.holds]

/-- The lazy product by a prepared word acts on each lane as on words. -/
theorem getElem_mulLazy (law : R.Lawful) (p : Precision) (x w r q : Register L) (i : Nat)
    (h : i < L) : (R.mulLazy p x w r q)[i] = Word.mulLazy p x[i] w[i] r[i] q[i] := by
  simp [mulLazy, Word.mulLazy, law.getElem_sub, law.getElem_mulLow, law.getElem_mulHigh]

/-- The lazy reduction by a reciprocal acts on each lane as on words. -/
theorem getElem_barrettLazy (law : R.Lawful) (x r q : Register L) (i : Nat) (h : i < L) :
    (R.barrettLazy x r q)[i] = Word.barrettLazy x[i] r[i] q[i] := by
  simp [barrettLazy, Word.barrettLazy, law.getElem_sub, law.getElem_mulLow, law.getElem_mulHigh]

end Lawful

/-! ### The portable machine -/

/-- Registers of any width, worked lane by lane with the operations on words. -/
def portable (L : Nat) : Lanes L where
  splat w := Vector.replicate L w
  add x y := Vector.zipWith (· + ·) x y
  sub x y := Vector.zipWith (· - ·) x y
  mulLow x y := Vector.zipWith (· * ·) x y
  mulHigh p x y := Vector.zipWith (Word.mulHigh p) x y
  compare c x y := Vector.zipWith c.holds x y
  select m x y := Vector.ofFn fun i => if m[i] then x[i] else y[i]

/-- Working lane by lane is lawful by its definition, at every width. Other machines are measured
against this one. -/
theorem portable_lawful (L : Nat) : (portable L).Lawful := by
  constructor <;> intros <;> simp [portable]

/-! ### Registers in arrays -/

/-- The `L` words of `a` from position `pos` on; zeros beyond its end. -/
def load (L : Nat) (a : Array Word) (pos : Nat) : Register L :=
  Vector.ofFn fun i => a.getD (pos + i) 0

/-- Put the words of a register into `a` from position `pos` on; what does not fit is dropped. -/
def store (a : Array Word) (pos : Nat) (x : Register L) : Array Word :=
  Nat.fold L (fun i h a => a.setIfInBounds (pos + i) x[i]) a

end Lanes

end Negacyclic
