import Negacyclic.Lanes.Eight
import Negacyclic.Transform.Butterfly

/-!
# Layers

A layer of stride `t` pairs each word of an array with the one `t` places on. The array falls into
groups of `2 * t` words, one root to a group, and the words of the lower half of a group are paired
with those of the upper half. Butterflies are counted through from the first group on.

* `Layer.onWords` computes one butterfly at a time.
* `Layer.onRegisters` computes `L` consecutive butterflies of a group at a time, for a stride that
  `L` divides.
* `Layer.onChunks` is for strides 4, 2 and 1: it takes sixteen consecutive words at a time, brings
  the lower and the upper words of their eight butterflies into one register each, and puts the
  results back in place.

Each layer computes all butterflies first and then says for each position which of their words it
receives, so the word at a position is read off the definition.
-/

namespace Negacyclic.Layer

/-! ### Positions and butterflies -/

/-- The butterfly that position `i` takes part in. -/
def butterflyAt (t i : Nat) : Nat :=
  i / (2 * t) * t + i % t

/-- Whether position `i` is in the lower half of its group. -/
def isLower (t i : Nat) : Bool :=
  i % (2 * t) < t

/-- The lower position of butterfly `k`. -/
def lowerOf (t k : Nat) : Nat :=
  k / t * (2 * t) + k % t

/-! ### Layers of any stride -/

/-- One layer on words; butterfly `f` with the root of its group. -/
def onWords (f : Multiplier → Word → Word → Word × Word) (t : Nat) (roots : Array Multiplier)
    (a : Array Word) : Array Word :=
  let pairs := Array.ofFn fun k : Fin (a.size / 2) =>
    let low := lowerOf t k
    f (roots.getD (k / t) default) (a.getD low 0) (a.getD (low + t) 0)
  Array.ofFn fun i : Fin a.size =>
    let pair := pairs.getD (butterflyAt t i) (0, 0)
    if isLower t i then pair.1 else pair.2

/-- One layer on registers; `L` butterflies at a time with the root of their group. -/
def onRegisters {L : Nat} (R : Lanes L)
    (f : Butterfly.Multipliers L → Register L → Register L → Register L × Register L) (t : Nat)
    (roots : Array Multiplier) (a : Array Word) : Array Word :=
  let pairs := Array.ofFn fun c : Fin (a.size / 2 / L) =>
    let k := c * L
    let low := lowerOf t k
    f (Butterfly.splat R (roots.getD (k / t) default)) (Lanes.load L a low)
      (Lanes.load L a (low + t))
  Array.ofFn fun i : Fin a.size =>
    let k := butterflyAt t i
    let pair := pairs.getD (k / L) (R.splat 0, R.splat 0)
    let x := if isLower t i then pair.1 else pair.2
    x.toArray.getD (k % L) 0

/-- One function on registers over an array whose size is a multiple of `L`. -/
def mapRegisters {L : Nat} (R : Lanes L) (f : Register L → Register L) (a : Array Word) :
    Array Word :=
  let chunks := Array.ofFn fun c : Fin (a.size / L) => f (Lanes.load L a (c * L))
  Array.ofFn fun i : Fin a.size =>
    (chunks.getD (i / L) (R.splat 0)).toArray.getD (i % L) 0

/-! ### Layers of small stride -/

/-- How sixteen words are brought into two registers of butterfly operands and back. -/
structure Shuffle where
  /-- The lower operands among the sixteen words. -/
  lower : Lanes.Selection
  /-- The upper operands among the sixteen words. -/
  upper : Lanes.Selection
  /-- The first eight words of the result among the two outputs. -/
  first : Lanes.Selection
  /-- The last eight words of the result among the two outputs. -/
  second : Lanes.Selection

/-- The shuffle for stride 4. -/
def stride4 : Shuffle where
  lower := #v[0, 1, 2, 3, 8, 9, 10, 11]
  upper := #v[4, 5, 6, 7, 12, 13, 14, 15]
  first := #v[0, 1, 2, 3, 8, 9, 10, 11]
  second := #v[4, 5, 6, 7, 12, 13, 14, 15]

/-- The shuffle for stride 2. -/
def stride2 : Shuffle where
  lower := #v[0, 1, 4, 5, 8, 9, 12, 13]
  upper := #v[2, 3, 6, 7, 10, 11, 14, 15]
  first := #v[0, 1, 8, 9, 2, 3, 10, 11]
  second := #v[4, 5, 12, 13, 6, 7, 14, 15]

/-- The shuffle for stride 1. -/
def stride1 : Shuffle where
  lower := #v[0, 2, 4, 6, 8, 10, 12, 14]
  upper := #v[1, 3, 5, 7, 9, 11, 13, 15]
  first := #v[0, 8, 1, 9, 2, 10, 3, 11]
  second := #v[4, 12, 5, 13, 6, 14, 7, 15]

/-- One layer on chunks of sixteen words, whose eight butterflies take the next eight entries of
the table. -/
def onChunks (s : Shuffle)
    (f : Butterfly.Multipliers 8 → Register 8 → Register 8 → Register 8 × Register 8)
    (roots : Array Multiplier) (a : Array Word) : Array Word :=
  let chunks := Array.ofFn fun c : Fin (a.size / 16) =>
    let u := Lanes.load 8 a (16 * c)
    let v := Lanes.load 8 a (16 * c + 8)
    let (x, y) := f (Butterfly.loadMultipliers 8 roots (8 * c)) (Lanes.pick s.lower u v)
      (Lanes.pick s.upper u v)
    Lanes.pick s.first x y ++ Lanes.pick s.second x y
  Array.ofFn fun i : Fin a.size =>
    (chunks.getD (i / 16) (Vector.replicate 16 0)).toArray.getD (i % 16) 0

end Negacyclic.Layer
