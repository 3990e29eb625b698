import Negacyclic.Lanes.Basic
import Negacyclic.Residue.Multiplier

/-!
# Butterflies

The two-word steps of the transforms, on words and on registers. Words are kept lazily reduced:
between forward layers they are below `4 * q`, between inverse layers below `2 * q`, and each
butterfly brings them back into that range by one conditional subtraction. Modulo `q`,

* `forward` takes `(x, y)` to `(x + w * y, x - w * y)`,
* `inverse` takes `(x, y)` to `(x + y, w * (x - y))`,
* `final` is the last inverse butterfly with the division by the degree multiplied in,
* `settle` takes a word below `4 * q` to its residue.

The form on registers of each does on a lawful machine in every lane what the form on words does.
-/

namespace Negacyclic.Butterfly

/-! ### On words -/

/-- The forward butterfly with root `w`. -/
def forward (p : Precision) (q : Word) (w : Multiplier) (x y : Word) : Word × Word :=
  let x := Word.reduceOnce x (2 * q)
  let t := w.mulLazy p q y
  (x + t, x + 2 * q - t)

/-- The inverse butterfly with root `w`. -/
def inverse (p : Precision) (q : Word) (w : Multiplier) (x y : Word) : Word × Word :=
  (Word.reduceOnce (x + y) (2 * q), w.mulLazy p q (x + 2 * q - y))

/-- The last inverse butterfly: the sum times `scale` and the difference times `scaleRoot`, reduced
to residues if `full`. -/
def final (p : Precision) (q : Word) (scale scaleRoot : Multiplier) (full : Bool) (x y : Word) :
    Word × Word :=
  let s := scale.mulLazy p q (Word.reduceOnce (x + y) (2 * q))
  let d := scaleRoot.mulLazy p q (x + 2 * q - y)
  if full then (Word.reduceOnce s q, Word.reduceOnce d q) else (s, d)

/-- The residue of a word below `4 * q`. -/
def settle (q x : Word) : Word :=
  Word.reduceOnce (Word.reduceOnce x (2 * q)) q

/-! ### On registers -/

variable {L : Nat}

/-- One multiplier for each lane. -/
structure Multipliers (L : Nat) where
  values : Register L
  quotients : Register L

/-- The same multiplier in every lane. -/
def splat (R : Lanes L) (w : Multiplier) : Multipliers L :=
  ⟨R.splat w.value, R.splat w.quotient⟩

/-- The `L` multipliers of a table from position `pos` on. -/
def loadMultipliers (L : Nat) (table : Array Multiplier) (pos : Nat) : Multipliers L where
  values := Vector.ofFn fun i => (table.getD (pos + i) default).value
  quotients := Vector.ofFn fun i => (table.getD (pos + i) default).quotient

/-- The forward butterfly on registers. -/
def forwardLanes (R : Lanes L) (p : Precision) (q : Word) (w : Multipliers L)
    (x y : Register L) : Register L × Register L :=
  let twice := R.splat (2 * q)
  let x := R.reduceOnce x twice
  let t := R.mulLazy p y w.values w.quotients (R.splat q)
  (R.add x t, R.sub (R.add x twice) t)

/-- The inverse butterfly on registers. -/
def inverseLanes (R : Lanes L) (p : Precision) (q : Word) (w : Multipliers L)
    (x y : Register L) : Register L × Register L :=
  let twice := R.splat (2 * q)
  (R.reduceOnce (R.add x y) twice,
    R.mulLazy p (R.sub (R.add x twice) y) w.values w.quotients (R.splat q))

/-- The last inverse butterfly on registers. -/
def finalLanes (R : Lanes L) (p : Precision) (q : Word) (scale scaleRoot : Multiplier)
    (full : Bool) (x y : Register L) : Register L × Register L :=
  let modulus := R.splat q
  let twice := R.splat (2 * q)
  let scale := splat R scale
  let scaleRoot := splat R scaleRoot
  let s := R.mulLazy p (R.reduceOnce (R.add x y) twice) scale.values scale.quotients modulus
  let d := R.mulLazy p (R.sub (R.add x twice) y) scaleRoot.values scaleRoot.quotients modulus
  if full then (R.reduceOnce s modulus, R.reduceOnce d modulus) else (s, d)

/-- The residues of a register of words below `4 * q`. -/
def settleLanes (R : Lanes L) (q : Word) (x : Register L) : Register L :=
  R.reduceOnce (R.reduceOnce x (R.splat (2 * q))) (R.splat q)

end Negacyclic.Butterfly
