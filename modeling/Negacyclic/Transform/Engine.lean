import Negacyclic.Transform.Basic
import Negacyclic.Transform.Layer

/-!
# Engines

An `Engine` runs the layers of a transform. It says how narrow a layer can be to fill its registers
and how it runs the layers that are narrower than that; which layers run, on what and with which
roots is the business of the network.

* `Engine.portable` works on words. All its layers fill a register.
* `Engine.eightLane` works on registers of eight words. Layers of stride 4, 2 and 1 do not fill
  them and are run on chunks of sixteen words with the replicated tables.

A layer refuses to run where its stride, its roots and its words do not fit together.
-/

namespace Negacyclic

/-! ### Blocks -/

/-- One of the `2^depth` equal parts into which the words of a transform fall. -/
structure Block where
  depth : Nat
  /-- The number of the block among those of its depth. -/
  index : Nat
  deriving DecidableEq, Repr

namespace Block

/-- The whole transform. -/
def whole : Block := ⟨0, 0⟩

/-- The lower half of a block. -/
def lower (B : Block) : Block := ⟨B.depth + 1, 2 * B.index⟩

/-- The upper half of a block. -/
def upper (B : Block) : Block := ⟨B.depth + 1, 2 * B.index + 1⟩

/-- The entry of the forward table where the roots of a layer with `m` groups in this block
start. -/
def forwardStart (B : Block) (m : Nat) : Nat :=
  m * 2 ^ B.depth + B.index * m

/-- The entry of the inverse table of a transform of size `n` where the roots of a layer with `m`
groups in this block start. A block that is too deep for `n` has none. -/
def inverseStart? (B : Block) (n m : Nat) : Option Nat :=
  if 2 * (m * 2 ^ B.depth) ≤ n then some (n - 2 * (m * 2 ^ B.depth) + 1 + B.index * m) else none

end Block

/-- `count` entries of a table from `start` on, if it has that many. -/
def slice? (table : Array Multiplier) (start count : Nat) : Option (Array Multiplier) :=
  if start + count ≤ table.size then some (table.extract start (start + count)) else none

/-! ### Engines -/

/-- How the layers of a transform are run. -/
structure Engine where
  /-- A layer fills the registers if its stride is at least 2 to this. -/
  widthLog : Nat
  /-- One forward layer in a block: stride, roots of its groups, words. -/
  forward : Transform → Block → (t : Nat) → Array Multiplier → Array Word → Option (Array Word)
  /-- The forward layers that do not fill the registers. -/
  forwardNarrow : Transform → Block → Array Word → Option (Array Word)
  /-- The residues of words below `4 * q`. -/
  settle : Transform → Array Word → Array Word
  /-- The inverse layers that do not fill the registers. -/
  inverseNarrow : Transform → Block → Array Word → Option (Array Word)
  /-- One inverse layer in a block: stride, roots of its groups, words. -/
  inverse : Transform → Block → (t : Nat) → Array Multiplier → Array Word → Option (Array Word)
  /-- The last inverse layer, down to residues if `full`. -/
  final : Transform → (full : Bool) → Array Word → Option (Array Word)

namespace Engine

/-- Whether a layer of stride `t` can run on registers of width `L`. -/
def fits (L t : Nat) (roots : Array Multiplier) (a : Array Word) : Bool :=
  L ≤ t && a.size == 2 * t * roots.size

/-- One word at a time. -/
def portable : Engine where
  widthLog := 0
  forward T _ t roots a :=
    if fits 1 t roots a then
      some (Layer.onWords (Butterfly.forward T.precision T.modulus) t roots a)
    else
      none
  forwardNarrow _ _ a := some a
  settle T a := a.map (Butterfly.settle T.modulus)
  inverseNarrow _ _ a := some a
  inverse T _ t roots a :=
    if fits 1 t roots a then
      some (Layer.onWords (Butterfly.inverse T.precision T.modulus) t roots a)
    else
      none
  final T full a :=
    if a.size = T.degree then
      let f := fun _ => Butterfly.final T.precision T.modulus T.scale T.scaleRoot full
      some (Layer.onWords f (T.degree / 2) #[] a)
    else
      none

/-! ### Eight words at a time -/

/-- One narrow forward layer with `m` groups in a block. -/
def forwardChunks (T : Transform) (B : Block) (s : Layer.Shuffle) (m : Nat) (a : Array Word) :
    Option (Array Word) := do
  let n := a.size * 2 ^ B.depth
  let start := Replicated.forwardIndex n (B.forwardStart m)
  let roots ← slice? T.replicated.roots start (a.size / 2)
  guard (a.size = 2 * roots.size)
  return Layer.onChunks s (Butterfly.forwardLanes Lanes.eight T.precision T.modulus) roots a

/-- One narrow inverse layer with `m` groups in a block. -/
def inverseChunks (T : Transform) (B : Block) (s : Layer.Shuffle) (m : Nat) (a : Array Word) :
    Option (Array Word) := do
  let n := a.size * 2 ^ B.depth
  let start := Replicated.inverseIndex n (← B.inverseStart? n m)
  let roots ← slice? T.replicated.inverseRoots start (a.size / 2)
  guard (a.size = 2 * roots.size)
  return Layer.onChunks s (Butterfly.inverseLanes Lanes.eight T.precision T.modulus) roots a

/-- Eight words at a time. -/
def eightLane : Engine where
  widthLog := 3
  forward T _ t roots a :=
    if fits 8 t roots a then
      let f := Butterfly.forwardLanes Lanes.eight T.precision T.modulus
      some (Layer.onRegisters Lanes.eight f t roots a)
    else
      none
  forwardNarrow T B a := do
    let a ← forwardChunks T B Layer.stride4 (a.size / 8) a
    let a ← forwardChunks T B Layer.stride2 (a.size / 4) a
    forwardChunks T B Layer.stride1 (a.size / 2) a
  settle T a := Layer.mapRegisters Lanes.eight (Butterfly.settleLanes Lanes.eight T.modulus) a
  inverseNarrow T B a := do
    let a ← inverseChunks T B Layer.stride1 (a.size / 2) a
    let a ← inverseChunks T B Layer.stride2 (a.size / 4) a
    inverseChunks T B Layer.stride4 (a.size / 8) a
  inverse T _ t roots a :=
    if fits 8 t roots a then
      let f := Butterfly.inverseLanes Lanes.eight T.precision T.modulus
      some (Layer.onRegisters Lanes.eight f t roots a)
    else
      none
  final T full a :=
    if a.size = T.degree then
      let f := fun _ => Butterfly.finalLanes Lanes.eight T.precision T.modulus T.scale T.scaleRoot
        full
      some (Layer.onRegisters Lanes.eight f (T.degree / 2) #[] a)
    else
      none

end Engine

end Negacyclic
