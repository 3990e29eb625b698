import Negacyclic.Kernel.Basic
import Negacyclic.Transform.Network

/-!
# Running a transform

The forward and inverse transform as steps on a buffer. The operand is below `input * q` and the
result below `output * q`, congruent to the transform: `output` is 1 for residues, or 4 forward
and 2 inverse for the words as the last layer leaves them. The requirements are looked at before
the buffer is touched, that on its own size last.

What is taken for granted while the layers run is that they fit together and that the words they
leave keep the declared bound; a run where either fails is broken.
-/

namespace Negacyclic.Transform

/-- The engine that runs a transform on a machine. Small transforms do not fill registers of eight
words. -/
def engine (T : Transform) : Backend → Engine
  | .portable => .portable
  | .eightLane => if Replicated.minDegree ≤ T.degree then .eightLane else .portable

/-! ### Forward -/

/-- The forward transform of `a`, down to residues if `full`. -/
def forwardWords (T : Transform) (backend : Backend) (full : Bool) (a : Array Word) :
    Option (Array Word) :=
  forwardBlock (T.engine backend) blockLimit T full .whole T.degree.log2 a

/-- What is asked of the factors and the operand of the forward transform. -/
def forwardRequirements (T : Transform) (input output : Word) (a : Array Word) :
    List Requirement :=
  [.size .sole T.degree a.size, .factor .input input [1, 2, 4], .factor .output output [1, 4],
    .elements .sole a (input.toNat * T.modulus.toNat)]

/-! ### Inverse -/

/-- The inverse transform of `a`, down to residues if `full`. -/
def inverseWords (T : Transform) (backend : Backend) (full : Bool) (a : Array Word) :
    Option (Array Word) :=
  inverseBlock (T.engine backend) blockLimit T full .whole T.degree.log2 a

/-- What is asked of the factors and the operand of the inverse transform. -/
def inverseRequirements (T : Transform) (input output : Word) (a : Array Word) :
    List Requirement :=
  [.size .sole T.degree a.size, .factor .input input [1, 2], .factor .output output [1, 2],
    .elements .sole a (input.toNat * T.modulus.toNat)]

/-! ### Steps on a buffer -/

/-- Put the words of a finished run into the buffer, if there are any and they keep the bound. -/
def deliver (bound : Nat) : Option (Array Word) → Update Unit
  | some a => do
      set a
      unless a.all fun x => x.toNat < bound do throw .broken
  | none => throw .broken

/-- Overwrite the buffer with the forward transform of `a`. -/
def forward (T : Transform) (backend : Backend) (input output : Word) (a : Array Word) :
    Update Unit := do
  let out ← get
  Update.require
    (T.forwardRequirements input output a ++ [.size .result T.degree out.size])
  deliver (output.toNat * T.modulus.toNat) (T.forwardWords backend (output == 1) a)

/-- Overwrite the buffer with its forward transform. -/
def forwardInPlace (T : Transform) (backend : Backend) (input output : Word) : Update Unit := do
  let a ← get
  Update.require (T.forwardRequirements input output a)
  deliver (output.toNat * T.modulus.toNat) (T.forwardWords backend (output == 1) a)

/-- Overwrite the buffer with the inverse transform of `a`. -/
def inverse (T : Transform) (backend : Backend) (input output : Word) (a : Array Word) :
    Update Unit := do
  let out ← get
  Update.require
    (T.inverseRequirements input output a ++ [.size .result T.degree out.size])
  deliver (output.toNat * T.modulus.toNat) (T.inverseWords backend (output == 1) a)

/-- Overwrite the buffer with its inverse transform. -/
def inverseInPlace (T : Transform) (backend : Backend) (input output : Word) : Update Unit := do
  let a ← get
  Update.require (T.inverseRequirements input output a)
  deliver (output.toNat * T.modulus.toNat) (T.inverseWords backend (output == 1) a)

end Negacyclic.Transform
