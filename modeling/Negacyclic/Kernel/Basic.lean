import Negacyclic.Lanes.Chunked
import Negacyclic.Lanes.Eight
import Negacyclic.Requirement

/-!
# Kernels

A kernel overwrites a buffer, element by element, with values of its operands. It is data: the
requirements on its arguments, in the order in which they are looked at, and what becomes of one
element. `Kernel.write` reads the operands from arrays beside the buffer; `Kernel.writeInPlace`
takes the first operand from the buffer itself.

An `Update` is a step on the buffer that may stop. The buffer is not touched before the last
requirement has been looked at, so a refused call leaves it as it was.

A `Backend` is the machine that runs the kernel. It never shows in an answer.
-/

namespace Negacyclic

/-! ### Machines -/

/-- The machine that does the work. -/
inductive Backend where
  | portable
  | eightLane
  deriving DecidableEq, Repr

namespace Backend

/-- The number of words in a register. -/
def width : Backend → Nat
  | portable => 1
  | eightLane => 8

/-- The operations on registers. -/
def lanes : (backend : Backend) → Lanes backend.width
  | portable => Lanes.portable 1
  | eightLane => Lanes.eight

end Backend

/-! ### Steps on a buffer -/

/-- A step on a buffer of words that may stop. -/
abbrev Update := ExceptT Stop (StateM (Array Word))

namespace Update

/-- Stop unless the requirements are met. -/
def require (rs : List Requirement) : Update Unit :=
  match verify rs with
  | .ok () => pure ()
  | .error f => throw (.refused f)

/-- Run a step on a buffer: how it ended, and the buffer afterwards. -/
def runOn (u : Update Unit) (out : Array Word) : Except Stop Unit × Array Word :=
  StateT.run (ExceptT.run u) out

end Update

/-! ### Kernels -/

/-- What becomes of one element. -/
inductive Rule (n : Nat) where
  /-- A lane term, run on full registers where there are any. -/
  | term (t : Term n)
  /-- A function on words, for which there is no form on registers. -/
  | wordwise (f : Vector Word n → Word)

/-- An element-wise operation on `n` operands. -/
structure Kernel (n : Nat) where
  /-- What is asked of the size of the buffer and of the operands. -/
  requirements : (resultSize : Nat) → Vector (Array Word) n → List Requirement
  /-- What becomes of one element. -/
  rule : Rule n

namespace Rule

variable {n : Nat}

/-- Overwrite `out` with the values on the arrays `xs`. -/
def mapInto (backend : Backend) (r : Rule n) (xs : Vector (Array Word) n) (out : Array Word) :
    Array Word :=
  match r with
  | term t => t.mapInto backend.lanes xs out
  | wordwise f =>
      Nat.fold out.size (fun i _ out => out.setIfInBounds i (f (xs.map fun x => x.getD i 0))) out

/-- Overwrite `out` with the values on itself and the arrays `rest`. -/
def mapInPlace (backend : Backend) (r : Rule (n + 1)) (rest : Vector (Array Word) n)
    (out : Array Word) : Array Word :=
  match r with
  | term t => t.mapInPlace backend.lanes rest out
  | wordwise f =>
      Nat.fold out.size (fun i _ out =>
        let env := (rest.map fun x => x.getD i 0).insertIdx 0 (out.getD i 0) n.zero_le
        out.setIfInBounds i (f env)) out

end Rule

namespace Kernel

variable {n : Nat}

/-- The input of a term with one. -/
abbrev only : Fin 1 := 0

/-- The first input of a term with two. -/
abbrev first : Fin 2 := 0

/-- The second input of a term with two. -/
abbrev second : Fin 2 := 1

/-- Overwrite the buffer with the values on the arrays `xs`. -/
def write (K : Kernel n) (backend : Backend) (xs : Vector (Array Word) n) : Update Unit := do
  let out ← get
  Update.require (K.requirements out.size xs)
  set (K.rule.mapInto backend xs out)

/-- Overwrite the buffer with the values on itself and the arrays `rest`. -/
def writeInPlace (K : Kernel (n + 1)) (backend : Backend) (rest : Vector (Array Word) n) :
    Update Unit := do
  let out ← get
  Update.require (K.requirements out.size (rest.insertIdx 0 out n.zero_le))
  set (K.rule.mapInPlace backend rest out)

end Kernel

end Negacyclic
