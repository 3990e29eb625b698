import Negacyclic.Lanes.Term

/-!
# Terms over arrays

Run a term over equally long arrays and write the values into a buffer. An array whose size is not
a multiple of the register width is cut into a head of `size % L` words, which is worked on words,
and a body of full registers.

* `Term.mapInto` reads all operands from arrays beside the buffer.
* `Term.mapInPlace` reads the first operand from the buffer and overwrites it.

Both go through the buffer once, head first, and touch each position once, so that the value at a
position is computed from the words that the operands hold there.
-/

namespace Negacyclic.Term

variable {L n : Nat}

/-! ### Operands beside the buffer -/

/-- Write the value at position `i` of the arrays `xs`. -/
def writeWord (t : Term n) (xs : Vector (Array Word) n) (i : Nat) (out : Array Word) :
    Array Word :=
  out.setIfInBounds i (t.evalWord (xs.map fun x => x.getD i 0))

/-- Write the `L` values from position `pos` on. -/
def writeRegister (R : Lanes L) (t : Term n) (xs : Vector (Array Word) n) (pos : Nat)
    (out : Array Word) : Array Word :=
  Lanes.store out pos (t.eval R (xs.map fun x => Lanes.load L x pos))

/-- Overwrite `out` with the values of the term on the arrays `xs`. -/
def mapInto (R : Lanes L) (t : Term n) (xs : Vector (Array Word) n) (out : Array Word) :
    Array Word :=
  let head := out.size % L
  let chunks := out.size / L
  let out := Nat.fold head (fun i _ out => t.writeWord xs i out) out
  Nat.fold chunks (fun c _ out => t.writeRegister R xs (head + c * L) out) out

/-! ### The first operand in the buffer -/

/-- Replace the word at position `i` by the value on it and the words of `rest`. -/
def updateWord (t : Term (n + 1)) (rest : Vector (Array Word) n) (i : Nat) (out : Array Word) :
    Array Word :=
  let env := (rest.map fun x => x.getD i 0).insertIdx 0 (out.getD i 0) n.zero_le
  out.setIfInBounds i (t.evalWord env)

/-- Replace the `L` words from position `pos` on. -/
def updateRegister (R : Lanes L) (t : Term (n + 1)) (rest : Vector (Array Word) n) (pos : Nat)
    (out : Array Word) : Array Word :=
  let env := (rest.map fun x => Lanes.load L x pos).insertIdx 0 (Lanes.load L out pos) n.zero_le
  Lanes.store out pos (t.eval R env)

/-- Overwrite `out` with the values of the term on `out` itself and the arrays `rest`. -/
def mapInPlace (R : Lanes L) (t : Term (n + 1)) (rest : Vector (Array Word) n)
    (out : Array Word) : Array Word :=
  let head := out.size % L
  let chunks := out.size / L
  let out := Nat.fold head (fun i _ out => t.updateWord rest i out) out
  Nat.fold chunks (fun c _ out => t.updateRegister R rest (head + c * L) out) out

end Negacyclic.Term
