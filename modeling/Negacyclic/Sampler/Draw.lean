import Negacyclic.Sampler.Source
import Negacyclic.Word.Storage

/-!
# Draws

A draw is a computation that reads from a source and may end without an answer, for one of the
causes in `DrawFault`. A draw that answers with an array makes room for it first, so one that is too
long is refused before anything is read.

The draws are written for any monad with these two effects. In `Draw` the source of a draw without
an answer is as it was before; one that keeps the source at the fault shows what was read until
then.
-/

namespace Negacyclic

/-- Why a draw ends without an answer. -/
inductive DrawFault where
  /-- A bound that no word is below. -/
  | zeroBound
  /-- As many words read as were allowed, and none of them below the bound. -/
  | budgetSpent
  /-- An answer that no array can hold. -/
  | tooLong
  deriving DecidableEq, Repr

/-- A computation that reads from a source. -/
abbrev Draw (G : Generator) := StateT (Source G) (Except DrawFault)

namespace Source

variable {G : Generator} {m : Type → Type} [Monad m] [MonadExceptOf DrawFault m]

/-- A buffer of `n` zeros to draw into. -/
def freshBuffer (n : Nat) : m (Array Word) :=
  match zeros? n with
  | some out => return out
  | none => throw .tooLong

/-- The next `n` bytes, in an array of their own. -/
def drawBytes [MonadState (Source G) m] (n : Nat) : m (Array UInt8) :=
  if n ≤ maxBytes then modifyGet (·.nextBytes n) else throw .tooLong

end Source

end Negacyclic
