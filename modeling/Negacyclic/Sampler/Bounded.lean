import Negacyclic.Sampler.Draw

/-!
# Words below a bound

Uniform words below a bound by rejection: words of the source are cut to the bits of a mask, and
the first that is below the bound is taken. `Source.maskFor` is the least mask of at least one bit
that lets every word below the bound through, so at least half of all words are taken.

No number of words read is certain to be enough, so a draw has a budget: the words that it may
read. A draw that spends it ends without an answer, as does one with a bound of zero, which is
refused before anything is read.
-/

namespace Negacyclic.Source

variable {G : Generator} {m : Type → Type} [Monad m] [MonadExceptOf DrawFault m]
  [MonadState (Source G) m]

/-- The next word cut to the bits of the mask that is below `max`, within the budget. -/
def drawMasked (max mask : Word) : (budget : Nat) → m Word
  | 0 => throw .budgetSpent
  | budget + 1 => do
      let u ← modifyGet next64
      if u &&& mask < max then return u &&& mask else drawMasked max mask budget

/-- The number of zero bits above the highest one bit. -/
def leadingZeros (x : Word) : Nat :=
  if x = 0 then 64 else 63 - x.toNat.log2

/-- The mask for words below `bound`. -/
def maskFor (bound : Word) : Word :=
  0xffffffffffffffff >>> (min 63 (leadingZeros (bound - 1))).toUInt64

/-- A word below `bound`, each with the same chance. -/
def drawBelow (budget : Nat) (bound : Word) : m Word :=
  if bound = 0 then throw .zeroBound else drawMasked bound (maskFor bound) budget

/-- Replace every word of a buffer by one below `bound`. -/
def fillBelow (budget : Nat) (bound : Word) (out : Array Word) : m (Array Word) :=
  out.mapM fun _ => drawBelow budget bound

/-- `n` words below `bound`. -/
def drawArray (budget : Nat) (bound : Word) (n : Nat) : m (Array Word) := do
  fillBelow budget bound (← freshBuffer n)

end Negacyclic.Source
