import Negacyclic.Transform.Engine

/-!
# The network of layers

A transform of size `2^k` has `k` layers. Layer `j` of a block has `2^j` groups; the forward
transform runs the layers upward from 0 and the inverse downward to 0. A block of at most `limit`
words runs its layers one after the other. A larger block runs layer 0 by itself and the remaining
layers on its halves, each of which is again a block, one level deeper: layer `j` of a half is
part of layer `j + 1` of the block.

The division by the degree is part of layer 0 of the whole inverse transform, which is therefore
left to `Engine.final`. The forward transform is settled block by block.

Every step may fail, where a table is too short or words and roots do not fit together.
-/

namespace Negacyclic

namespace Transform

/-- The greatest block that is transformed layer by layer. -/
def blockLimit : Nat := 1024

/-! ### Forward -/

/-- The layer with `m` groups in a block. -/
def forwardLayer (E : Engine) (T : Transform) (B : Block) (m : Nat) (a : Array Word) :
    Option (Array Word) := do
  let roots ← slice? T.roots (B.forwardStart m) m
  E.forward T B (a.size / (2 * m)) roots a

/-- All layers of a block of `2^k` words, one after the other. -/
def forwardLayers (E : Engine) (T : Transform) (full : Bool) (B : Block) (k : Nat)
    (a : Array Word) : Option (Array Word) := do
  let a ← (List.range (k - E.widthLog)).foldlM (fun a j => forwardLayer E T B (2 ^ j) a) a
  let a ← E.forwardNarrow T B a
  return if full then E.settle T a else a

/-- The forward transform of a block of `2^k` words. -/
def forwardBlock (E : Engine) (limit : Nat) (T : Transform) (full : Bool) (B : Block) :
    (k : Nat) → Array Word → Option (Array Word)
  | 0, a => forwardLayers E T full B 0 a
  | k + 1, a =>
      if 2 ^ (k + 1) ≤ limit then
        forwardLayers E T full B (k + 1) a
      else do
        let a ← forwardLayer E T B 1 a
        let low ← forwardBlock E limit T full B.lower k (a.extract 0 (2 ^ k))
        let high ← forwardBlock E limit T full B.upper k (a.extract (2 ^ k) a.size)
        return low ++ high

/-! ### Inverse -/

/-- The layer with `m` groups in a block. -/
def inverseLayer (E : Engine) (T : Transform) (B : Block) (m : Nat) (a : Array Word) :
    Option (Array Word) := do
  let roots ← slice? T.inverseRoots (← B.inverseStart? T.degree m) m
  E.inverse T B (a.size / (2 * m)) roots a

/-- All layers of a block of `2^k` words, one after the other; of the whole transform the last
one is that with the division. -/
def inverseLayers (E : Engine) (T : Transform) (full : Bool) (B : Block) (k : Nat)
    (a : Array Word) : Option (Array Word) := do
  let a ← E.inverseNarrow T B a
  let first := if B.depth = 0 then 1 else 0
  let layers := (List.range' first (k - E.widthLog - first)).reverse
  let a ← layers.foldlM (fun a j => inverseLayer E T B (2 ^ j) a) a
  if B.depth = 0 then E.final T full a else return a

/-- The inverse transform of a block of `2^k` words. -/
def inverseBlock (E : Engine) (limit : Nat) (T : Transform) (full : Bool) (B : Block) :
    (k : Nat) → Array Word → Option (Array Word)
  | 0, a => inverseLayers E T full B 0 a
  | k + 1, a =>
      if 2 ^ (k + 1) ≤ limit then
        inverseLayers E T full B (k + 1) a
      else do
        let low ← inverseBlock E limit T full B.lower k (a.extract 0 (2 ^ k))
        let high ← inverseBlock E limit T full B.upper k (a.extract (2 ^ k) a.size)
        let a := low ++ high
        if B.depth = 0 then E.final T full a else inverseLayer E T B 1 a

end Transform

end Negacyclic
