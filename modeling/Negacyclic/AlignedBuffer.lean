import Negacyclic.Word.Bits
import Negacyclic.Word.Storage

/-!
# Aligned buffers

A buffer of words whose storage starts at a multiple of a power of two. Its storage is a whole
number of alignment units and at least one; a size for which that number of bytes, with what may
lie before the first multiple, is more than one object can have cannot be had. The words start as
zeros.
-/

namespace Negacyclic

/-- Words in aligned storage. -/
structure AlignedBuffer where
  words : Array Word
  /-- The storage starts at a multiple of this many bytes. -/
  alignment : Nat
  deriving DecidableEq

namespace AlignedBuffer

/-- The alignment of one register of eight words. -/
def defaultAlignment : Nat := 64

/-- The number of bytes that `size` words take up at the given alignment. -/
def storage (size alignment : Nat) : Nat :=
  max alignment ((wordBytes * size + alignment - 1) / alignment * alignment)

/-- A buffer of `size` zeros. The alignment is a power of two and not below that of a word. -/
def allocate? (size alignment : Nat) : Option AlignedBuffer :=
  if isPowerOfTwo alignment ∧ wordBytes ≤ alignment ∧
      storage size alignment + (alignment - 1) ≤ maxBytes then
    some ⟨Array.replicate size 0, alignment⟩
  else
    none

/-- Overwrite one word. -/
def set? (b : AlignedBuffer) (i : Nat) (w : Word) : Option AlignedBuffer :=
  if i < b.words.size then some { b with words := b.words.setIfInBounds i w } else none

/-- The words between brackets, with a comma and a blank between them. -/
def render (b : AlignedBuffer) : String :=
  "[" ++ String.intercalate ", " (b.words.toList.map fun w => toString w.toNat) ++ "]"

end AlignedBuffer

end Negacyclic
