import Negacyclic.Word.Basic

/-!
# Room in memory

Sizes in bytes are words, and the distance of any two bytes of one object is a signed word. So an
object has at most `maxBytes` bytes, and an array at most `maxWords` words. What would be larger
cannot be had, whatever memory there is; the operations that make room for an array whose size
they are given fail on such a size before they do anything else.

`le_maxWords_iff` gives the limit as a power of two.
-/

namespace Negacyclic

/-- The number of bytes that a word takes up. -/
def wordBytes : Nat := 8

/-- The greatest size of one object, in bytes. -/
def maxBytes : Nat := 2 ^ (63 : Nat) - 1

/-- The greatest size of one array of words. -/
def maxWords : Nat := maxBytes / wordBytes

/-- The limit as a power of two: an array has fewer than `2^60` words. -/
theorem le_maxWords_iff {n : Nat} : n ≤ maxWords ↔ n < 2 ^ (60 : Nat) := by
  unfold maxWords maxBytes wordBytes
  omega

/-- An array of `n` zeros, if it can be had. -/
def zeros? (n : Nat) : Option (Array Word) :=
  if n ≤ maxWords then some (Array.replicate n 0) else none

end Negacyclic
