import Negacyclic.Residue.Multiplier

/-!
# Replicated tables

A layer of stride 4, 2 or 1 works on eight butterflies at once whose roots are not all the same.
So that eight roots can be read in one go, the tables are laid out once more with copies: four of
each root of the layer of stride 4, two of each root of the layer of stride 2, one of all others.

A table is cut into segments of consecutive entries with the same number of copies. In the forward
table the roots of a layer with `m` groups are the entries `m` to `2 * m`; in the inverse table the
order of the layers is turned round and shifted by one. `forwardIndex` and `inverseIndex` say where
the copies of an entry start.
-/

namespace Negacyclic

/-- Consecutive entries of a table that are copied equally often. -/
structure Segment where
  /-- The first entry. -/
  first : Nat
  /-- The entry after the last. -/
  stop : Nat
  /-- The number of copies of each entry. -/
  copies : Nat
  deriving DecidableEq, Repr

/-- The two tables of roots with copies. Both are empty for a transform too small for registers of
eight words. -/
structure Replicated where
  roots : Array Multiplier
  inverseRoots : Array Multiplier

namespace Replicated

/-- The least size of a transform that is worked in registers of eight words. -/
def minDegree : Nat := 16

/-- The segments of the forward table of a transform of size `n`. -/
def forwardSegments (n : Nat) : List Segment :=
  [⟨0, n / 8, 1⟩, ⟨n / 8, n / 4, 4⟩, ⟨n / 4, n / 2, 2⟩, ⟨n / 2, n, 1⟩]

/-- The segments of the inverse table of a transform of size `n`. -/
def inverseSegments (n : Nat) : List Segment :=
  [⟨0, n / 2 + 1, 1⟩, ⟨n / 2 + 1, 3 * n / 4 + 1, 2⟩, ⟨3 * n / 4 + 1, 7 * n / 8 + 1, 4⟩,
    ⟨7 * n / 8 + 1, n, 1⟩]

/-- The entries of the segments of a table, each as often as its segment says. -/
def expand (table : Array Multiplier) (segments : List Segment) : Array Multiplier :=
  segments.foldl (fun out s =>
    out ++ (table.extract s.first s.stop).flatMap fun w => Array.replicate s.copies w) #[]

/-- The tables with copies of a transform of size `n`. -/
def ofTables (n : Nat) (roots inverseRoots : Array Multiplier) : Replicated :=
  if minDegree ≤ n then
    ⟨expand roots (forwardSegments n), expand inverseRoots (inverseSegments n)⟩
  else
    ⟨#[], #[]⟩

/-- Where the copies of entry `i` of the forward table start. -/
def forwardIndex (n i : Nat) : Nat :=
  if i < n / 8 then i
  else if i < n / 4 then (i - n / 8) * 4 + n / 8
  else if i < n / 2 then (i - n / 4) * 2 + 5 * n / 8
  else i + 5 * n / 8

/-- Where the copies of entry `i` of the inverse table start. -/
def inverseIndex (n i : Nat) : Nat :=
  if i ≤ n / 2 then i
  else if i ≤ 3 * n / 4 then (i - (n / 2 + 1)) * 2 + n / 2 + 1
  else if i ≤ 7 * n / 8 then (i - (3 * n / 4 + 1)) * 4 + n + 1
  else i + 5 * n / 8

end Replicated

end Negacyclic
