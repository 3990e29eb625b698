import Negacyclic.Word.Basic

/-!
# Comparisons of words

The eight predicates by which the conditional kernels and the lane masks compare two words.
-/

namespace Negacyclic

/-- A predicate on two words. -/
inductive Comparison where
  | eq
  | lt
  | le
  | never
  | ne
  | ge
  | gt
  | always
  deriving DecidableEq, Repr

/-- Whether the comparison of `x` with `y` holds. -/
def Comparison.holds : Comparison → Word → Word → Bool
  | eq, x, y => x == y
  | lt, x, y => x < y
  | le, x, y => x ≤ y
  | never, _, _ => false
  | ne, x, y => x != y
  | ge, x, y => y ≤ x
  | gt, x, y => y < x
  | always, _, _ => true

end Negacyclic
