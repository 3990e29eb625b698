import Negacyclic.Kernel.Sum
import Negacyclic.Residue.Multiplier

/-!
# Conditional sums and differences

Elements that compare with a bound as stated are changed by a difference: `addWhere` adds it, as
words wrap, and leaves the others alone; `subWhere` reduces every element modulo `q` and subtracts
the difference from the residues of those that compare. The comparison always sees the element as
it was given, before any reduction.
-/

namespace Negacyclic.Kernel

/-- `x + diff` where `x` compares with `bound` as stated, else `x`. -/
def addWhere (c : Comparison) (bound diff : Word) : Kernel 1 where
  requirements m xs :=
    [.nonEmpty (xs.get only), .size .result (xs.get only).size m, .diffNonZero diff]
  rule :=
    .term (.select c (.input only) (.word bound) (.add (.input only) (.word diff))
      (.input only))

/-- `x - diff mod q` where `x` compares with `bound` as stated, else `x mod q`. -/
def subWhere (q : Word) (c : Comparison) (bound diff : Word) : Kernel 1 where
  requirements m xs :=
    [.nonEmpty (xs.get only), .size .result (xs.get only).size m, .modulus q 63,
      .diffInside diff q]
  rule :=
    let residue := .reduceOnce
      (.barrettLazy (.input only) (.word (Word.reciprocal q)) (.word q)) (.word q)
    .term (.bind residue
      (.select c (.input first) (.word bound) (subTerm q (.input second) (.word diff))
        (.input second)))

end Negacyclic.Kernel
