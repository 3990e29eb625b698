import Negacyclic.Kernel.Basic
import Negacyclic.Residue.Multiplier

/-!
# Reductions

From words below `input * q` to words below `output * q` that are congruent to them, for
`q < 2^63`. An input factor equal to the modulus stands for no bound at all: any word is accepted
and reduced by the reciprocal of `q`. That holds for a modulus of 2 or 4 as well, where the factor
is never read as the bound `2 * q` or `4 * q`. The other input factors are 2 and 4, the output
factors 1 and 2, and the two must differ.
-/

namespace Negacyclic.Kernel

/-- The steps of a reduction. -/
inductive Reduction where
  /-- Any word to below `2 * q`, or to below `q` if `full`. -/
  | fromWord (full : Bool)
  /-- Below `2 * q` to below `q`. -/
  | fromTwice
  /-- Below `4 * q` to below `2 * q`, or to below `q` if `full`. -/
  | fromFourfold (full : Bool)
  deriving DecidableEq, Repr

namespace Reduction

/-- The reduction that the two factors call for. -/
def ofFactors (q input output : Word) : Reduction :=
  if input = q then .fromWord (output == 1)
  else if input = 2 then .fromTwice
  else .fromFourfold (output == 1)

/-- What becomes of one element. -/
def term (q : Word) : Reduction → Term 1
  | fromWord full =>
      let r := .barrettLazy (.input only) (.word (Word.reciprocal q)) (.word q)
      if full then .reduceOnce r (.word q) else r
  | fromTwice => .reduceOnce (.input only) (.word q)
  | fromFourfold full =>
      let r := .reduceOnce (.input only) (.word (2 * q))
      if full then .reduceOnce r (.word q) else r

end Reduction

/-- Words below `input * q` to congruent words below `output * q`. -/
def reduce (q input output : Word) : Kernel 1 where
  requirements m xs :=
    [.nonEmpty (xs.get only), .size .result (xs.get only).size m, .modulus q 63,
      .factorsDiffer input output, .factor .output output [1, 2]] ++
    if input = q then []
    else [.factor .input input [2, 4], .elements .sole (xs.get only) (input.toNat * q.toNat)]
  rule := .term ((Reduction.ofFactors q input output).term q)

end Negacyclic.Kernel
