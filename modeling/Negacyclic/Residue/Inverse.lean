import Negacyclic.Residue.Basic

/-!
# Inverses

The inverse of a residue by the extended Euclidean algorithm. A `Euclid` is one state of the
algorithm: two successive remainders of `q` and `x`, and for each the coefficient of `x` that
gives it modulo `q`. `Euclid.next` takes one division step and `Euclid.finish` runs until the
second remainder is zero; the first is then the greatest common divisor. The states are plain
data, so that what holds of all of them can be said of `Euclid.next` alone.
-/

namespace Negacyclic.Residue

/-- Two successive remainders with their coefficients. -/
structure Euclid where
  /-- The previous remainder. -/
  prior : Nat
  /-- The current remainder, which divides next. -/
  current : Nat
  /-- The coefficient of the previous remainder. -/
  priorCoeff : Int
  /-- The coefficient of the current remainder. -/
  currentCoeff : Int
  deriving DecidableEq, Repr

namespace Euclid

/-- The state before the first division: `q` itself, and `x` reduced. -/
def start (q x : Word) : Euclid :=
  ⟨q.toNat, x.toNat % q.toNat, 0, 1⟩

/-- One division. -/
def next (s : Euclid) : Euclid where
  prior := s.current
  current := s.prior % s.current
  priorCoeff := s.currentCoeff
  currentCoeff := s.priorCoeff - (s.prior / s.current : Nat) * s.currentCoeff

/-- Divide until nothing is left to divide by. -/
def finish (s : Euclid) : Euclid :=
  if s.current = 0 then s else s.next.finish
termination_by s.current
decreasing_by exact Nat.mod_lt _ (Nat.pos_of_ne_zero ‹_›)

end Euclid

/-- The inverse of `x` modulo `q`, if there is one. -/
def inverse? (q x : Word) : Option Word :=
  if q ≤ 1 then none
  else
    let last := (Euclid.start q x).finish
    if last.prior = 1 then some (.ofNat (last.priorCoeff % (q.toNat : Int)).toNat) else none

end Negacyclic.Residue
