import Negacyclic.Fault

/-!
# Requirements

What an operation asks of its arguments, as data: an operation lists its requirements in the order
in which they are looked at, and `verify` reports the fault of the first that is not met.

* `Requirement.Holds` says what a requirement means, `Requirement.fault?` what is reported when it
  is not met, and `Requirement.fault?_eq_none_iff` that the two agree.
* `verify_eq_ok_iff`: a list is accepted exactly when each of its members holds.
* `verify_append`: requirements of a longer list are looked at after those before them.

Whatever bound an array has to keep, the fault names the least index that breaks it.
-/

namespace Negacyclic

/-- One condition on the arguments of an operation. -/
inductive Requirement where
  /-- The operand has elements. -/
  | nonEmpty (a : Array Word)
  /-- An array has the expected size. -/
  | size (who : Operand) (expected found : Nat)
  /-- The modulus is above 1 and below `2^bits`. -/
  | modulus (q : Word) (bits : Nat)
  /-- Each element is below the bound. -/
  | elements (who : Operand) (a : Array Word) (bound : Nat)
  /-- The word is below the bound. -/
  | scalar (who : Operand) (value : Word) (bound : Nat)
  /-- The mod factor is one of those accepted. -/
  | factor (side : FactorSide) (value : Word) (accepted : List Word)
  /-- The two mod factors differ. -/
  | factorsDiffer (input output : Word)
  /-- The difference is not zero. -/
  | diffNonZero (diff : Word)
  /-- The difference is neither zero nor the modulus or above. -/
  | diffInside (diff q : Word)

namespace Requirement

/-- What the requirement says. -/
def Holds : Requirement → Prop
  | nonEmpty a => a.size ≠ 0
  | size _ expected found => found = expected
  | modulus q bits => 1 < q.toNat ∧ q.toNat < 2 ^ bits
  | elements _ a bound => ∀ x ∈ a, x.toNat < bound
  | scalar _ value bound => value.toNat < bound
  | factor _ value accepted => value ∈ accepted
  | factorsDiffer input output => input ≠ output
  | diffNonZero diff => diff ≠ 0
  | diffInside diff q => diff ≠ 0 ∧ diff < q

/-- The fault to report if the requirement is not met. -/
def fault? : Requirement → Option Fault
  | nonEmpty a => if a.size = 0 then some .empty else none
  | size who expected found =>
      if found = expected then none else some (.sizeMismatch who found expected)
  | modulus q bits =>
      if 1 < q.toNat ∧ q.toNat < 2 ^ bits then none else some (.modulusOutOfRange q bits)
  | elements who a bound =>
      (a.findIdx? fun x => bound ≤ x.toNat).map fun i =>
        .elementOutOfBound who i (a.getD i 0) bound
  | scalar who value bound =>
      if value.toNat < bound then none else some (.scalarOutOfBound who value bound)
  | factor side value accepted =>
      if value ∈ accepted then none else some (.unsupportedFactor side value)
  | factorsDiffer input output => if input = output then some (.equalFactors input) else none
  | diffNonZero diff => if diff = 0 then some (.invalidDiff diff .nonZero) else none
  | diffInside diff q =>
      if diff ≠ 0 ∧ diff < q then none else some (.invalidDiff diff .insideModulus)

/-- There is nothing to report exactly if the requirement holds. -/
theorem fault?_eq_none_iff (r : Requirement) : r.fault? = none ↔ r.Holds := by
  cases r <;> simp [fault?, Holds]

end Requirement

/-- Accept the arguments, or report the fault of the first requirement that is not met. -/
def verify (rs : List Requirement) : Except Fault Unit :=
  match rs.findSome? Requirement.fault? with
  | some f => .error f
  | none => .ok ()

/-- With nothing required everything is accepted. -/
@[simp] theorem verify_nil : verify [] = .ok () := rfl

/-- The first requirement is looked at before the rest, and its fault is reported in place of
theirs. -/
theorem verify_cons (r : Requirement) (rs : List Requirement) :
    verify (r :: rs) = match r.fault? with
      | some f => .error f
      | none => verify rs := by
  cases h : r.fault? <;> simp [verify, h]

/-- A list is accepted exactly if each of its members holds. -/
theorem verify_eq_ok_iff {rs : List Requirement} : verify rs = .ok () ↔ ∀ r ∈ rs, r.Holds := by
  induction rs with
  | nil => simp
  | cons r rs ih =>
      rw [verify_cons]
      cases h : r.fault? with
      | some f =>
          have : ¬ r.Holds := fun hr => by simp [r.fault?_eq_none_iff.2 hr] at h
          simp [this]
      | none => simp [ih, r.fault?_eq_none_iff.1 h]

/-- The second list is looked at only if the first is accepted. -/
theorem verify_append (rs ss : List Requirement) :
    verify (rs ++ ss) = (verify rs >>= fun _ => verify ss) := by
  induction rs with
  | nil => rfl
  | cons r rs ih =>
      rw [List.cons_append, verify_cons, verify_cons]
      cases r.fault? with
      | some f => rfl
      | none => exact ih

end Negacyclic
