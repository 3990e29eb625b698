import Mathlib.Data.Nat.Notation
import Negacyclic.Requirement

/-!
# Checks in order

What an operation asks of its arguments, said apart from how it looks at them. A `Check` is a
condition together with the faults that report that it does not hold; for most there is one such
fault, and for the elements of an array the one with the least index.

* `FirstFailing f cs` says that `f` reports the first check of `cs` that does not hold.
* `Test r c` says that the test `r` passes where the check `c` holds and else has its fault; for a
  `Requirement` that is `Requirement.test`.
* `Decides r cs good` says that a computation `r` does nothing else but look at the checks `cs` in
  order: it has the fault of the first that does not hold, and if all hold an answer that is
  `good`. It is built up check by check (`Decides.cons`, `Decides.nil`), and what holds so far
  is at hand for the rest.
-/

namespace Negacyclic

/-- A condition and the faults that report that it does not hold. -/
structure Check where
  Holds : Prop
  Reports : Fault → Prop

namespace Check

/-- A condition with one fault. -/
def of (holds : Prop) (fault : Fault) : Check where
  Holds := holds
  Reports f := f = fault

/-- There are elements. -/
def nonEmpty (a : Array Word) : Check :=
  .of (a.size ≠ 0) .empty

/-- An array has the expected size. -/
def size (who : Operand) (expected found : ℕ) : Check :=
  .of (found = expected) (.sizeMismatch who found expected)

/-- A modulus is above 1 and below `2^bits`. -/
def modulus (q : Word) (bits : ℕ) : Check :=
  .of (1 < q.toNat ∧ q.toNat < 2 ^ bits) (.modulusOutOfRange q bits)

/-- A factor is one of those accepted. -/
def factor (side : FactorSide) (value : Word) (accepted : List Word) : Check :=
  .of (value ∈ accepted) (.unsupportedFactor side value)

/-- A word is below a bound. -/
def scalar (who : Operand) (value : Word) (bound : ℕ) : Check :=
  .of (value.toNat < bound) (.scalarOutOfBound who value bound)

/-- The elements of an array are below a bound; the fault names the least index of one that is
not, and the element. -/
def elements (who : Operand) (a : Array Word) (bound : ℕ) : Check where
  Holds := ∀ i (h : i < a.size), a[i].toNat < bound
  Reports f := ∃ i, ∃ h : i < a.size, bound ≤ a[i].toNat ∧
    (∀ j (hj : j < i), a[j].toNat < bound) ∧ f = .elementOutOfBound who i a[i] bound

end Check

/-- The first check that does not hold reports `f`. -/
inductive FirstFailing (f : Fault) : List Check → Prop
  | here {c : Check} {cs : List Check} (hc : ¬c.Holds) (hf : c.Reports f) :
      FirstFailing f (c :: cs)
  | later {c : Check} {cs : List Check} (hc : c.Holds) (h : FirstFailing f cs) :
      FirstFailing f (c :: cs)

namespace FirstFailing

variable {f : Fault} {c : Check} {cs : List Check}

/-- A check that holds is passed over. -/
theorem cons_iff_of_holds (hc : c.Holds) : FirstFailing f (c :: cs) ↔ FirstFailing f cs := by
  constructor
  · rintro (⟨hno, -⟩ | ⟨-, h⟩)
    · exact absurd hc hno
    · exact h
  · exact .later hc

/-- A check that does not hold is the one that is reported. -/
theorem cons_iff_of_not (hc : ¬c.Holds) : FirstFailing f (c :: cs) ↔ c.Reports f := by
  constructor
  · rintro (⟨-, h⟩ | ⟨hyes, -⟩)
    · exact h
    · exact absurd hyes hc
  · exact .here hc

/-- The fault says that not all checks hold. -/
theorem not_all_hold (h : FirstFailing f cs) : ¬∀ c ∈ cs, c.Holds := by
  intro hall
  induction h with
  | here hc hf => exact hc (hall _ List.mem_cons_self)
  | later hc h ih => exact ih (List.forall_mem_cons.1 hall).2

/-- A check that holds if those before it do goes unnoticed at the end. -/
theorem append_iff_of_imp (himp : (∀ d ∈ cs, d.Holds) → c.Holds) :
    FirstFailing f (cs ++ [c]) ↔ FirstFailing f cs := by
  induction cs with
  | nil => exact cons_iff_of_holds (himp (fun _ hd => absurd hd List.not_mem_nil))
  | cons d ds ih =>
      rw [List.cons_append]
      by_cases hd : d.Holds
      · rw [cons_iff_of_holds hd, cons_iff_of_holds hd]
        exact ih fun hall => himp (List.forall_mem_cons.2 ⟨hd, hall⟩)
      · rw [cons_iff_of_not hd, cons_iff_of_not hd]

/-- Every fault that is reported is one of the checks'. -/
theorem exists_reports (h : FirstFailing f cs) : ∃ c ∈ cs, c.Reports f := by
  induction h with
  | here hc hf => exact ⟨_, List.mem_cons_self, hf⟩
  | later hc h ih =>
      obtain ⟨d, hd, hf⟩ := ih
      exact ⟨d, List.mem_cons_of_mem _ hd, hf⟩

end FirstFailing

/-! ### Tests -/

/-- A test passes where a check holds, and has the fault of the check where it does not. -/
structure Test (r : Except Fault Unit) (c : Check) : Prop where
  ok : c.Holds → r = .ok ()
  error : ¬c.Holds → ∃ f, r = .error f ∧ ∀ g, c.Reports g ↔ g = f

/-- A condition that is decided on the spot tests the check with this condition and fault. -/
theorem Test.ite (c : Prop) [Decidable c] (f : Fault) :
    Test (if c then .ok () else .error f) (.of c f) where
  ok h := if_pos h
  error h := ⟨f, if_neg h, fun _ => Iff.rfl⟩

/-! ### Sequences of tests -/

/-- A computation looks at some checks in order and then has a good answer. -/
structure Decides {α : Type} (r : Except Fault α) (cs : List Check) (good : α → Prop) : Prop where
  error_iff (f : Fault) : r = .error f ↔ FirstFailing f cs
  ok : (∀ c ∈ cs, c.Holds) → ∃ a, r = .ok a ∧ good a

namespace Decides

variable {α : Type} {good : α → Prop}

/-- With no check left the answer has to be good. -/
theorem nil {a : α} (h : good a) : Decides (.ok a) [] good where
  error_iff f := by
    constructor
    · intro hf
      cases hf
    · intro hf
      cases hf
  ok _ := ⟨a, rfl, h⟩

/-- A check that holds goes unnoticed. -/
theorem cons_iff_of_holds {r : Except Fault α} {c : Check} {cs : List Check} (hc : c.Holds) :
    Decides r (c :: cs) good ↔ Decides r cs good := by
  constructor
  · intro h
    refine ⟨fun f => ?_, fun hall => h.ok (List.forall_mem_cons.2 ⟨hc, hall⟩)⟩
    rw [h.error_iff, FirstFailing.cons_iff_of_holds hc]
  · intro h
    refine ⟨fun f => ?_, fun hall => h.ok (List.forall_mem_cons.1 hall).2⟩
    rw [h.error_iff, FirstFailing.cons_iff_of_holds hc]

/-- A check that does not hold is reported. -/
theorem refuse {f : Fault} {c : Check} (hc : ¬c.Holds) (hf : ∀ g, c.Reports g ↔ g = f)
    (cs : List Check) : Decides (.error f) (c :: cs) good := by
  refine ⟨fun g => ?_, fun hall => absurd (hall c List.mem_cons_self) hc⟩
  rw [FirstFailing.cons_iff_of_not hc, hf, Except.error.injEq, eq_comm]

/-- A test in front. The rest is looked at only if the check holds. -/
theorem cons {t : Except Fault Unit} {c : Check} {rest : Except Fault α} {cs : List Check}
    (ht : Test t c) (h : c.Holds → Decides rest cs good) :
    Decides (t >>= fun _ => rest) (c :: cs) good := by
  by_cases hc : c.Holds
  · rw [ht.ok hc]
    exact (cons_iff_of_holds hc).2 (h hc)
  · obtain ⟨f, hf, hreports⟩ := ht.error hc
    rw [hf]
    exact refuse hc hreports cs

end Decides

/-! ### Requirements -/

namespace Requirement

/-- What a requirement checks. -/
def check : Requirement → Check
  | nonEmpty a => .nonEmpty a
  | size who expected found => .size who expected found
  | modulus q bits => .modulus q bits
  | elements who a bound => .elements who a bound
  | scalar who value bound => .scalar who value bound
  | factor side value accepted => .factor side value accepted
  | factorsDiffer input output => .of (input ≠ output) (.equalFactors input)
  | diffNonZero diff => .of (diff ≠ 0) (.invalidDiff diff .nonZero)
  | diffInside diff q => .of (diff ≠ 0 ∧ diff < q) (.invalidDiff diff .insideModulus)

/-- A requirement and its check ask the same. -/
theorem check_holds_iff (r : Requirement) : r.check.Holds ↔ r.Holds := by
  cases r with
  | elements who a bound =>
      exact (Array.forall_mem_iff_forall_getElem (P := fun x : Word => x.toNat < bound)).symm
  | _ => exact Iff.rfl

/-- The element that is reported is the first that breaks the bound. -/
theorem reports_elements {who : Operand} {a : Array Word} {bound i : ℕ}
    (h : (a.findIdx? fun x => decide (bound ≤ x.toNat)) = some i) (f : Fault) :
    (Check.elements who a bound).Reports f ↔
      f = .elementOutOfBound who i (a.getD i 0) bound := by
  obtain ⟨hi, hbad, hbefore⟩ := Array.findIdx?_eq_some_iff_getElem.1 h
  have hbad := of_decide_eq_true hbad
  have hword : a.getD i 0 = a[i] := by simp [hi]
  have hleast (j : ℕ) (hj : j < i) : a[j].toNat < bound :=
    Nat.lt_of_not_le fun hle => hbefore j hj (decide_eq_true hle)
  rw [hword]
  constructor
  · rintro ⟨j, hj, hbadj, hleastj, rfl⟩
    obtain hlt | rfl | hgt := Nat.lt_trichotomy j i
    · exact absurd (hleast j hlt) (Nat.not_lt.2 hbadj)
    · rfl
    · exact absurd (hleastj i hgt) (Nat.not_lt.2 hbad)
  · rintro rfl
    exact ⟨i, hi, hbad, hleast, rfl⟩

/-- A requirement that does not hold has the fault that its check reports. -/
theorem exists_fault? {r : Requirement} (h : ¬r.check.Holds) :
    ∃ f, r.fault? = some f ∧ ∀ g, r.check.Reports g ↔ g = f := by
  cases r with
  | elements who a bound =>
      obtain hnone | ⟨i, hi⟩ := Option.eq_none_or_eq_some
        (a.findIdx? fun x => decide (bound ≤ x.toNat))
      · refine absurd (fun i hi => ?_) h
        have hx := Array.findIdx?_eq_none_iff.1 hnone a[i] (Array.getElem_mem hi)
        exact Nat.lt_of_not_le (of_decide_eq_false hx)
      · exact ⟨_, by rw [fault?, hi, Option.map_some], reports_elements hi⟩
  | nonEmpty | factorsDiffer | diffNonZero =>
      exact ⟨_, if_pos (Classical.not_not.1 h), fun _ => Iff.rfl⟩
  | _ => exact ⟨_, if_neg h, fun _ => Iff.rfl⟩

/-- Verifying one requirement tests its check. For the elements of an array the fault names the
least index of one out of bound, because the search goes up from zero. -/
theorem test (r : Requirement) : Test (verify [r]) r.check where
  ok h := verify_eq_ok_iff.2 (List.forall_mem_singleton.2 (r.check_holds_iff.1 h))
  error h := by
    obtain ⟨f, hf, hreports⟩ := exists_fault? h
    exact ⟨f, by rw [verify_cons, hf], hreports⟩

end Requirement

/-- Requirements are looked at in order. -/
theorem verify_decides (rs : List Requirement) :
    Decides (verify rs) (rs.map Requirement.check) fun _ => True := by
  induction rs with
  | nil => exact Decides.nil trivial
  | cons r rs ih =>
      rw [List.map_cons, ← List.singleton_append, verify_append]
      exact Decides.cons r.test fun _ => ih

end Negacyclic
