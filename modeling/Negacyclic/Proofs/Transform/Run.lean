import Negacyclic.Proofs.Kernel.Run
import Negacyclic.Proofs.Transform.Represents
import Negacyclic.Transform.Run

/-!
# Runs of transforms

A step that transforms a buffer succeeds if its requirements hold, its network leaves words and
these keep the declared bound; it then leaves these words in the buffer
(`Update.runOn_require_deliver`). A transform has a form beside its operand and one in place, which
differ only in where the operand comes from: `ForwardGives` and `InverseGives` speak of both, and
`forwardGives_of` and `inverseGives_of` reduce them to the network.
-/

namespace Negacyclic

/-- A step that passes its requirements and keeps its bound. -/
theorem Update.runOn_require_deliver {rs : List Requirement} {bound : ℕ}
    {words : Option (Array Word)} {y : Array Word} (hrs : ∀ r ∈ rs, r.Holds)
    (hwords : words = some y) (hy : ∀ x ∈ y, x.toNat < bound) (out : Array Word) :
    Update.runOn (Update.require rs >>= fun _ => Transform.deliver bound words) out =
      (.ok (), y) := by
  have hall : (y.all fun x => decide (x.toNat < bound)) = true := by
    rw [Array.all_eq_true_iff_forall_mem]
    intro x hx
    exact decide_eq_true (hy x hx)
  rw [Update.require, verify_eq_ok_iff.2 hrs, hwords]
  change Update.runOn (do
    set y
    unless y.all fun x => decide (x.toNat < bound) do throw .broken) out = _
  rw [hall]
  rfl

namespace Transform

/-- The forward transform of `a` succeeds with the words `y`, in every buffer and in place. -/
def ForwardGives (T : Transform) (backend : Backend) (input output : Word) (a y : Array Word) :
    Prop :=
  (T.forward backend input output a).Writes T.degree y ∧
    (T.forwardInPlace backend input output).runOn a = (.ok (), y)

/-- The inverse transform of `a` succeeds with the words `y`, in every buffer and in place. -/
def InverseGives (T : Transform) (backend : Backend) (input output : Word) (a y : Array Word) :
    Prop :=
  (T.inverse backend input output a).Writes T.degree y ∧
    (T.inverseInPlace backend input output).runOn a = (.ok (), y)

variable {T : Transform} {input output : Word} {a y : Array Word}

/-! ### Requirements -/

/-- What the forward transform asks of its factors and its operand. -/
theorem forwardRequirements_hold_iff :
    (∀ r ∈ T.forwardRequirements input output a, r.Holds) ↔
      a.size = T.degree ∧ input ∈ [1, 2, 4] ∧ output ∈ [1, 4] ∧
        ∀ x ∈ a, x.toNat < input.toNat * T.modulus.toNat := by
  simp only [forwardRequirements, List.forall_mem_cons, List.not_mem_nil, false_imp_iff,
    implies_true, and_true, Requirement.Holds]

/-- What the inverse transform asks of its factors and its operand. -/
theorem inverseRequirements_hold_iff :
    (∀ r ∈ T.inverseRequirements input output a, r.Holds) ↔
      a.size = T.degree ∧ input ∈ [1, 2] ∧ output ∈ [1, 2] ∧
        ∀ x ∈ a, x.toNat < input.toNat * T.modulus.toNat := by
  simp only [inverseRequirements, List.forall_mem_cons, List.not_mem_nil, false_imp_iff,
    implies_true, and_true, Requirement.Holds]

/-- An operand below one of the accepted bounds meets what the forward transform asks. -/
theorem forwardRequirements_hold (hin : input ∈ [1, 2, 4]) (hout : output ∈ [1, 4])
    (ha : a.size = T.degree) (hlt : ∀ x ∈ a, x.toNat < input.toNat * T.modulus.toNat) :
    ∀ r ∈ T.forwardRequirements input output a, r.Holds :=
  forwardRequirements_hold_iff.2 ⟨ha, hin, hout, hlt⟩

/-- An operand below one of the accepted bounds meets what the inverse transform asks. -/
theorem inverseRequirements_hold (hin : input ∈ [1, 2]) (hout : output ∈ [1, 2])
    (ha : a.size = T.degree) (hlt : ∀ x ∈ a, x.toNat < input.toNat * T.modulus.toNat) :
    ∀ r ∈ T.inverseRequirements input output a, r.Holds :=
  inverseRequirements_hold_iff.2 ⟨ha, hin, hout, hlt⟩

/-! ### Factors -/

/-- The forward transform accepts no factor above 4, the range of its layers. -/
theorem toNat_le_of_mem_forward (hin : input ∈ [1, 2, 4]) : input.toNat ≤ 4 := by
  simp only [List.mem_cons, List.not_mem_nil, or_false] at hin
  rcases hin with rfl | rfl | rfl <;> decide

/-- The inverse transform accepts no factor above 2, the range of its layers. -/
theorem toNat_le_of_mem_inverse (hin : input ∈ [1, 2]) : input.toNat ≤ 2 := by
  simp only [List.mem_cons, List.not_mem_nil, or_false] at hin
  rcases hin with rfl | rfl <;> decide

/-- The bound that the last pass of a forward transform keeps is the one that is asked for. -/
theorem toNat_of_mem_forward (hout : output ∈ [1, 4]) :
    (if output == 1 then 1 else 4) = output.toNat := by
  simp only [List.mem_cons, List.not_mem_nil, or_false] at hout
  rcases hout with rfl | rfl <;> rfl

/-- The bound that the last layer of an inverse transform keeps is the one that is asked for. -/
theorem toNat_of_mem_inverse (hout : output ∈ [1, 2]) :
    (if output == 1 then 1 else 2) = output.toNat := by
  simp only [List.mem_cons, List.not_mem_nil, or_false] at hout
  rcases hout with rfl | rfl <;> rfl

/-! ### Steps -/

/-- A list of requirements with one on the size of the buffer behind it. -/
theorem hold_append_size {rs : List Requirement} {n m : ℕ} (hrs : ∀ r ∈ rs, r.Holds)
    (hm : m = n) : ∀ r ∈ rs ++ [.size .result n m], r.Holds := by
  intro r hr
  rcases List.mem_append.1 hr with hr | hr
  · exact hrs r hr
  · obtain rfl := List.mem_singleton.1 hr
    exact hm

/-- A forward transform leaves the words of its network. -/
theorem forwardGives_of (backend : Backend)
    (hrs : ∀ r ∈ T.forwardRequirements input output a, r.Holds)
    (hwords : T.forwardWords backend (output == 1) a = some y)
    (hy : ∀ x ∈ y, x.toNat < output.toNat * T.modulus.toNat) :
    T.ForwardGives backend input output a y := by
  constructor
  · intro out hout
    exact Update.runOn_require_deliver (hold_append_size hrs hout) hwords hy out
  · exact Update.runOn_require_deliver hrs hwords hy a

/-- An inverse transform leaves the words of its network. -/
theorem inverseGives_of (backend : Backend)
    (hrs : ∀ r ∈ T.inverseRequirements input output a, r.Holds)
    (hwords : T.inverseWords backend (output == 1) a = some y)
    (hy : ∀ x ∈ y, x.toNat < output.toNat * T.modulus.toNat) :
    T.InverseGives backend input output a y := by
  constructor
  · intro out hout
    exact Update.runOn_require_deliver (hold_append_size hrs hout) hwords hy out
  · exact Update.runOn_require_deliver hrs hwords hy a

end Transform

end Negacyclic
