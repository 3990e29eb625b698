import Negacyclic.Kernel.Reduction
import Negacyclic.Proofs.Kernel.Run
import Negacyclic.Proofs.Residue.Lazy

/-!
# Reductions

Which factors and operands a reduction takes, and what its steps make of a word. It accepts what
`Reduction.Admits` names (`requirements_hold_iff`); the steps that the factors then call for start
from the words of the operand and end at the bound asked for (`Admits.ofFactors`, `term_reduces`).

The step from any word rests on the reciprocal; the others subtract where they can. That an input
factor equal to the modulus stands for no bound is decided before the factor is read as 2 or 4.
-/

namespace Negacyclic.Kernel.Reduction

variable {q input output : Word} {a : Array Word}

/-- The steps start from words below this bound, -/
def inputBound (q : Word) : Reduction → ℕ
  | fromWord _ => 2 ^ 64
  | fromTwice => 2 * q.toNat
  | fromFourfold _ => 4 * q.toNat

/-- and end below this multiple of the modulus. -/
def outputFactor : Reduction → ℕ
  | fromWord full | fromFourfold full => if full then 1 else 2
  | fromTwice => 1

/-- One conditional subtraction of the modulus. -/
theorem reduceOnce_reduces {x : Word} (hx : x.toNat < 2 * q.toNat) :
    (Word.reduceOnce x q).toNat < 1 * q.toNat ∧
      residue q (Word.reduceOnce x q) = residue q x := by
  rw [Nat.one_mul]
  exact ⟨toNat_reduceOnce_lt hx, residue_reduceOnce residue_self⟩

/-- A step that is followed by another subtraction if the reduction is full. -/
theorem reduces_of_lt_twice {full : Bool} {x w : Word} (hlt : w.toNat < 2 * q.toNat)
    (hclass : residue q w = residue q x) :
    (if full then Word.reduceOnce w q else w).toNat < (if full then 1 else 2) * q.toNat ∧
      residue q (if full then Word.reduceOnce w q else w) = residue q x := by
  cases full with
  | false => exact ⟨hlt, hclass⟩
  | true => exact (reduceOnce_reduces hlt).imp_right fun h => h.trans hclass

/-- What the steps of a reduction make of a word that they can start from. -/
theorem term_reduces (hone : 1 < q.toNat) (hq : q.toNat < 2 ^ 63) (r : Reduction)
    {env : Vector Word 1} (h : (env.get only).toNat < r.inputBound q) :
    ((r.term q).evalWord env).toNat < r.outputFactor * q.toNat ∧
      residue q ((r.term q).evalWord env) = residue q (env.get only) := by
  cases r with
  | fromWord full =>
      have hvalue : ((fromWord full).term q).evalWord env =
          if full then
            Word.reduceOnce (Word.barrettLazy (env.get only) (Word.reciprocal q) q) q
          else Word.barrettLazy (env.get only) (Word.reciprocal q) q := by
        cases full <;> rfl
      rw [hvalue]
      exact reduces_of_lt_twice (Word.toNat_barrettLazy_lt hone _)
        (Word.residue_barrettLazy hone _)
  | fromTwice => exact reduceOnce_reduces h
  | fromFourfold full =>
      have hvalue : ((fromFourfold full).term q).evalWord env =
          if full then Word.reduceOnce (Word.reduceOnce (env.get only) (2 * q)) q
          else Word.reduceOnce (env.get only) (2 * q) := by
        cases full <;> rfl
      have htwice := toNat_twice hq
      have hlt : (Word.reduceOnce (env.get only) (2 * q)).toNat < 2 * q.toNat := by
        rw [← htwice]
        apply toNat_reduceOnce_lt
        rw [htwice, ← Nat.mul_assoc]
        exact h
      rw [hvalue]
      exact reduces_of_lt_twice hlt (residue_reduceOnce (residue_twice hq))

/-- The factors and the operand that a reduction modulo `q` takes. An input factor that is the
modulus asks nothing of the words, whatever the modulus. -/
structure Admits (q input output : Word) (a : Array Word) : Prop where
  nonEmpty : a.size ≠ 0
  input_mem : input = q ∨ input ∈ [2, 4]
  output_mem : output ∈ [1, 2]
  differ : input ≠ output
  below : input ≠ q → ∀ x ∈ a, x.toNat < input.toNat * q.toNat

/-- What is looked at says no more and no less. -/
theorem requirements_hold_iff (hone : 1 < q.toNat) (hq : q.toNat < 2 ^ 63) {m : ℕ} :
    (∀ r ∈ (reduce q input output).requirements m #v[a], r.Holds) ↔
      m = a.size ∧ Admits q input output a := by
  change (∀ r ∈ [Requirement.nonEmpty a, .size .result a.size m, .modulus q 63,
    .factorsDiffer input output, .factor .output output [1, 2]] ++
    if input = q then [] else [.factor .input input [2, 4],
      .elements .sole a (input.toNat * q.toNat)], r.Holds) ↔ _
  simp only [List.forall_mem_append, List.forall_mem_cons, List.not_mem_nil, false_imp_iff,
    implies_true, and_true, Requirement.Holds]
  by_cases hin : input = q
  · rw [if_pos hin]
    constructor
    · rintro ⟨⟨hne, hm, -, hdiffer, hout⟩, -⟩
      exact ⟨hm, hne, .inl hin, hout, hdiffer, fun hno => absurd hin hno⟩
    · rintro ⟨hm, h⟩
      exact ⟨⟨h.nonEmpty, hm, ⟨hone, hq⟩, h.differ, h.output_mem⟩,
        fun _ hr => absurd hr List.not_mem_nil⟩
  · rw [if_neg hin]
    simp only [List.forall_mem_cons, List.not_mem_nil, false_imp_iff, implies_true, and_true]
    constructor
    · rintro ⟨⟨hne, hm, -, hdiffer, hout⟩, hinput, hbelow⟩
      exact ⟨hm, hne, .inr hinput, hout, hdiffer, fun _ => hbelow⟩
    · rintro ⟨hm, h⟩
      exact ⟨⟨h.nonEmpty, hm, ⟨hone, hq⟩, h.differ, h.output_mem⟩,
        h.input_mem.resolve_left hin, h.below hin⟩

/-- The steps that the factors call for start from the words admitted and end at the bound asked
for. -/
theorem Admits.ofFactors (h : Admits q input output a) :
    (∀ x ∈ a, x.toNat < (ofFactors q input output).inputBound q) ∧
      (ofFactors q input output).outputFactor = output.toNat := by
  obtain ⟨-, hin, hout, hdiffer, hbelow⟩ := h
  simp only [List.mem_cons, List.not_mem_nil, or_false] at hin hout
  have hfull : (if (output == 1) = true then 1 else 2) = output.toNat := by
    rcases hout with rfl | rfl <;> rfl
  unfold Reduction.ofFactors
  split_ifs with hq htwo
  · exact ⟨fun x _ => x.toNat_lt, hfull⟩
  · subst htwo
    have hone : output = 1 := hout.resolve_right hdiffer.symm
    exact ⟨hbelow hq, congrArg UInt64.toNat hone.symm⟩
  · obtain rfl : input = 4 := (hin.resolve_left hq).resolve_left htwo
    exact ⟨hbelow hq, hfull⟩

/-- An input factor that is the modulus admits any words. -/
theorem admits_modulus (hne : a.size ≠ 0) (hout : output ∈ [1, 2]) (hdiffer : q ≠ output) :
    Admits q q output a :=
  ⟨hne, .inl rfl, hout, hdiffer, fun h => absurd rfl h⟩

/-- Four times a modulus from `2^62` on is beyond every word. -/
theorem admits_of_wide (hq : 2 ^ 62 ≤ q.toNat) (hne : a.size ≠ 0) (hout : output ∈ [1, 2]) :
    Admits q 4 output a := by
  refine ⟨hne, .inr (by decide), hout, ?_, fun _ x _ => ?_⟩
  · rintro rfl
    exact absurd hout (by decide)
  · have hx := x.toNat_lt
    rw [show (4 : Word).toNat = 4 from rfl]
    omega

end Negacyclic.Kernel.Reduction
