import Mathlib.Algebra.BigOperators.Fin
import Negacyclic.Proofs.Kernel.Reduction
import Negacyclic.Proofs.Kernel.Value
import Negacyclic.Proofs.Residue.Represents
import Negacyclic.Proofs.Residue.WideReciprocal

/-!
# Kernels on words with a range

What the kernels around a transform make of words of which the range and the classes are known: the
reduction from below `4 * q` to below `2 * q` keeps the classes, the product multiplies them, and
the sum, the difference and the product with a word combine them linearly (`Combines`). A range
that an operand has is the range that its requirement asks for, so every step succeeds.
-/

namespace Negacyclic.Kernel

variable {q : Word} {n : ℕ}

/-- A kernel whose requirements hold, by the value of its rule on words in the range of the
operands. -/
theorem writes_represents {m bound bound' : ℕ} {K : Kernel m} {xs : Vector (Array Word) m}
    {f : Fin m → ℕ → ZMod q.toNat} (hreqs : ∀ r ∈ K.requirements n xs, r.Holds)
    (h : (Fin m → ZMod q.toNat) → ZMod q.toNat)
    (hword : ∀ env : Vector Word m, (∀ i, (env.get i).toNat < bound) →
      (K.rule.evalWord env).toNat < bound' ∧
        residue q (K.rule.evalWord env) = h fun i => residue q (env.get i))
    (hxs : ∀ i, Represents q bound n (xs.get i) (f i)) :
    ∃ y, (∀ backend, (K.write backend xs).Writes n y) ∧
      Represents q bound' n y fun j => h fun i => f i j := by
  have hget (j : ℕ) (i : Fin m) :
      (xs.map fun x : Array Word => x.getD j 0).get i = (xs.get i).getD j 0 := by
    simp [Vector.get]
  have hrange (j : Fin n) (i : Fin m) :
      ((xs.map fun x : Array Word => x.getD j 0).get i).toNat < bound := by
    rw [hget]
    exact (hxs i).toNat_lt j j.isLt
  refine ⟨_, fun backend => writes_of_holds K backend xs n hreqs, Represents.ofFn ?_ ?_⟩
  · exact fun j => (hword _ (hrange j)).1
  · intro j
    rw [(hword _ (hrange j)).2]
    congr 1
    funext i
    rw [hget, (hxs i).residue_eq j j.isLt]

/-- A word that holds a remainder is a residue in its class. -/
theorem residue_of_toNat_eq_mod {x : Word} {m : ℕ} (hq : 0 < q.toNat)
    (h : x.toNat = m % q.toNat) : x.toNat < 1 * q.toNat ∧ residue q x = (m : ZMod q.toNat) := by
  rw [Nat.one_mul, h]
  exact ⟨Nat.mod_lt _ hq, residue_eq_natCast (by rw [h, Nat.mod_mod])⟩

/-! ### Between two transforms -/

/-- The reduction of the words that a lazy forward transform leaves to words that an inverse
transform accepts. -/
theorem reduce_writes {p : Precision} (hq : Spacious p q) (hone : 1 < q.toNat) (hfour : q ≠ 4)
    (backend : Backend) (hn : 0 < n) {a : Array Word} {f : ℕ → ZMod q.toNat}
    (ha : Represents q (4 * q.toNat) n a f) :
    ∃ y, ((reduce q 4 2).write backend #v[a]).Writes n y ∧ Represents q (2 * q.toNat) n y f := by
  have h63 : q.toNat < 2 ^ 63 := hq.lt_two_pow.trans (by decide)
  have hsize := ha.size_eq
  have hadmits : Reduction.Admits q 4 2 a :=
    { nonEmpty := fun h => hn.ne' (hsize.symm.trans h)
      input_mem := .inr (by decide)
      output_mem := by decide
      differ := by decide
      below := fun _ => ha.toNat_lt_of_mem }
  have hreqs := (Reduction.requirements_hold_iff hone h63).2 ⟨hsize.symm, hadmits⟩
  have hsteps : Reduction.ofFactors q 4 2 = .fromFourfold false := by
    rw [Reduction.ofFactors, if_neg (Ne.symm hfour)]
    rfl
  have hword (env : Vector Word 1) (henv : ∀ i, (env.get i).toNat < 4 * q.toNat) :
      ((reduce q 4 2).rule.evalWord env).toNat < 2 * q.toNat ∧
        residue q ((reduce q 4 2).rule.evalWord env) = residue q (env.get only) := by
    change (((Reduction.ofFactors q 4 2).term q).evalWord env).toNat < _ ∧
      residue q (((Reduction.ofFactors q 4 2).term q).evalWord env) = _
    rw [hsteps]
    exact Reduction.term_reduces hone h63 (.fromFourfold false) (henv only)
  obtain ⟨y, hwrites, hy⟩ := writes_represents (f := fun _ => f) hreqs (fun c => c only) hword
    (fun i => by rwa [Subsingleton.elim i only])
  exact ⟨y, hwrites backend, hy⟩

/-- What is asked of two arrays of words below `factor * q`. -/
theorem binaryRequirements_hold {bits factor : ℕ} {a b : Array Word} {f g : ℕ → ZMod q.toNat}
    (hone : 1 < q.toNat) (hbits : q.toNat < 2 ^ bits) (hn : 0 < n)
    (ha : Represents q (factor * q.toNat) n a f) (hb : Represents q (factor * q.toNat) n b g) :
    ∀ r ∈ binaryRequirements q bits factor n a b, r.Holds := by
  have hsize := ha.size_eq
  simp only [binaryRequirements, List.forall_mem_cons, List.not_mem_nil, false_imp_iff,
    implies_true, and_true, Requirement.Holds]
  exact ⟨fun h => hn.ne' (hsize.symm.trans h), hsize.symm, hb.size_eq.trans hsize.symm,
    ⟨hone, hbits⟩, ha.toNat_lt_of_mem, hb.toNat_lt_of_mem⟩

/-- The product of two arrays of words below `factor * q`. -/
theorem mul_writes {p : Precision} (hq : Spacious p q) (hone : 1 < q.toNat) {factor : Word}
    (hfactor : factor ∈ productFactors) (backend : Backend) (hn : 0 < n) {a b : Array Word}
    {f g : ℕ → ZMod q.toNat} (ha : Represents q (factor.toNat * q.toNat) n a f)
    (hb : Represents q (factor.toNat * q.toNat) n b g) :
    ∃ y, ((mul q factor).write backend #v[a, b]).Writes n y ∧
      Represents q (1 * q.toNat) n y fun i => f i * g i := by
  have h62 := hq.lt_two_pow
  have hreqs : ∀ r ∈ (mul q factor).requirements n #v[a, b], r.Holds :=
    List.forall_mem_cons.2 ⟨hfactor, binaryRequirements_hold hone h62 hn ha hb⟩
  have hword (env : Vector Word 2) := residue_of_toNat_eq_mod (by omega)
    (WideReciprocal.toNat_mul hone (by omega) (env.get first) (env.get second))
  obtain ⟨y, hwrites, hy⟩ := writes_represents (f := ![f, g]) hreqs (fun c => c first * c second)
    (fun env _ => ⟨(hword env).1, (hword env).2.trans (Nat.cast_mul _ _)⟩)
    (Fin.forall_fin_two.2 ⟨ha, hb⟩)
  exact ⟨y, hwrites backend, hy⟩

/-! ### Linear kernels -/

/-- The kernel takes arrays of `n` residues to the residues of their sum with the weights `u`, on
every machine. -/
def Combines {m : ℕ} (K : Kernel m) (q : Word) (n : ℕ) (u : Fin m → ZMod q.toNat) : Prop :=
  ∀ (xs : Vector (Array Word) m) (f : Fin m → ℕ → ZMod q.toNat),
    (∀ i, Represents q (1 * q.toNat) n (xs.get i) (f i)) →
      ∃ y, (∀ backend, (K.write backend xs).Writes n y) ∧
        Represents q (1 * q.toNat) n y fun j => ∑ i, u i * f i j

/-- On residues the sum of two arrays combines their classes with the coefficients 1 and 1. -/
theorem add_combines (hone : 1 < q.toNat) (hq : q.toNat < 2 ^ 63) (hn : 0 < n) :
    Combines (add q) q n ![1, 1] := by
  intro xs f hxs
  refine writes_represents (binaryRequirements_hold hone hq hn (hxs first) (hxs second))
    (fun c => ∑ i, ![1, 1] i * c i) (fun env henv => ?_) hxs
  simp only [Nat.one_mul] at henv
  obtain ⟨hlt, hclass⟩ :=
    residue_of_toNat_eq_mod (by omega) (toNat_add_word hq.le (henv first) (henv second))
  refine ⟨hlt, hclass.trans ?_⟩
  simp [residue]

/-- On residues the difference of two arrays combines their classes with the coefficients 1 and
-1. -/
theorem sub_combines (hone : 1 < q.toNat) (hq : q.toNat < 2 ^ 63) (hn : 0 < n) :
    Combines (sub q) q n ![1, -1] := by
  intro xs f hxs
  refine writes_represents (binaryRequirements_hold hone hq hn (hxs first) (hxs second))
    (fun c => ∑ i, ![1, -1] i * c i) (fun env henv => ?_) hxs
  simp only [Nat.one_mul] at henv
  obtain ⟨hlt, hclass⟩ :=
    residue_of_toNat_eq_mod (by omega) (toNat_sub_word (henv first) (henv second))
  refine ⟨hlt, hclass.trans ?_⟩
  simp [residue, Nat.cast_sub (henv second).le]

/-- What is asked of the multiplicand and the multiplier of a product with a word. -/
theorem scaleRequirements_hold {s factor : Word} {a : Array Word} (hone : 1 < q.toNat)
    (hq : q.toNat < 2 ^ 62) (hfactor : factor ∈ productFactors) (hne : a.size ≠ 0)
    (hsize : n = a.size) (ha : ∀ x ∈ a, x.toNat < factor.toNat * q.toNat)
    (hs : s.toNat < factor.toNat * q.toNat) :
    ∀ r ∈ scaleRequirements q s factor n a, r.Holds := by
  simp only [scaleRequirements, List.forall_mem_cons, List.not_mem_nil, false_imp_iff,
    implies_true, and_true, Requirement.Holds]
  exact ⟨hne, hsize, ⟨hone, hq⟩, hfactor, ha, hs⟩

/-- What is asked of the addend besides. -/
theorem addendRequirements_hold {bound : ℕ} {a c : Array Word} (hsize : c.size = a.size)
    (hc : ∀ x ∈ c, x.toNat < bound) :
    ∀ r ∈ [Requirement.size .addend a.size c.size, .elements .addend c bound], r.Holds :=
  List.forall_mem_cons.2 ⟨hsize, List.forall_mem_singleton.2 hc⟩

/-- On residues the multiply-add combines the classes of its arrays with the coefficients `s` and
1. -/
theorem scaleAdd_combines (hone : 1 < q.toNat) (hq : q.toNat < 2 ^ 62) (hn : 0 < n) {s : Word}
    (hs : s.toNat < q.toNat) : Combines (scaleAdd q s 1) q n ![residue q s, 1] := by
  intro xs f hxs
  have hfactor : (1 : Word) ∈ productFactors := by decide
  have hsize := (hxs first).size_eq
  have hs' : s.toNat < (1 : Word).toNat * q.toNat := by
    rwa [show (1 : Word).toNat = 1 from rfl, Nat.one_mul]
  have hscale := scaleRequirements_hold hone hq hfactor
    (fun h => hn.ne' (hsize.symm.trans h)) hsize.symm (hxs first).toNat_lt_of_mem hs'
  have haddend := addendRequirements_hold ((hxs second).size_eq.trans hsize.symm)
    (hxs second).toNat_lt_of_mem
  have hreqs : ∀ r ∈ (scaleAdd q s 1).requirements n xs, r.Holds :=
    List.forall_mem_append.2 ⟨hscale, haddend⟩
  refine writes_represents hreqs (fun c => ∑ i, ![residue q s, 1] i * c i)
    (fun env henv => ?_) hxs
  obtain ⟨hlt, hclass⟩ := residue_of_toNat_eq_mod (by omega)
    (toNat_scaleAdd_word hone hq hfactor s (henv first) (henv second))
  refine ⟨hlt, hclass.trans ?_⟩
  simp [residue, mul_comm]

end Negacyclic.Kernel
