import Negacyclic.Proofs.Kernel.Range
import Negacyclic.Proofs.Transform.Evaluation
import Negacyclic.Proofs.Transform.Interpolation

/-!
# Transforms are linear

A transform with factors 1 and 1 leaves residues whose classes are sums of those of its operand,
with weights that depend on the root only (`WellFormed.forward_linear`,
`WellFormed.inverse_linear`). A step of that kind may be exchanged with any kernel that combines
its operands linearly (`Linear.commutes`): on either side stand residues, and they are in the
same classes. So the sum, the difference and the multiple of a word may be taken before a transform
or after it, and the words are the same (`kernels_commute`), although the lazy words in between are
not.
-/

namespace Negacyclic.Transform

/-! ### Linear steps -/

section linear

variable {q : Word} {n : ℕ} {step : Backend → Array Word → Array Word → Prop}
  {w : ℕ → ℕ → ZMod q.toNat}

/-- The step takes `n` residues to `n` residues, position `j` to the sum of the operand with the
weights `w · j`, and the machine does not show. -/
def Linear (step : Backend → Array Word → Array Word → Prop) (q : Word) (n : ℕ)
    (w : ℕ → ℕ → ZMod q.toNat) : Prop :=
  ∀ (a : Array Word) (f : ℕ → ZMod q.toNat), Represents q (1 * q.toNat) n a f →
    ∃ y, (∀ backend, step backend a y) ∧
      Represents q (1 * q.toNat) n y fun j => ∑ i ∈ Finset.range n, f i * w i j

/-- A step that is linear on each machine leaves the same residues on all. -/
theorem linear_of_machines
    (h : ∀ (backend : Backend) (a : Array Word) (f : ℕ → ZMod q.toNat),
      Represents q (1 * q.toNat) n a f → ∃ y, step backend a y ∧
        Represents q (1 * q.toNat) n y fun j => ∑ i ∈ Finset.range n, f i * w i j) :
    Linear step q n w := by
  intro a f ha
  obtain ⟨y, -, hy⟩ := h .portable a f ha
  refine ⟨y, fun backend => ?_, hy⟩
  obtain ⟨z, hstep, hz⟩ := h backend a f ha
  rwa [hz.eq_of_residues hy] at hstep

/-- The kernel may run before the step or after it: either way the step and the kernel succeed on
every machine, and they leave the same words. -/
def Commutes {m : ℕ} (step : Backend → Array Word → Array Word → Prop) (K : Kernel m) (n : ℕ)
    (xs : Vector (Array Word) m) : Prop :=
  ∃ (ys : Vector (Array Word) m) (before after : Array Word),
    (∀ backend i, step backend (xs.get i) (ys.get i)) ∧
      (∀ backend, (K.write backend ys).Writes n after) ∧
      (∀ backend, (K.write backend xs).Writes n before) ∧
      ∀ backend, step backend before after

/-- A linear step commutes with every kernel that combines classes: both orders leave residues, and
in the same classes, because the sums over the positions and over the operands can be exchanged. -/
theorem Linear.commutes {m : ℕ} (hstep : Linear step q n w) {K : Kernel m}
    {u : Fin m → ZMod q.toNat} (hK : K.Combines q n u) {xs : Vector (Array Word) m}
    {f : Fin m → ℕ → ZMod q.toNat} (hxs : ∀ i, Represents q (1 * q.toNat) n (xs.get i) (f i)) :
    Commutes step K n xs := by
  choose y hy hsums using fun i => hstep (xs.get i) (f i) (hxs i)
  have hget (i : Fin m) : (Vector.ofFn y).get i = y i := Vector.getElem_ofFn i.isLt
  obtain ⟨before, hbefore, hcombined⟩ := hK xs f hxs
  obtain ⟨after, hafter, hsumsCombined⟩ := hstep before _ hcombined
  obtain ⟨z, hz, hcombinedSums⟩ := hK (Vector.ofFn y) _ fun i => (hget i).symm ▸ hsums i
  -- residues on both sides, so the classes decide
  have hsame : z = after := by
    refine hcombinedSums.eq_of_residues (hsumsCombined.congr fun j _ => ?_)
    calc ∑ i ∈ Finset.range n, (∑ l, u l * f l i) * w i j
        = ∑ i ∈ Finset.range n, ∑ l, u l * (f l i * w i j) := by
          simp only [Finset.sum_mul, mul_assoc]
      _ = ∑ l, u l * ∑ i ∈ Finset.range n, f l i * w i j := by
          rw [Finset.sum_comm]
          simp only [Finset.mul_sum]
  refine ⟨Vector.ofFn y, before, after, fun k i => ?_, hsame ▸ hz, hbefore, hafter⟩
  rw [hget]
  exact hy i k

end linear

/-! ### The two transforms -/

variable {isPrime : Word → Bool} {T : Transform} {K : ℕ} {a b : Array Word}

/-- The forward transform is linear: the coefficient of word `i` in word `j` is a power of an odd
power of the root. -/
theorem WellFormed.forward_linear (hT : T.WellFormed K) :
    Linear (T.ForwardGives · 1 1) T.modulus (2 ^ K) fun i j =>
      oddPower (residue T.modulus T.root) K j ^ i :=
  linear_of_machines fun backend _ _ ha => hT.forwardGives backend (by decide) (by decide) ha

/-- The inverse transform is linear, with the powers of the inverse root and the scaling for its
coefficients. -/
theorem WellFormed.inverse_linear (hT : T.WellFormed K) :
    Linear (T.InverseGives · 1 1) T.modulus (2 ^ K) fun i j =>
      residue T.modulus T.scale.value * oddPower T.inverseRoot K i ^ j := by
  refine linear_of_machines fun backend a f ha => ?_
  obtain ⟨y, hgives, hy⟩ := hT.inverseGives backend (show (1 : Word) ∈ [1, 2] by decide)
    (show (1 : Word) ∈ [1, 2] by decide) ha
  refine ⟨y, hgives, hy.congr fun j _ => ?_⟩
  rw [Finset.mul_sum]
  apply Finset.sum_congr rfl
  intro i _
  ring

/-- The sum, the difference and the multiply-add with a word may be exchanged with the forward and
with the inverse transform, for every transform that is built: all steps succeed, on whichever
machines, and leave the same words. -/
theorem kernels_commute (hT : T.Built isPrime) {s : Word} (hs : s.toNat < T.modulus.toNat)
    (ha : a.size = T.degree) (hb : b.size = T.degree) (hlta : ∀ x ∈ a, x.toNat < T.modulus.toNat)
    (hltb : ∀ x ∈ b, x.toNat < T.modulus.toNat) :
    ∀ kernel ∈ [Kernel.add T.modulus, Kernel.sub T.modulus, Kernel.scaleAdd T.modulus s 1],
      Commutes (T.ForwardGives · 1 1) kernel T.degree #v[a, b] ∧
        Commutes (T.InverseGives · 1 1) kernel T.degree #v[a, b] := by
  obtain ⟨K, -, hK⟩ := hT.wellFormed
  have h62 := hK.spacious.lt_two_pow
  have hn := Nat.two_pow_pos K
  rw [hK.degree_eq] at ha hb ⊢
  rw [← Nat.one_mul T.modulus.toNat] at hlta hltb
  have hoperands : ∀ i : Fin 2, Represents T.modulus (1 * T.modulus.toNat) (2 ^ K)
      (#v[a, b].get i) fun j => residue T.modulus ((#v[a, b].get i).getD j 0) :=
    Fin.forall_fin_two.2 ⟨Represents.of_mem ha hlta, Represents.of_mem hb hltb⟩
  have hexchange {kernel : Kernel 2} {u : Fin 2 → ZMod T.modulus.toNat}
      (hkernel : kernel.Combines T.modulus (2 ^ K) u) :
      Commutes (T.ForwardGives · 1 1) kernel (2 ^ K) #v[a, b] ∧
        Commutes (T.InverseGives · 1 1) kernel (2 ^ K) #v[a, b] :=
    ⟨hK.forward_linear.commutes hkernel hoperands, hK.inverse_linear.commutes hkernel hoperands⟩
  simp only [List.forall_mem_cons, List.not_mem_nil, false_imp_iff, implies_true, and_true]
  exact ⟨hexchange (Kernel.add_combines hK.one_lt (by omega) hn),
    hexchange (Kernel.sub_combines hK.one_lt (by omega) hn),
    hexchange (Kernel.scaleAdd_combines hK.one_lt h62 hn hs)⟩

/-- The greatest residues and the greatest multiplier. -/
theorem kernels_commute_deep :
    let a : Array Word := .replicate 2048 12288
    let b : Array Word := .replicate 2048 1
    deep.Built Prime.exactTest ∧ (12288 : Word).toNat < deep.modulus.toNat ∧
      a.size = deep.degree ∧ b.size = deep.degree ∧
      (∀ x ∈ a, x.toNat < deep.modulus.toNat) ∧ (∀ x ∈ b, x.toNat < deep.modulus.toNat) ∧
      Commutes (deep.ForwardGives · 1 1) (Kernel.scaleAdd 12289 12288 1) 2048 #v[a, b] ∧
      Commutes (deep.InverseGives · 1 1) (Kernel.sub 12289) 2048 #v[a, b] := by
  intro a b
  have hs : (12288 : Word).toNat < deep.modulus.toNat := by decide
  have ha : a.size = deep.degree := Array.size_replicate
  have hb : b.size = deep.degree := Array.size_replicate
  have hlta : ∀ x ∈ a, x.toNat < deep.modulus.toNat := toNat_lt_of_mem_replicate (by decide)
  have hltb : ∀ x ∈ b, x.toNat < deep.modulus.toNat := toNat_lt_of_mem_replicate (by decide)
  have hall := kernels_commute deep_built hs ha hb hlta hltb
  have hscale := hall (Kernel.scaleAdd deep.modulus 12288 1) (by simp)
  have hsub := hall (Kernel.sub deep.modulus) (by simp)
  exact ⟨deep_built, hs, ha, hb, hlta, hltb, hscale.1, hsub.2⟩

end Negacyclic.Transform
