import Mathlib
import Negacyclic.Proofs.Transform.RoundTrip

/-!
# Products of polynomials

The product of two polynomials modulo `X^n + 1` has the coefficients `negacyclicCoeff`: terms of
degree `n` and more come back with the opposite sign. At a point whose `n`-th power is -1 its
value is the product of the values (`sum_negacyclicCoeff_mul_pow`), and the points of a transform
are such points. So the word by word product of two spectra is the spectrum of the product, and
the pipeline of two forward transforms, a product and an inverse transform leaves exactly the
residues of its coefficients (`convolution`).

`negacyclicProduct` is a function of the modulus and the operands only: neither the root, nor the
precision of the tables, nor the range in which the spectra are left shows in the result.
-/

namespace Negacyclic

/-! ### The product modulo `X^n + 1` -/

section coefficients

variable {R : Type} [CommRing R]

/-- Coefficient `k` of the product modulo `X^n + 1` of two polynomials with `n` coefficients. -/
def negacyclicCoeff (n : ℕ) (f g : ℕ → R) (k : ℕ) : R :=
  (∑ p ∈ Finset.range n ×ˢ Finset.range n with p.1 + p.2 = k, f p.1 * g p.2) -
    ∑ p ∈ Finset.range n ×ˢ Finset.range n with p.1 + p.2 = k + n, f p.1 * g p.2

/-- The terms of the degrees from `d` to `d + n`, lowered by `d`. -/
theorem sum_filter_mul_pow (S : Finset (ℕ × ℕ)) (F : ℕ × ℕ → R) (x : R) (n d : ℕ) :
    ∑ k ∈ Finset.range n, (∑ p ∈ S with p.1 + p.2 = k + d, F p) * x ^ k =
      ∑ p ∈ S, if d ≤ p.1 + p.2 ∧ p.1 + p.2 < n + d then F p * x ^ (p.1 + p.2 - d) else 0 := by
  simp only [Finset.sum_filter, Finset.sum_mul, ite_mul, zero_mul]
  rw [Finset.sum_comm]
  apply Finset.sum_congr rfl
  intro p _
  by_cases hp : d ≤ p.1 + p.2 ∧ p.1 + p.2 < n + d
  · obtain ⟨e, he⟩ := Nat.exists_eq_add_of_le' hp.1
    have hmem : e ∈ Finset.range n := Finset.mem_range.2 (by omega)
    rw [if_pos hp, he, Nat.add_sub_cancel]
    simp only [Nat.add_right_cancel_iff, Finset.sum_ite_eq, if_pos hmem]
  · rw [if_neg hp]
    apply Finset.sum_eq_zero
    intro k hk
    have hlt := Finset.mem_range.1 hk
    rw [if_neg]
    intro h
    apply hp
    omega

/-- The product has the product of the values at a point whose `n`-th power is -1. -/
theorem sum_negacyclicCoeff_mul_pow {n : ℕ} {x : R} (hx : x ^ n = -1) (f g : ℕ → R) :
    ∑ k ∈ Finset.range n, negacyclicCoeff n f g k * x ^ k =
      (∑ i ∈ Finset.range n, f i * x ^ i) * ∑ j ∈ Finset.range n, g j * x ^ j := by
  have hlow := sum_filter_mul_pow (Finset.range n ×ˢ Finset.range n)
    (fun p => f p.1 * g p.2) x n 0
  have hhigh := sum_filter_mul_pow (Finset.range n ×ˢ Finset.range n)
    (fun p => f p.1 * g p.2) x n n
  simp only [Nat.add_zero] at hlow
  simp only [negacyclicCoeff, sub_mul, Finset.sum_sub_distrib, hlow, hhigh]
  rw [Finset.sum_mul_sum, ← Finset.sum_product', ← Finset.sum_sub_distrib]
  apply Finset.sum_congr rfl
  intro p hp
  obtain ⟨h₁, h₂⟩ := Finset.mem_product.1 hp
  have h₁ := Finset.mem_range.1 h₁
  have h₂ := Finset.mem_range.1 h₂
  have hterm : f p.1 * x ^ p.1 * (g p.2 * x ^ p.2) = f p.1 * g p.2 * x ^ (p.1 + p.2) := by
    rw [pow_add]
    ring
  rw [hterm, Nat.sub_zero]
  rcases Nat.lt_or_ge (p.1 + p.2) n with h | h
  · rw [if_pos ⟨Nat.zero_le _, h⟩, if_neg (by omega), sub_zero]
  · obtain ⟨e, he⟩ := Nat.exists_eq_add_of_le h
    rw [if_neg (by omega), if_pos ⟨h, by omega⟩, he, Nat.add_sub_cancel_left, pow_add, hx]
    ring

/-- Coefficients of integers, in the classes modulo a number. -/
theorem cast_negacyclicCoeff (n : ℕ) (f g : ℕ → ℤ) (k : ℕ) :
    ((negacyclicCoeff n f g k : ℤ) : R) =
      negacyclicCoeff n (fun i => (f i : R)) (fun j => (g j : R)) k := by
  simp only [negacyclicCoeff, Int.cast_sub, Int.cast_sum, Int.cast_mul]

end coefficients

/-! ### The product of words -/

/-- The residues of the product modulo `X^n + 1` of two arrays of `n` words. -/
def negacyclicProduct (q : Word) (a b : Array Word) : Array Word :=
  Array.ofFn fun k : Fin a.size =>
    .ofNat (negacyclicCoeff a.size (fun i => ((a.getD i 0).toNat : ℤ))
      (fun j => ((b.getD j 0).toNat : ℤ)) k % q.toNat).toNat

section product

variable {q : Word} {a b : Array Word} {n : ℕ}

/-- The words of the product, as remainders of the integer sums. The terms that wrap around have the
sign changed, which is why the sums are taken over the integers. -/
theorem toNat_negacyclicProduct (hq : 0 < q.toNat) (b : Array Word) {k : ℕ} (hk : k < a.size) :
    (((negacyclicProduct q a b).getD k 0).toNat : ℤ) =
      negacyclicCoeff a.size (fun i => ((a.getD i 0).toNat : ℤ))
        (fun j => ((b.getD j 0).toNat : ℤ)) k % q.toNat := by
  unfold negacyclicProduct
  rw [getD_ofFn _ _ hk, toNat_ofNat_emod hq]

/-- The product in ranges and classes. -/
theorem represents_negacyclicProduct (hq : 0 < q.toNat) (ha : a.size = n) (b : Array Word) :
    Represents q (1 * q.toNat) n (negacyclicProduct q a b) fun k =>
      negacyclicCoeff n (fun i => residue q (a.getD i 0)) (fun j => residue q (b.getD j 0)) k := by
  have hpos : 0 < (q.toNat : ℤ) := by omega
  refine ⟨by rw [negacyclicProduct, Array.size_ofFn, ha], ?_, ?_⟩
  · intro k hk
    have hlt := Int.emod_lt_of_pos (negacyclicCoeff a.size (fun i => ((a.getD i 0).toNat : ℤ))
      (fun j => ((b.getD j 0).toNat : ℤ)) k) hpos
    rw [← toNat_negacyclicProduct hq b (ha.symm ▸ hk)] at hlt
    omega
  · intro k hk
    have hcast := congrArg (Int.cast : ℤ → ZMod q.toNat)
      (toNat_negacyclicProduct hq b (ha.symm ▸ hk))
    rw [ZMod.intCast_mod, cast_negacyclicCoeff, ha] at hcast
    simp only [Int.cast_natCast] at hcast
    exact hcast

end product

/-! ### The pipeline -/

namespace Transform

variable {isPrime : Word → Bool} {T : Transform} {a b : Array Word}

/-- Two forward transforms, the product of the spectra and the inverse transform leave the residues
of the product modulo `X^n + 1`, for every transform that is built, on every machine and for lazy
and reduced spectra alike. Every step succeeds. -/
theorem convolution (hT : T.Built isPrime) (backend backend' backend'' : Backend) {f g : Word}
    (hf : f ∈ [1, 2, 4]) (hg : g ∈ [1, 4]) (ha : a.size = T.degree) (hb : b.size = T.degree)
    (hlta : ∀ v ∈ a, v.toNat < f.toNat * T.modulus.toNat)
    (hltb : ∀ v ∈ b, v.toNat < f.toNat * T.modulus.toNat) :
    (∃ A B C, T.ForwardGives backend f g a A ∧ T.ForwardGives backend f g b B ∧
      ((Kernel.mul T.modulus g).write backend' #v[A, B]).Writes T.degree C ∧
      T.InverseGives backend'' 1 1 C (negacyclicProduct T.modulus a b)) ∧
    ∀ i < T.degree, ((negacyclicProduct T.modulus a b).getD i 0).toNat < T.modulus.toNat ∧
      (((negacyclicProduct T.modulus a b).getD i 0).toNat : ℤ) =
        ((∑ p ∈ Finset.range T.degree ×ˢ Finset.range T.degree with p.1 + p.2 = i,
            ((a.getD p.1 0).toNat : ℤ) * (b.getD p.2 0).toNat) -
          ∑ p ∈ Finset.range T.degree ×ˢ Finset.range T.degree with p.1 + p.2 = i + T.degree,
            ((a.getD p.1 0).toNat : ℤ) * (b.getD p.2 0).toNat) % T.modulus.toNat := by
  obtain ⟨K, -, hK⟩ := hT.wellFormed
  have hdegree := hK.degree_eq
  have hpos : 0 < T.modulus.toNat := Nat.lt_of_succ_lt hK.one_lt
  have hproduct := represents_negacyclicProduct hpos (ha.trans hdegree) b
  constructor
  · have hgmul : g ∈ Kernel.productFactors := by
      simp only [Kernel.productFactors, List.mem_cons, List.not_mem_nil, or_false] at hg ⊢
      tauto
    obtain ⟨A, hgivesA, hA⟩ :=
      hK.forwardGives backend hf hg (Represents.of_mem (ha.trans hdegree) hlta)
    obtain ⟨B, hgivesB, hB⟩ :=
      hK.forwardGives backend hf hg (Represents.of_mem (hb.trans hdegree) hltb)
    obtain ⟨C, hwrites, hC⟩ :=
      Kernel.mul_writes hK.spacious hK.one_lt hgmul backend' (Nat.two_pow_pos K) hA hB
    have hspectrum := hC.congr fun j _ =>
      (sum_negacyclicCoeff_mul_pow (oddPower_pow_whole hK.root_pow j) _ _).symm
    obtain ⟨c, hback, hc⟩ :=
      hK.inverseGives_of_values backend'' (show (1 : Word) ∈ [1, 2] by decide) hspectrum
    rw [hc.eq_of_residues hproduct] at hback
    exact ⟨A, B, C, hgivesA, hgivesB, hdegree ▸ hwrites, hback⟩
  · intro i hi
    have hlt := hproduct.toNat_lt i (hdegree ▸ hi)
    rw [Nat.one_mul] at hlt
    have hvalue := toNat_negacyclicProduct hpos b (ha.symm ▸ hi)
    rw [ha] at hvalue
    exact ⟨hlt, hvalue⟩

/-- Lazy spectra of the greatest operands, on both machines. -/
theorem convolution_deep :
    let a : Array Word := .replicate 2048 49155
    let b : Array Word := .replicate 2048 49154
    deep.Built Prime.exactTest ∧ (4 : Word) ∈ [1, 2, 4] ∧ (4 : Word) ∈ [1, 4] ∧
      a.size = deep.degree ∧ b.size = deep.degree ∧
      (∀ v ∈ a, v.toNat < (4 : Word).toNat * deep.modulus.toNat) ∧
      (∀ v ∈ b, v.toNat < (4 : Word).toNat * deep.modulus.toNat) ∧
      ∃ A B C, deep.ForwardGives .eightLane 4 4 a A ∧ deep.ForwardGives .eightLane 4 4 b B ∧
        ((Kernel.mul 12289 4).write .portable #v[A, B]).Writes 2048 C ∧
        deep.InverseGives .eightLane 1 1 C (negacyclicProduct 12289 a b) := by
  intro a b
  have hf : (4 : Word) ∈ [1, 2, 4] := by decide
  have hg : (4 : Word) ∈ [1, 4] := by decide
  have ha : a.size = deep.degree := Array.size_replicate
  have hb : b.size = deep.degree := Array.size_replicate
  have hlta : ∀ v ∈ a, v.toNat < (4 : Word).toNat * deep.modulus.toNat :=
    toNat_lt_of_mem_replicate (by decide)
  have hltb : ∀ v ∈ b, v.toNat < (4 : Word).toNat * deep.modulus.toNat :=
    toNat_lt_of_mem_replicate (by decide)
  obtain ⟨hpipeline, -⟩ :=
    convolution deep_built .eightLane .portable .eightLane hf hg ha hb hlta hltb
  exact ⟨deep_built, hf, hg, ha, hb, hlta, hltb, hpipeline⟩

end Transform

end Negacyclic
