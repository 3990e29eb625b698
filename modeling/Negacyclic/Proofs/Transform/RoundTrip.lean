import Negacyclic.Proofs.Kernel.Range
import Negacyclic.Proofs.Transform.Evaluation
import Negacyclic.Proofs.Transform.Interpolation
import Negacyclic.Proofs.Transform.Orthogonality

/-!
# Round trips

The forward and the inverse transform undo each other, in either order and whatever lazy range the
words have in between, as long as the one may leave what the other accepts (`round_trip`). Words
below `4 * q`, which only the forward transform may leave, are brought below `2 * q` by the
reduction kernel first.

Each step is known by the classes of what it leaves, so a round trip is a statement about sums
(`interpolate_evaluate`, `evaluate_interpolate`), and its result is fixed by its classes because
it consists of residues.
-/

namespace Negacyclic.Transform

variable {isPrime : Word → Bool} {T : Transform} {K : ℕ} {x : Array Word}

/-! ### The modulus -/

/-- The size is invertible, so the modulus is odd. -/
theorem WellFormed.modulus_odd (hT : T.WellFormed K) : T.modulus.toNat % 2 = 1 := by
  by_contra heven
  have hone := hT.one_lt
  obtain ⟨k, rfl⟩ : ∃ k, K = k + 1 := Nat.exists_eq_add_of_le' hT.degree_pos
  obtain ⟨m, hm⟩ : ∃ m, T.modulus.toNat = 2 * m := ⟨T.modulus.toNat / 2, by omega⟩
  have hzero : ((2 * m : ℕ) : ZMod T.modulus.toNat) = 0 := by
    rw [← hm, ZMod.natCast_self]
  rw [Nat.cast_mul, Nat.cast_ofNat] at hzero
  have hscale := hT.residue_scale
  rw [pow_succ] at hscale
  have hhalf : (m : ZMod T.modulus.toNat) = 0 := by
    linear_combination residue T.modulus T.scale.value * 2 ^ k * hzero - m * hscale
  have hdvd := (ZMod.natCast_eq_zero_iff m T.modulus.toNat).1 hhalf
  have hle := Nat.le_of_dvd (by omega) hdvd
  omega

/-- The modulus is odd, so it is not 4; an input factor of 4 is therefore never read as the
modulus. -/
theorem WellFormed.modulus_ne_four (hT : T.WellFormed K) : T.modulus ≠ 4 := by
  intro h
  have hodd := hT.modulus_odd
  rw [h] at hodd
  exact absurd hodd (by decide)

/-! ### Two steps -/

/-- Residues with the classes of given words are the residues of these words. -/
theorem WellFormed.eq_map_mod (hT : T.WellFormed K) {bound : ℕ} {y : Array Word}
    {f : ℕ → ZMod T.modulus.toNat} (hx : Represents T.modulus bound (2 ^ K) x f)
    (hy : Represents T.modulus (1 * T.modulus.toNat) (2 ^ K) y f) :
    y = x.map (· % T.modulus) := by
  have hone := hT.one_lt
  refine hy.eq_of_residues (hx.map ?_ ?_)
  · intro w _
    rw [UInt64.toNat_mod, Nat.one_mul]
    exact Nat.mod_lt _ (by omega)
  · intro w _
    exact residue_mod w

/-- The inverse transform of a spectrum leaves the residues that the spectrum belongs to. -/
theorem WellFormed.inverseGives_of_values (hT : T.WellFormed K) (backend : Backend) {input : Word}
    (hin : input ∈ [1, 2]) {y : Array Word} {f : ℕ → ZMod T.modulus.toNat}
    (hy : Represents T.modulus (input.toNat * T.modulus.toNat) (2 ^ K) y fun j =>
      ∑ i ∈ Finset.range (2 ^ K), f i * oddPower (residue T.modulus T.root) K j ^ i) :
    ∃ z, T.InverseGives backend input 1 y z ∧
      Represents T.modulus (1 * T.modulus.toNat) (2 ^ K) z f := by
  obtain ⟨z, hgives, hz⟩ := hT.inverseGives backend hin (show (1 : Word) ∈ [1, 2] by decide) hy
  refine ⟨z, hgives, hz.congr fun i hi => ?_⟩
  exact interpolate_evaluate hT.inverseRoot_mul hT.root_pow hT.inverseRoot_pow hT.residue_scale f hi

/-- The two transforms undo each other through every range in which one may leave its words for
the other: forward and back, back and forward, and forward, lazily reduced, and back. Every step
succeeds on every machine. -/
theorem round_trip (hT : T.Built isPrime) (backend backend' backend'' : Backend)
    (hx : x.size = T.degree) :
    (∀ f ∈ ([1, 2, 4] : List Word), (∀ v ∈ x, v.toNat < f.toNat * T.modulus.toNat) →
      ∃ y, T.ForwardGives backend f 1 x y ∧
        T.InverseGives backend' 1 1 y (x.map (· % T.modulus))) ∧
    (∀ f ∈ ([1, 2] : List Word), (∀ v ∈ x, v.toNat < f.toNat * T.modulus.toNat) →
      ∀ g ∈ ([1, 2] : List Word),
        ∃ y, T.InverseGives backend f g x y ∧
          T.ForwardGives backend' g 1 y (x.map (· % T.modulus))) ∧
    (∀ f ∈ ([1, 2, 4] : List Word), (∀ v ∈ x, v.toNat < f.toNat * T.modulus.toNat) →
      ∃ y z, T.ForwardGives backend f 4 x y ∧
        ((Kernel.reduce T.modulus 4 2).write backend' #v[y]).Writes T.degree z ∧
        T.InverseGives backend'' 2 1 z (x.map (· % T.modulus))) := by
  obtain ⟨K, -, hK⟩ := hT.wellFormed
  have hdegree := hK.degree_eq
  have hsize : x.size = 2 ^ K := hx.trans hdegree
  refine ⟨?_, ?_, ?_⟩
  · intro f hf hlt
    have hvalues := Represents.of_mem (q := T.modulus) hsize hlt
    obtain ⟨y, hgives, hy⟩ :=
      hK.forwardGives backend hf (show (1 : Word) ∈ [1, 4] by decide) hvalues
    obtain ⟨z, hback, hz⟩ :=
      hK.inverseGives_of_values backend' (show (1 : Word) ∈ [1, 2] by decide) hy
    rw [hK.eq_map_mod hvalues hz] at hback
    exact ⟨y, hgives, hback⟩
  · intro f hf hlt g hg
    have hvalues := Represents.of_mem (q := T.modulus) hsize hlt
    obtain ⟨y, hgives, hy⟩ := hK.inverseGives backend hf hg hvalues
    have hg' : g ∈ [1, 2, 4] := by
      simp only [List.mem_cons, List.not_mem_nil, or_false] at hg ⊢
      tauto
    obtain ⟨z, hback, hz⟩ := hK.forwardGives backend' hg' (show (1 : Word) ∈ [1, 4] by decide) hy
    have hz' := hz.congr fun j hj => evaluate_interpolate hK.inverseRoot_mul hK.root_pow
      hK.inverseRoot_pow hK.residue_scale _ hj
    rw [hK.eq_map_mod hvalues hz'] at hback
    exact ⟨y, hgives, hback⟩
  · intro f hf hlt
    have hvalues := Represents.of_mem (q := T.modulus) hsize hlt
    obtain ⟨y, hgives, hy⟩ :=
      hK.forwardGives backend hf (show (4 : Word) ∈ [1, 4] by decide) hvalues
    obtain ⟨z, hwrites, hz⟩ :=
      Kernel.reduce_writes hK.spacious hK.one_lt hK.modulus_ne_four backend' (Nat.two_pow_pos K) hy
    obtain ⟨w, hback, hw⟩ :=
      hK.inverseGives_of_values backend'' (show (2 : Word) ∈ [1, 2] by decide) hz
    rw [hK.eq_map_mod hvalues hw] at hback
    exact ⟨y, z, hgives, hdegree ▸ hwrites, hback⟩

/-- Forward on words and back on registers, in blocks both ways. -/
theorem round_trip_deep :
    let x : Array Word := .replicate 2048 24577
    deep.Built Prime.exactTest ∧ x.size = deep.degree ∧
      (∀ v ∈ x, v.toNat < (2 : Word).toNat * deep.modulus.toNat) ∧
      ∃ y, deep.ForwardGives .portable 2 1 x y ∧
        deep.InverseGives .eightLane 1 1 y (.replicate 2048 12288) := by
  intro x
  have hsize : x.size = deep.degree := Array.size_replicate
  have hlt : ∀ v ∈ x, v.toNat < (2 : Word).toNat * deep.modulus.toNat :=
    toNat_lt_of_mem_replicate (by decide)
  obtain ⟨hforward, -, -⟩ := round_trip deep_built .portable .eightLane .portable hsize
  obtain ⟨y, hgives, hback⟩ := hforward 2 (by decide) hlt
  have hresidues : x.map (· % deep.modulus) = .replicate 2048 12288 := Array.map_replicate
  rw [hresidues] at hback
  exact ⟨deep_built, hsize, hlt, y, hgives, hback⟩

end Negacyclic.Transform
