import Negacyclic.Proofs.Residue.Class
import Negacyclic.Proofs.Word.Table

/-!
# Words with a range and classes

Between the steps of a computation modulo `q` words are reduced only so far that the next step can
take them. What is known of an array of them is their range and their classes, and `Represents`
says both at once. Residues are determined by it (`Represents.eq_of_residues`).
-/

namespace Negacyclic

/-- There are `n` words in `a`, all below `bound`, and word `i` is `f i` modulo `q`. -/
structure Represents (q : Word) (bound n : ℕ) (a : Array Word) (f : ℕ → ZMod q.toNat) :
    Prop where
  size_eq : a.size = n
  toNat_lt : ∀ i < n, (a.getD i 0).toNat < bound
  residue_eq : ∀ i < n, residue q (a.getD i 0) = f i

namespace Represents

variable {q : Word} {bound m n : ℕ} {a b : Array Word} {f g : ℕ → ZMod q.toNat}

/-- Only the classes at the positions matter. -/
theorem congr (h : Represents q bound n a f) (hfg : ∀ i < n, f i = g i) :
    Represents q bound n a g where
  size_eq := h.size_eq
  toNat_lt := h.toNat_lt
  residue_eq i hi := (h.residue_eq i hi).trans (hfg i hi)

/-- A bound may be raised. -/
theorem mono {bound' : ℕ} (h : Represents q bound n a f) (hle : bound ≤ bound') :
    Represents q bound' n a f where
  size_eq := h.size_eq
  toNat_lt i hi := (h.toNat_lt i hi).trans_le hle
  residue_eq := h.residue_eq

/-- Words below a bound stand for their classes. -/
theorem of_mem (hsize : a.size = n) (hlt : ∀ x ∈ a, x.toNat < bound) :
    Represents q bound n a fun i => residue q (a.getD i 0) :=
  ⟨hsize, fun _ hi => hlt _ (getD_mem (hsize.symm ▸ hi) 0), fun _ _ => rfl⟩

/-- Each word is below the bound. -/
theorem toNat_lt_of_mem (h : Represents q bound n a f) : ∀ x ∈ a, x.toNat < bound := by
  intro x hx
  obtain ⟨i, hi, rfl⟩ := Array.mem_iff_getElem.1 hx
  have := h.toNat_lt i (h.size_eq ▸ hi)
  rwa [Array.getD_eq_getD_getElem?, Array.getElem?_eq_getElem hi, Option.getD_some] at this

/-- An array made position by position represents what its words do. -/
theorem ofFn {g : Fin n → Word} (hlt : ∀ i, (g i).toNat < bound)
    (hres : ∀ i, residue q (g i) = f i) : Represents q bound n (Array.ofFn g) f := by
  refine ⟨Array.size_ofFn, ?_, ?_⟩
  · intro i hi
    rw [getD_ofFn g 0 hi]
    exact hlt ⟨i, hi⟩
  · intro i hi
    rw [getD_ofFn g 0 hi]
    exact hres ⟨i, hi⟩

/-- Residues are determined by their classes. -/
theorem eq_of_residues (ha : Represents q (1 * q.toNat) n a f)
    (hb : Represents q (1 * q.toNat) n b f) : a = b := by
  apply ext_getD 0 (ha.size_eq.trans hb.size_eq.symm)
  intro i hi
  have hin : i < n := ha.size_eq ▸ hi
  have halt := ha.toNat_lt i hin
  have hblt := hb.toNat_lt i hin
  rw [Nat.one_mul] at halt hblt
  exact eq_of_residue_eq halt hblt ((ha.residue_eq i hin).trans (hb.residue_eq i hin).symm)

/-! ### Parts -/

/-- The lower half represents the function on the first positions. -/
theorem extract_low (h : Represents q bound (m + n) a f) :
    Represents q bound m (a.extract 0 m) f := by
  have hsize := h.size_eq
  have hread : ∀ i < m, (a.extract 0 m).getD i 0 = a.getD i 0 := by
    intro i hi
    rw [getD_extract _ _ hi (by omega), Nat.zero_add]
  refine ⟨?_, ?_, ?_⟩
  · rw [Array.size_extract]
    omega
  · intro i hi
    rw [hread i hi]
    exact h.toNat_lt i (by omega)
  · intro i hi
    rw [hread i hi]
    exact h.residue_eq i (by omega)

/-- The upper half represents the function on the positions after them. -/
theorem extract_high (h : Represents q bound (m + n) a f) :
    Represents q bound n (a.extract m a.size) fun i => f (m + i) := by
  have hsize := h.size_eq
  have hread : ∀ i < n, (a.extract m a.size).getD i 0 = a.getD (m + i) 0 := by
    intro i hi
    rw [getD_extract _ _ (by omega) le_rfl]
  refine ⟨?_, ?_, ?_⟩
  · rw [Array.size_extract]
    omega
  · intro i hi
    rw [hread i hi]
    exact h.toNat_lt _ (by omega)
  · intro i hi
    rw [hread i hi]
    exact h.residue_eq _ (by omega)

/-- Two halves put together represent what they do side by side. -/
theorem append (ha : Represents q bound m a f) (hb : Represents q bound n b fun i => f (m + i)) :
    Represents q bound (m + n) (a ++ b) f := by
  refine ⟨by rw [Array.size_append, ha.size_eq, hb.size_eq], ?_, ?_⟩
  · intro i hi
    rcases Nat.lt_or_ge i m with hlow | hhigh
    · rw [getD_append_left _ _ _ (ha.size_eq.symm ▸ hlow)]
      exact ha.toNat_lt i hlow
    · obtain ⟨j, rfl⟩ := Nat.exists_eq_add_of_le hhigh
      have hread := getD_append_right a b 0 j
      rw [ha.size_eq] at hread
      rw [hread]
      exact hb.toNat_lt j (by omega)
  · intro i hi
    rcases Nat.lt_or_ge i m with hlow | hhigh
    · rw [getD_append_left _ _ _ (ha.size_eq.symm ▸ hlow)]
      exact ha.residue_eq i hlow
    · obtain ⟨j, rfl⟩ := Nat.exists_eq_add_of_le hhigh
      have hread := getD_append_right a b 0 j
      rw [ha.size_eq] at hread
      rw [hread]
      exact hb.residue_eq j (by omega)

/-- Two arrays one after the other hold what each of them holds. -/
theorem exists_append (ha : Represents q bound m a f) (hb : Represents q bound n b g) :
    ∃ h, Represents q bound (m + n) (a ++ b) h ∧ (∀ i < m, h i = f i) ∧
      ∀ i < n, h (m + i) = g i := by
  have hlow : ∀ i < m, (if i < m then f i else g (i - m)) = f i := by
    intro i hi
    exact if_pos hi
  have hhigh : ∀ i < n, (if m + i < m then f (m + i) else g (m + i - m)) = g i := by
    intro i _
    rw [if_neg (by omega), Nat.add_sub_cancel_left]
  refine ⟨fun i => if i < m then f i else g (i - m), append ?_ ?_, hlow, hhigh⟩
  · exact ha.congr fun i hi => (hlow i hi).symm
  · exact hb.congr fun i hi => (hhigh i hi).symm

/-- A change of words that keeps their classes keeps what is represented. -/
theorem map {bound' : ℕ} {s : Word → Word} (h : Represents q bound n a f)
    (hlt : ∀ x : Word, x.toNat < bound → (s x).toNat < bound')
    (hres : ∀ x : Word, x.toNat < bound → residue q (s x) = residue q x) :
    Represents q bound' n (a.map s) f := by
  have hread : ∀ i < n, (a.map s).getD i 0 = s (a.getD i 0) := by
    intro i hi
    exact getD_map s 0 0 (h.size_eq.symm ▸ hi)
  refine ⟨by rw [Array.size_map, h.size_eq], ?_, ?_⟩
  · intro i hi
    rw [hread i hi]
    exact hlt _ (h.toNat_lt i hi)
  · intro i hi
    rw [hread i hi, hres _ (h.toNat_lt i hi)]
    exact h.residue_eq i hi

end Represents

end Negacyclic
