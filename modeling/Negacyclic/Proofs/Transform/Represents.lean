import Negacyclic.Proofs.Residue.Represents
import Negacyclic.Proofs.Transform.Layer

/-!
# Layers on words with a range

A layer with one group takes words of a range to words of a range if its butterfly does, and
their classes are those that the butterfly computes (`Represents.onWords`). The last pass of the
forward network takes words below `4 * q` to residues.
-/

namespace Negacyclic.Represents

variable {q : Word} {bound m n : ℕ} {a : Array Word} {f : ℕ → ZMod q.toNat}

/-- The butterfly pairs each word of the lower half with the one of the upper half. -/
theorem onWords {bound' : ℕ} {F : Multiplier → Word → Word → Word × Word}
    {roots : Array Multiplier} (low high : ZMod q.toNat → ZMod q.toNat → ZMod q.toNat)
    (h : Represents q bound (m + m) a f) (hm : 0 < m)
    (hlt : ∀ x y : Word, x.toNat < bound → y.toNat < bound →
      (F (roots.getD 0 default) x y).1.toNat < bound' ∧
        (F (roots.getD 0 default) x y).2.toNat < bound')
    (hres : ∀ x y : Word, x.toNat < bound → y.toNat < bound →
      residue q (F (roots.getD 0 default) x y).1 = low (residue q x) (residue q y) ∧
        residue q (F (roots.getD 0 default) x y).2 = high (residue q x) (residue q y)) :
    Represents q bound' (m + m) (Layer.onWords F m roots a)
      fun i => if i < m then low (f i) (f (m + i)) else high (f (i - m)) (f i) := by
  have hdvd : 2 * m ∣ a.size := by
    rw [h.size_eq, Nat.two_mul]
  have hlow : ∀ i < m, (Layer.onWords F m roots a).getD i 0 =
      (F (roots.getD 0 default) (a.getD i 0) (a.getD (m + i) 0)).1 := by
    intro i hi
    have hat : Layer.wordAt F m roots a (0 * (2 * m) + i) = _ := Layer.wordAt_lower hi
    rw [Nat.zero_mul, Nat.zero_add, Nat.add_comm i m] at hat
    rw [Layer.getD_onWords hm hdvd (by rw [h.size_eq]; omega), hat]
  have hhigh : ∀ i < m, (Layer.onWords F m roots a).getD (m + i) 0 =
      (F (roots.getD 0 default) (a.getD i 0) (a.getD (m + i) 0)).2 := by
    intro i hi
    have hat : Layer.wordAt F m roots a (0 * (2 * m) + i + m) = _ := Layer.wordAt_upper hi
    rw [Nat.zero_mul, Nat.zero_add, Nat.add_comm i m] at hat
    rw [Layer.getD_onWords hm hdvd (by rw [h.size_eq]; omega), hat]
  refine ⟨by rw [Layer.size_onWords, h.size_eq], ?_, ?_⟩
  · intro i hi
    rcases Nat.lt_or_ge i m with him | him
    · rw [hlow i him]
      exact (hlt _ _ (h.toNat_lt i hi) (h.toNat_lt _ (by omega))).1
    · obtain ⟨j, rfl⟩ := Nat.exists_eq_add_of_le him
      rw [hhigh j (by omega)]
      exact (hlt _ _ (h.toNat_lt j (by omega)) (h.toNat_lt _ hi)).2
  · intro i hi
    rcases Nat.lt_or_ge i m with him | him
    · rw [hlow i him, if_pos him,
        (hres _ _ (h.toNat_lt i hi) (h.toNat_lt _ (by omega))).1, h.residue_eq i hi,
        h.residue_eq _ (by omega)]
    · obtain ⟨j, rfl⟩ := Nat.exists_eq_add_of_le him
      rw [hhigh j (by omega), if_neg (by omega), Nat.add_sub_cancel_left,
        (hres _ _ (h.toNat_lt j (by omega)) (h.toNat_lt _ hi)).2, h.residue_eq j (by omega),
        h.residue_eq _ hi]

/-- The pass that reduces words below `4 * q`. -/
theorem settle {p : Precision} (hq : Spacious p q) (hpos : 0 < q.toNat)
    (ha : Represents q (4 * q.toNat) n a f) :
    Represents q (1 * q.toNat) n (a.map (Butterfly.settle q)) f := by
  apply ha.map
  · intro x hx
    rw [Butterfly.toNat_settle hq hx, Nat.one_mul]
    exact Nat.mod_lt _ hpos
  · intro x hx
    rw [residue_eq_residue_iff, Butterfly.toNat_settle hq hx, Nat.mod_mod]

end Negacyclic.Represents
