import Mathlib.Tactic.Ring
import Mathlib.Tactic.SplitIfs
import Negacyclic.Proofs.Residue.Power
import Negacyclic.Root

/-!
# Roots of unity

A root is recognised by its half-order power, which is `-1` modulo `q`. The search for the least
root walks through odd powers of one root, so it ends at a word with the same half-order power,
whatever the modulus: every step multiplies by a square whose half-order power is 1.
-/

namespace Negacyclic

variable {q : Word} {order : ℕ}

/-- The half-order power of a root that is recognised. -/
theorem residue_pow_of_isPrimitiveRoot (hq : q ≠ 0) {root : Word}
    (h : isPrimitiveRoot q root order = true) : residue q root ^ (order / 2) = -1 := by
  simp only [isPrimitiveRoot, Bool.and_eq_true, beq_iff_eq] at h
  have hone : (1 : Word) ≤ q := by
    rw [UInt64.le_iff_toNat_le]
    exact UInt64.lt_iff_toNat_lt.1 (UInt64.pos_iff_ne_zero.2 hq)
  rw [← residue_pow hq, h.2, residue_sub hone, residue_self, residue_one, zero_sub]

/-- What the search returns has passed the test for primitive roots. -/
theorem findRoot?_spec {cofactor x : ℕ} {root : Word}
    (h : findRoot? q order cofactor x = some root) : isPrimitiveRoot q root order = true := by
  induction x using findRoot?.induct q order cofactor with
  | case1 x hx r hroot =>
      rw [findRoot?, if_pos hx, if_pos hroot] at h
      cases h
      exact hroot
  | case2 x hx r hroot ih =>
      rw [findRoot?, if_pos hx, if_neg hroot] at h
      exact ih h
  | case3 x hx =>
      rw [findRoot?, if_neg hx] at h
      cases h

/-- What every step of the walk through odd powers keeps holds where it ends. -/
theorem leastOddPower_induction {P : Word → Prop} {square : Word}
    (hmul : ∀ w, P w → P (Residue.mul q w square)) (k : ℕ) {current least : Word}
    (hcurrent : P current) (hleast : P least) : P (leastOddPower q square k current least) := by
  induction k generalizing current least with
  | zero => exact hleast
  | succ k ih =>
      unfold leastOddPower
      apply ih (hmul current hcurrent)
      split_ifs
      · exact hcurrent
      · exact hleast

/-- The least of some odd powers has the half-order power of each of them. -/
theorem residue_pow_leastOddPower (hq : q ≠ 0) {square : Word} {n : ℕ}
    (hsquare : residue q square ^ n = 1) (k : ℕ) {current least : Word}
    (hcurrent : residue q current ^ n = -1) (hleast : residue q least ^ n = -1) :
    residue q (leastOddPower q square k current least) ^ n = -1 := by
  refine leastOddPower_induction (P := fun w => residue q w ^ n = -1) (fun w hw => ?_) k
    hcurrent hleast
  rw [residue_mul hq, mul_pow, hw, hsquare, mul_one]

/-- A search that ends has accepted its order and modulus, and walks through the odd powers of the
root that it found. -/
theorem leastPrimitiveRoot?_eq_some {root : Word}
    (h : leastPrimitiveRoot? q order = some root) :
    isRootOrder order = true ∧ 2 < q.toNat ∧ order ∣ q.toNat - 1 ∧
      ∃ found, findRoot? q order ((q.toNat - 1) / order) 2 = some found ∧
        root = leastOddPower q (Residue.mul q found found) (order / 2) found found := by
  unfold leastPrimitiveRoot? at h
  obtain ⟨_, hguard, hfind⟩ := Option.bind_eq_some_iff.1 h
  obtain ⟨found, hfound, hleast⟩ := Option.bind_eq_some_iff.1 hfind
  obtain ⟨horder, hq, hdvd⟩ : isRootOrder order = true ∧ 2 < q ∧ (q.toNat - 1) % order = 0 := by
    by_contra hno
    simp [guard, hno] at hguard
  cases hleast
  exact ⟨horder, UInt64.lt_iff_toNat_lt.1 hq, Nat.dvd_of_mod_eq_zero hdvd, found, hfound, rfl⟩

/-- The half-order power of the least root. -/
theorem residue_pow_of_leastPrimitiveRoot? {root : Word}
    (h : leastPrimitiveRoot? q order = some root) : residue q root ^ (order / 2) = -1 := by
  obtain ⟨-, hlt, -, found, hfound, rfl⟩ := leastPrimitiveRoot?_eq_some h
  have hq : q ≠ 0 := ne_zero_of_one_lt (by omega)
  have hpow := residue_pow_of_isPrimitiveRoot hq (findRoot?_spec hfound)
  refine residue_pow_leastOddPower hq ?_ _ hpow hpow
  rw [residue_mul hq, mul_pow, hpow]
  ring

end Negacyclic
