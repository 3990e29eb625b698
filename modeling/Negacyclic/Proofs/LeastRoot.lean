import Negacyclic.Proofs.PrimitiveRoot

/-!
# The least root of an order

What the search for the least root comes to, for every order and every modulus
(`leastPrimitiveRoot_exact`).

* Modulo a prime it succeeds exactly where there is something to find: for an order that is a
  power of two from 2 on and divides `q - 1`, and for `q > 2`. It then has the least of all
  residues of that order.
* Modulo any word an answer is a residue of the order asked for, with the half-order power -1, and
  the least of its own odd powers. For a composite modulus these need not be all roots of the
  order, and a search may fail although there are some.

The second part rests on a period. The walk sees `order / 2` odd powers of the root that was found,
which repeat from there on, so it has seen all of them; it ends at one of them, and the odd powers
of that one are odd powers of the root again.
-/

namespace Negacyclic

variable {q root : Word} {order : ℕ}

/-! ### Any modulus -/

/-- The root that is found is reduced. -/
theorem toNat_lt_of_leastPrimitiveRoot? (h : leastPrimitiveRoot? q order = some root) :
    root.toNat < q.toNat := by
  obtain ⟨-, hlt, -, found, hfound, rfl⟩ := leastPrimitiveRoot?_eq_some h
  have hq : q ≠ 0 := ne_zero_of_one_lt (by omega)
  have hfoundLt := toNat_lt_of_findRoot? hq hfound
  exact toNat_leastOddPower_lt hq _ _ hfoundLt hfoundLt

/-- The root that is found has the order that is asked for: its power to half of it is -1, and an
order that is accepted is a power of two. -/
theorem orderOf_of_leastPrimitiveRoot? (h : leastPrimitiveRoot? q order = some root) :
    orderOf (residue q root) = order := by
  obtain ⟨horder, hlt, -⟩ := leastPrimitiveRoot?_eq_some h
  exact orderOf_of_pow_half hlt horder (residue_pow_of_leastPrimitiveRoot? h)

/-- The walk through the odd powers of a word ends at one of them. -/
theorem exists_residue_leastOddPower (hq : q ≠ 0) (found : Word) (k : ℕ) :
    ∃ j, residue q (leastOddPower q (Residue.mul q found found) k found found) =
      residue q found ^ (2 * j + 1) := by
  refine leastOddPower_induction (P := fun w => ∃ j, residue q w = residue q found ^ (2 * j + 1))
    ?_ k ⟨0, (pow_one _).symm⟩ ⟨0, (pow_one _).symm⟩
  rintro w ⟨j, hj⟩
  refine ⟨j + 1, ?_⟩
  rw [residue_mul hq, residue_mul hq, hj]
  ring

/-- An answer is the least of its own odd powers. -/
theorem isLeast_odd_powers (h : leastPrimitiveRoot? q order = some root) :
    IsLeast {x : ℕ | ∃ i, x = root.toNat ^ (2 * i + 1) % q.toNat} root.toNat := by
  have hrootLt := toNat_lt_of_leastPrimitiveRoot? h
  obtain ⟨horder, hlt, -, found, hfound, rfl⟩ := leastPrimitiveRoot?_eq_some h
  have hq : q ≠ 0 := ne_zero_of_one_lt (by omega)
  obtain ⟨K, rfl⟩ := exists_half_of_isRootOrder horder
  have hneg := residue_pow_of_isPrimitiveRoot hq (findRoot?_spec hfound)
  rw [Nat.mul_div_cancel_left _ Nat.two_pos] at hrootLt hneg ⊢
  obtain ⟨j, hj⟩ := exists_residue_leastOddPower hq found (2 ^ K)
  have hperiod : (residue q found * residue q found) ^ 2 ^ K = 1 := by
    rw [mul_pow, hneg, neg_mul_neg, one_mul]
  refine ⟨⟨0, ?_⟩, ?_⟩
  · rw [Nat.mul_zero, Nat.zero_add, pow_one, Nat.mod_eq_of_lt hrootLt]
  · rintro _ ⟨i, rfl⟩
    refine (leastOddPower_le hq _ _ found found (toNat_lt_of_findRoot? hq hfound)).2
      ((2 * i * j + i + j) % 2 ^ K) (Nat.mod_lt _ (Nat.two_pow_pos K)) _
      (Nat.mod_lt _ (by omega)) ?_
    calc ((_ % q.toNat : ℕ) : ZMod q.toNat)
        = residue q (leastOddPower q (Residue.mul q found found) (2 ^ K) found found) ^
            (2 * i + 1) := by
          rw [ZMod.natCast_mod, Nat.cast_pow]
          rfl
      _ = residue q found * (residue q found * residue q found) ^ (2 * i * j + i + j) := by
          rw [hj]
          ring
      _ = residue q found * residue q (Residue.mul q found found) ^
            ((2 * i * j + i + j) % 2 ^ K) := by
          rw [residue_mul hq, pow_eq_pow_mod _ hperiod]

/-! ### A prime modulus -/

section prime

variable [Fact q.toNat.Prime]

/-- Modulo a prime the search finds the least root of an order where there is one. -/
theorem isLeast_of_dvd (horder : isRootOrder order = true) (hq : 2 < q.toNat)
    (hdvd : order ∣ q.toNat - 1) :
    ∃ root, leastPrimitiveRoot? q order = some root ∧
      IsLeast {x : ℕ | 1 ≤ x ∧ x < q.toNat ∧ orderOf (x : ZMod q.toNat) = order} root.toNat := by
  have hmod : q.toNat % order = 1 := by
    have htwo := (isRootOrder_iff.1 horder).1
    obtain ⟨c, hc⟩ := hdvd
    rw [show q.toNat = order * c + 1 by omega, Nat.mul_add_mod, Nat.mod_eq_of_lt htwo]
  obtain ⟨K, rfl⟩ := exists_half_of_isRootOrder horder
  obtain ⟨root, hroot, ⟨hlt, horderOf⟩, hleast⟩ := leastPrimitiveRoot?_isLeast hmod
  refine ⟨root, hroot, ⟨?_, hlt, horderOf⟩, fun x hx => hleast hx.2⟩
  refine Nat.one_le_iff_ne_zero.2 fun hzero => ?_
  rw [hzero, Nat.cast_zero, orderOf_zero] at horderOf
  have := Nat.two_pow_pos K
  omega

end prime

/-- The search for the least root. Modulo a prime it finds the least residue of the order asked
for, and fails only where there is none to find; modulo any word what it finds is a root of that
order and the least of its own odd powers. -/
theorem leastPrimitiveRoot_exact (q : Word) (order : ℕ) :
    (q.toNat.Prime →
      ((∃ root, leastPrimitiveRoot? q order = some root) ↔
        2 ≤ order ∧ (∃ k, order = 2 ^ k) ∧ 2 < q.toNat ∧ order ∣ q.toNat - 1) ∧
      ∀ root, leastPrimitiveRoot? q order = some root →
        IsLeast {x : ℕ | 1 ≤ x ∧ x < q.toNat ∧ orderOf (x : ZMod q.toNat) = order} root.toNat) ∧
    ∀ root, leastPrimitiveRoot? q order = some root →
      root.toNat < q.toNat ∧ residue q root ^ (order / 2) = -1 ∧
        orderOf (residue q root) = order ∧
        IsLeast {x : ℕ | ∃ i, x = root.toNat ^ (2 * i + 1) % q.toNat} root.toNat := by
  refine ⟨fun hprime => ?_, fun root h => ?_⟩
  · have : Fact q.toNat.Prime := ⟨hprime⟩
    constructor
    · constructor
      · rintro ⟨root, h⟩
        obtain ⟨horder, hlt, hdvd, -⟩ := leastPrimitiveRoot?_eq_some h
        obtain ⟨htwo, hpower⟩ := isRootOrder_iff.1 horder
        exact ⟨htwo, hpower, hlt, hdvd⟩
      · rintro ⟨htwo, hpower, hlt, hdvd⟩
        obtain ⟨root, h, -⟩ := isLeast_of_dvd (isRootOrder_iff.2 ⟨htwo, hpower⟩) hlt hdvd
        exact ⟨root, h⟩
    · intro root h
      obtain ⟨horder, hlt, hdvd, -⟩ := leastPrimitiveRoot?_eq_some h
      obtain ⟨least, hleast, hisLeast⟩ := isLeast_of_dvd horder hlt hdvd
      rw [h, Option.some_inj] at hleast
      rwa [hleast]
  · exact ⟨toNat_lt_of_leastPrimitiveRoot? h, residue_pow_of_leastPrimitiveRoot? h,
      orderOf_of_leastPrimitiveRoot? h, isLeast_odd_powers h⟩

/-- A prime modulus, and one that is the product of 5 and 17. -/
theorem leastPrimitiveRoot_exact_seventeen :
    (17 : Word).toNat.Prime ∧ leastPrimitiveRoot? 17 8 = some 2 ∧
      IsLeast {x : ℕ | 1 ≤ x ∧ x < 17 ∧ orderOf (x : ZMod 17) = 8} 2 ∧
      leastPrimitiveRoot? 85 4 = some 13 ∧ orderOf (residue 85 13) = 4 ∧
      IsLeast {x : ℕ | ∃ i, x = 13 ^ (2 * i + 1) % 85} 13 := by
  have hprime : (17 : Word).toNat.Prime := by
    change Nat.Prime 17
    decide
  have h17 : leastPrimitiveRoot? 17 8 = some 2 := by cbv
  have h85 : leastPrimitiveRoot? 85 4 = some 13 := by cbv
  obtain ⟨-, -, horder, hleast⟩ := (leastPrimitiveRoot_exact 85 4).2 13 h85
  exact ⟨hprime, h17, ((leastPrimitiveRoot_exact 17 8).1 hprime).2 2 h17, h85, horder, hleast⟩

end Negacyclic
