import Mathlib.Tactic.Ring
import Negacyclic.Proofs.Residue.Class

/-!
# Powers

Square and multiply keeps `acc * base ^ e` in one class modulo `q` while it halves `e`, and its
accumulator reduced (`Pending`). So the word that is left once the exponent is zero is the residue
of the power that it started with (`Pending.finish`).

Hence a power of words is the remainder of the power of their values (`toNat_pow`), and powers of
one base multiply as their exponents add (`mul_pow_pow`). `powers_exact` says this of every base,
every exponent and every modulus but zero, which has no powers.
-/

namespace Negacyclic

variable {q : Word}

/-- Reducing a word keeps its class. -/
theorem residue_mod (x : Word) : residue q (x % q) = residue q x := by
  rw [residue_eq_residue_iff, UInt64.toNat_mod, Nat.mod_mod]

namespace Residue

/-- `acc * base ^ e` is of the class `c`, and the accumulator is reduced. -/
structure Pending (c : ZMod q.toNat) (acc base : Word) (e : ℕ) : Prop where
  reduced : acc.toNat < q.toNat
  value : residue q acc * residue q base ^ e = c

namespace Pending

variable {c : ZMod q.toNat} {acc base : Word} {e : ℕ}

/-- Before the first turn the accumulator is 1 and the whole power is pending. -/
theorem start (hq : 1 < q.toNat) (base : Word) (e : ℕ) :
    Pending (residue q base ^ e) 1 (base % q) e where
  reduced := hq
  value := by rw [residue_one, one_mul, residue_mod]

/-- A turn of the loop: the base is squared, and an odd exponent leaves one factor behind. -/
theorem next (hq : q ≠ 0) (h : Pending c acc base e) :
    Pending c (if e % 2 = 1 then mul q acc base else acc) (mul q base base) (e / 2) where
  reduced := by
    split_ifs
    · exact toNat_mul_lt hq acc base
    · exact h.reduced
  value := by
    rw [← h.value, residue_mul hq base base]
    split_ifs with hodd
    · rw [residue_mul hq]
      conv_rhs => rw [show e = 2 * (e / 2) + 1 by omega]
      ring
    · conv_rhs => rw [show e = 2 * (e / 2) by omega]
      ring

/-- The whole loop: it ends with the reduced word of the class. -/
theorem finish (hq : q ≠ 0) (h : Pending c acc base e) :
    (powFrom q acc base e).toNat < q.toNat ∧ residue q (powFrom q acc base e) = c := by
  induction acc, base, e using powFrom.induct q with
  | case1 acc base =>
      rw [powFrom, if_pos rfl]
      refine ⟨h.reduced, ?_⟩
      rw [← h.value, pow_zero, mul_one]
  | case2 acc base e he ih =>
      rw [powFrom, if_neg he]
      exact ih (h.next hq)

end Pending

end Residue

/-! ### The residue of a power -/

/-- The power is reduced and in the class of the power. A modulus of 1 is apart: there the
accumulator would start unreduced. -/
theorem pow_reduced (hq : q ≠ 0) (base : Word) (e : ℕ) :
    (Residue.pow q base e).toNat < q.toNat ∧
      residue q (Residue.pow q base e) = residue q base ^ e := by
  unfold Residue.pow
  split_ifs with h1
  · subst h1
    exact ⟨by decide, Subsingleton.elim (α := ZMod 1) _ _⟩
  · have hzero : q.toNat ≠ 0 := fun h => hq (UInt64.toNat_inj.1 h)
    have hone : q.toNat ≠ 1 := fun h => h1 (UInt64.toNat_inj.1 h)
    exact (Residue.Pending.start (by omega) base e).finish hq

/-- The power is reduced. -/
theorem toNat_pow_lt (hq : q ≠ 0) (base : Word) (e : ℕ) :
    (Residue.pow q base e).toNat < q.toNat :=
  (pow_reduced hq base e).1

/-- The power is in the class of the power. -/
theorem residue_pow (hq : q ≠ 0) (base : Word) (e : ℕ) :
    residue q (Residue.pow q base e) = residue q base ^ e :=
  (pow_reduced hq base e).2

/-- A power of words is the remainder of the power of their values. -/
theorem toNat_pow (hq : q ≠ 0) (base : Word) (e : ℕ) :
    (Residue.pow q base e).toNat = base.toNat ^ e % q.toNat := by
  apply toNat_eq_mod_of_residue_eq_natCast (toNat_pow_lt hq base e)
  rw [residue_pow hq, residue, Nat.cast_pow]

/-- The law of exponents for words: both sides are reduced and in one class. -/
theorem mul_pow_pow (hq : q ≠ 0) (base : Word) (e₁ e₂ : ℕ) :
    Residue.mul q (Residue.pow q base e₁) (Residue.pow q base e₂) =
      Residue.pow q base (e₁ + e₂) := by
  apply eq_of_residue_eq (toNat_mul_lt hq _ _) (toNat_pow_lt hq _ _)
  rw [residue_mul hq, residue_pow hq, residue_pow hq, residue_pow hq, pow_add]

/-- A modulus other than zero has all powers of a word, and each is the remainder of the power of
the values. So modulo one all of them are zero, with exponent zero the remainder of one is left
whatever the base, and powers of one base multiply as their exponents add. -/
theorem powers_exact (hq : 1 ≤ q.toNat) (base : Word) :
    (∀ e, ∃ y, Residue.pow? q base e = some y ∧ y.toNat = base.toNat ^ e % q.toNat) ∧
      (q = 1 → ∀ e, Residue.pow? q base e = some 0) ∧
      (∃ y, Residue.pow? q base 0 = some y ∧ y.toNat = 1 % q.toNat) ∧
      ∀ e₁ e₂, ∃ x y z, Residue.pow? q base e₁ = some x ∧ Residue.pow? q base e₂ = some y ∧
        Residue.mul? q x y = some z ∧ Residue.pow? q base (e₁ + e₂) = some z := by
  have hne : q ≠ 0 := by
    rintro rfl
    exact absurd hq (by decide)
  have hpow (e : ℕ) : Residue.pow? q base e = some (Residue.pow q base e) := if_neg hne
  refine ⟨fun e => ⟨_, hpow e, toNat_pow hne base e⟩, ?_, ⟨_, hpow 0, ?_⟩, fun e₁ e₂ => ?_⟩
  · rintro rfl e
    exact hpow e
  · rw [toNat_pow hne, Nat.pow_zero]
  · refine ⟨_, _, _, hpow e₁, hpow e₂, if_neg hne, ?_⟩
    rw [hpow, mul_pow_pow hne]

/-- At the greatest modulus, two powers whose product takes more than a word. -/
theorem powers_exact_greatest :
    Residue.pow? 0xffffffffffffffff 2 40 = some 0x10000000000 ∧
      Residue.pow? 0xffffffffffffffff 2 64 =
        Residue.mul? 0xffffffffffffffff 0x10000000000 0x1000000 := by
  obtain ⟨hvalue, -, -, hsum⟩ := powers_exact (q := 0xffffffffffffffff) (by decide) 2
  obtain ⟨x, y, z, hx, hy, hz, h⟩ := hsum 40 24
  obtain ⟨x', hx', hvalue₁⟩ := hvalue 40
  obtain ⟨y', hy', hvalue₂⟩ := hvalue 24
  obtain rfl : x = x' := Option.some_inj.1 (hx.symm.trans hx')
  obtain rfl : y = y' := Option.some_inj.1 (hy.symm.trans hy')
  obtain rfl : x = 0x10000000000 := UInt64.toNat_inj.1 hvalue₁
  obtain rfl : y = 0x1000000 := UInt64.toNat_inj.1 hvalue₂
  exact ⟨hx, h.trans hz.symm⟩

end Negacyclic
