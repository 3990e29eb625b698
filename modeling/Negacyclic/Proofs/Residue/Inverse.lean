import Mathlib.Tactic.Ring
import Negacyclic.Proofs.Residue.Class
import Negacyclic.Residue.Inverse

/-!
# Inverses

Every state of the Euclidean algorithm on `q` and `x` writes both of its remainders as multiples of
`x` modulo `q` (`Euclid.Tracks`). A run that ends with the greatest common divisor 1 therefore
leaves the inverse in its coefficient. Every run ends with the greatest common divisor
(`Euclid.prior_finish`), so an inverse is found wherever there is one, and it is the only one
(`inverse?_eq_some_iff`).

The numbers of a state are small as well (`Euclid.Balanced`). The coefficients alternate in sign,
so that a division adds up their absolute values, and the products of each remainder with the
coefficient of the other keep the sum `q`. None of them exceeds `q`, and neither does anything that
is computed on the way: `Signed.Runs` is the loop on signed integers of 128 bits, every operation of
which has to fit, and it comes to the same states (`Euclid.Balanced.runs`).

`inverses_exact` puts both together.
-/

namespace Negacyclic

variable {q x : Word}

namespace Residue.Euclid

/-- Both remainders are `x` times their coefficients, modulo `q`. -/
structure Tracks (q x : Word) (s : Euclid) : Prop where
  prior : (s.prior : ZMod q.toNat) = s.priorCoeff * residue q x
  current : (s.current : ZMod q.toNat) = s.currentCoeff * residue q x

/-- At the start the two remainders are the modulus and `x` reduced, with the coefficients 0 and
1. -/
theorem tracks_start : Tracks q x (start q x) where
  prior := by simp [start]
  current := by simp [start, residue]

/-- One division keeps the two congruences. -/
theorem Tracks.next {s : Euclid} (h : Tracks q x s) : Tracks q x s.next where
  prior := h.current
  current := by
    have hdiv : (s.prior : ZMod q.toNat) =
        s.current * (s.prior / s.current : ℕ) + (s.prior % s.current : ℕ) := by
      exact_mod_cast congrArg (Nat.cast (R := ZMod q.toNat)) (Nat.div_add_mod _ _).symm
    have hp := h.prior
    have hc := h.current
    simp only [Euclid.next, Int.cast_sub, Int.cast_mul, Int.cast_natCast]
    linear_combination hp - (s.prior / s.current : ℕ) * hc - hdiv

/-- Whole runs keep what one turn keeps, by induction along the recursion. -/
theorem Tracks.finish {s : Euclid} (h : Tracks q x s) : Tracks q x s.finish := by
  induction s using finish.induct with
  | case1 s hs =>
      rw [Euclid.finish, if_pos hs]
      exact h
  | case2 s hs ih =>
      rw [Euclid.finish, if_neg hs]
      exact ih h.next

/-- A run ends with the greatest common divisor of the remainders that it starts from. -/
theorem prior_finish (s : Euclid) : s.finish.prior = Nat.gcd s.prior s.current := by
  induction s using finish.induct with
  | case1 s hs => rw [Euclid.finish, if_pos hs, hs, Nat.gcd_zero_right]
  | case2 s hs ih =>
      rw [Euclid.finish, if_neg hs, ih]
      simp only [Euclid.next]
      rw [Nat.gcd_comm s.current, ← Nat.gcd_rec, Nat.gcd_comm]

/-! ### The sizes of the numbers -/

/-- The remainders decrease, the coefficients alternate in sign, and the products of either
remainder with the coefficient of the other add up to `m`. -/
structure Balanced (m : ℕ) (s : Euclid) : Prop where
  current_lt : s.current < s.prior
  prior_le : s.prior ≤ m
  natAbs_priorCoeff_le : s.priorCoeff.natAbs ≤ m
  alternate :
    0 ≤ s.priorCoeff ∧ s.currentCoeff ≤ 0 ∨ s.priorCoeff ≤ 0 ∧ 0 ≤ s.currentCoeff
  sum_eq : s.priorCoeff.natAbs * s.current + s.currentCoeff.natAbs * s.prior = m

/-- At the start the products add up to the modulus, the coefficients being 0 and 1. -/
theorem balanced_start (hq : 0 < q.toNat) : Balanced q.toNat (start q x) where
  current_lt := Nat.mod_lt _ hq
  prior_le := le_rfl
  natAbs_priorCoeff_le := Nat.zero_le _
  alternate := .inr ⟨le_rfl, Int.one_nonneg⟩
  sum_eq := by simp [start]

namespace Balanced

variable {m : ℕ} {s : Euclid}

/-- The sum of the products bounds the current coefficient, since the prior remainder is
positive. -/
theorem natAbs_currentCoeff_le (h : Balanced m s) : s.currentCoeff.natAbs ≤ m := by
  have hpos : 0 < s.prior := Nat.zero_lt_of_lt h.current_lt
  calc s.currentCoeff.natAbs ≤ s.currentCoeff.natAbs * s.prior := Nat.le_mul_of_pos_right _ hpos
    _ ≤ m := h.sum_eq ▸ Nat.le_add_left _ _

/-- What is taken off the previous coefficient has the sign of the current one. -/
theorem alternate_mul (h : Balanced m s) (k : ℕ) :
    0 ≤ s.priorCoeff ∧ s.currentCoeff ≤ 0 ∧ k * s.currentCoeff ≤ 0 ∨
      s.priorCoeff ≤ 0 ∧ 0 ≤ s.currentCoeff ∧ 0 ≤ k * s.currentCoeff := by
  have hk : (0 : ℤ) ≤ k := Int.natCast_nonneg k
  rcases h.alternate with ⟨hprior, hcurrent⟩ | ⟨hprior, hcurrent⟩
  · exact .inl ⟨hprior, hcurrent, mul_nonpos_of_nonneg_of_nonpos hk hcurrent⟩
  · exact .inr ⟨hprior, hcurrent, mul_nonneg hk hcurrent⟩

/-- Coefficients of opposite signs do not cancel. -/
theorem natAbs_next (h : Balanced m s) : s.next.currentCoeff.natAbs =
    s.priorCoeff.natAbs + s.prior / s.current * s.currentCoeff.natAbs := by
  have halternate := h.alternate_mul (s.prior / s.current)
  have hmul : ((s.prior / s.current : ℕ) * s.currentCoeff : ℤ).natAbs =
      s.prior / s.current * s.currentCoeff.natAbs := by
    rw [Int.natAbs_mul, Int.natAbs_natCast]
  rw [← hmul]
  simp only [Euclid.next]
  omega

/-- One division keeps the balance. -/
theorem next (h : Balanced m s) (hne : s.current ≠ 0) : Balanced m s.next where
  current_lt := Nat.mod_lt _ (Nat.pos_of_ne_zero hne)
  prior_le := h.current_lt.le.trans h.prior_le
  natAbs_priorCoeff_le := h.natAbs_currentCoeff_le
  alternate := by
    have halternate := h.alternate_mul (s.prior / s.current)
    simp only [Euclid.next]
    omega
  sum_eq := by
    -- the part of the previous remainder that goes with the quotient changes sides
    rw [h.natAbs_next]
    simp only [Euclid.next]
    calc s.currentCoeff.natAbs * (s.prior % s.current) +
          (s.priorCoeff.natAbs + s.prior / s.current * s.currentCoeff.natAbs) * s.current
        = s.priorCoeff.natAbs * s.current +
          s.currentCoeff.natAbs * (s.current * (s.prior / s.current) + s.prior % s.current) := by
          ring
      _ = m := by rw [Nat.div_add_mod, h.sum_eq]

end Balanced

end Residue.Euclid

/-! ### The run on signed integers of 128 bits -/

namespace Residue

/-- An integer, if it is a signed one of 128 bits. -/
def fit? (v : ℤ) : Option ℤ :=
  if -2 ^ 127 ≤ v ∧ v < 2 ^ 127 then some v else none

/-- What is no greater than a word in absolute value fits 128 bits with a sign. -/
theorem fit?_of_natAbs_le {v : ℤ} (h : v.natAbs ≤ q.toNat) : fit? v = some v := by
  have hq := q.toNat_lt
  exact if_pos ⟨by omega, by omega⟩

/-- A remainder by the modulus fits. -/
theorem fit?_emod (hq : 0 < q.toNat) (c : ℤ) : fit? (c % q.toNat) = some (c % q.toNat) := by
  have hpos : (0 : ℤ) < q.toNat := by omega
  have hnonneg := Int.emod_nonneg c hpos.ne'
  have hlt := Int.emod_lt_of_pos c hpos
  exact fit?_of_natAbs_le (q := q) (by omega)

/-- The four numbers of a state, all of them signed. -/
structure Signed where
  prior : ℤ
  current : ℤ
  priorCoeff : ℤ
  currentCoeff : ℤ

/-- A state as signed numbers. -/
def Euclid.signed (s : Euclid) : Signed :=
  ⟨s.prior, s.current, s.priorCoeff, s.currentCoeff⟩

namespace Signed

/-- One division, by operations that have to fit. -/
def next? (s : Signed) : Option Signed := do
  let quotient ← fit? (s.prior.tdiv s.current)
  let multiple ← fit? (quotient * s.current)
  let rest ← fit? (s.prior - multiple)
  let change ← fit? (quotient * s.currentCoeff)
  let coeff ← fit? (s.priorCoeff - change)
  return ⟨s.current, rest, s.currentCoeff, coeff⟩

/-- From one state the loop ends in another. It goes on while the current remainder is not zero,
each division fits, and no coefficient that it comes to is greater than `limit`. -/
inductive Runs (limit : ℕ) : Signed → Signed → Prop
  | done {s : Signed} (hprior : s.priorCoeff.natAbs ≤ limit)
      (hcurrent : s.currentCoeff.natAbs ≤ limit) (h : s.current = 0) : Runs limit s s
  | turn {s s' t : Signed} (hprior : s.priorCoeff.natAbs ≤ limit)
      (hcurrent : s.currentCoeff.natAbs ≤ limit) (h : s.current ≠ 0)
      (hnext : s.next? = some s') (rest : Runs limit s' t) : Runs limit s t

/-- A turn goes through if each of its five values fits. -/
theorem next?_eq_some {s : Signed} {quotient multiple rest change coeff : ℤ}
    (hquotient : fit? (s.prior.tdiv s.current) = some quotient)
    (hmultiple : fit? (quotient * s.current) = some multiple)
    (hrest : fit? (s.prior - multiple) = some rest)
    (hchange : fit? (quotient * s.currentCoeff) = some change)
    (hcoeff : fit? (s.priorCoeff - change) = some coeff) :
    s.next? = some ⟨s.current, rest, s.currentCoeff, coeff⟩ := by
  simp only [next?, hquotient, hmultiple, hrest, hchange, hcoeff, Option.bind_eq_bind,
    Option.bind_some, Option.pure_def]

end Signed

/-- A division of a balanced state fits, and is the exact one. -/
theorem Euclid.Balanced.next?_signed {s : Euclid} (h : s.Balanced q.toNat)
    (hne : s.current ≠ 0) : s.signed.next? = some s.next.signed := by
  have hprior := h.prior_le
  have hdiv := Nat.div_le_self s.prior s.current
  have hmul := Nat.div_mul_le_self s.prior s.current
  have hcoeff := (h.next hne).natAbs_currentCoeff_le
  have hquotient : fit? ((s.prior : ℤ).tdiv s.current) =
      some ((s.prior / s.current : ℕ) : ℤ) := by
    rw [← Int.ofNat_tdiv]
    exact fit?_of_natAbs_le (q := q) (hdiv.trans hprior)
  have hmultiple : fit? ((s.prior / s.current : ℕ) * s.current : ℤ) =
      some ((s.prior / s.current * s.current : ℕ) : ℤ) := by
    rw [← Int.natCast_mul]
    exact fit?_of_natAbs_le (q := q) (hmul.trans hprior)
  have hrest : fit? (s.prior - (s.prior / s.current * s.current : ℕ) : ℤ) =
      some ((s.prior % s.current : ℕ) : ℤ) := by
    rw [← Int.natCast_sub hmul, ← Nat.mod_eq_sub_div_mul]
    exact fit?_of_natAbs_le (q := q) ((Nat.mod_le _ _).trans hprior)
  have hchange : fit? ((s.prior / s.current : ℕ) * s.currentCoeff : ℤ) =
      some ((s.prior / s.current : ℕ) * s.currentCoeff : ℤ) := by
    apply fit?_of_natAbs_le (q := q)
    -- what is taken off is no greater than the coefficient that it makes
    rw [Int.natAbs_mul, Int.natAbs_natCast]
    exact (Nat.le_add_left _ _).trans (h.natAbs_next ▸ hcoeff)
  exact Signed.next?_eq_some (s := s.signed) hquotient hmultiple hrest hchange
    (fit?_of_natAbs_le hcoeff)

/-- The signed loop comes to the states that the exact one comes to. -/
theorem Euclid.Balanced.runs {s : Euclid} (h : s.Balanced q.toNat) :
    Signed.Runs q.toNat s.signed s.finish.signed := by
  induction s using Euclid.finish.induct with
  | case1 s hs =>
      rw [Euclid.finish, if_pos hs]
      exact .done h.natAbs_priorCoeff_le h.natAbs_currentCoeff_le (congrArg Nat.cast hs)
  | case2 s hs ih =>
      rw [Euclid.finish, if_neg hs]
      exact .turn h.natAbs_priorCoeff_le h.natAbs_currentCoeff_le (Int.natCast_ne_zero.2 hs)
        (h.next?_signed hs) (ih (h.next hs))

/-- A run on signed numbers has one end. -/
theorem Signed.Runs.unique {limit : ℕ} {s t t' : Signed} (h : Runs limit s t)
    (h' : Runs limit s t') : t = t' := by
  induction h with
  | done _ _ hstop =>
      cases h' with
      | done => rfl
      | turn _ _ hgo => exact absurd hstop hgo
  | turn _ _ hgo hnext _ ih =>
      cases h' with
      | done _ _ hstop => exact absurd hstop hgo
      | turn _ _ _ hnext' rest =>
          obtain rfl := Option.some_inj.1 (hnext.symm.trans hnext')
          exact ih rest

/-- The loop on the signed numbers of `q` and `x` answers the last coefficient brought to the
residues if the last remainder is 1, else nothing. A modulus of 0 or 1 is turned away before. -/
def RunsTo (q x : Word) (answer : Option Word) : Prop :=
  if q ≤ 1 then answer = none
  else ∃ last, Signed.Runs q.toNat ⟨q.toNat, (x % q).toNat, 0, 1⟩ last ∧
    if last.prior = 1 then
      ∃ y, fit? (last.priorCoeff % q.toNat) = some y ∧ answer = some (.ofNat y.toNat)
    else answer = none

/-- The signed loop has one answer, and it is that of the exact one. -/
theorem runsTo_iff {answer : Option Word} : RunsTo q x answer ↔ answer = inverse? q x := by
  unfold RunsTo inverse?
  split_ifs with hq
  · rfl
  have hpos := Nat.zero_lt_of_lt (not_le_one_iff.1 hq)
  have hruns := (Euclid.balanced_start (x := x) hpos).runs
  have hstart : (Euclid.start q x).signed = ⟨q.toNat, (x % q).toNat, 0, 1⟩ := by
    rw [UInt64.toNat_mod]
    rfl
  rw [hstart] at hruns
  generalize (Euclid.start q x).finish = last at hruns ⊢
  have hprior : last.signed.prior = 1 ↔ last.prior = 1 := Nat.cast_eq_one
  calc _ ↔ if last.signed.prior = 1 then
          ∃ y, fit? (last.signed.priorCoeff % q.toNat) = some y ∧ answer = some (.ofNat y.toNat)
        else answer = none := by
        constructor
        · rintro ⟨last', hlast', h⟩
          rwa [hruns.unique hlast']
        · exact fun h => ⟨_, hruns, h⟩
    _ ↔ _ := by
        rw [fit?_emod hpos]
        simp only [hprior, Option.some_inj, exists_eq_left']
        split_ifs <;> rfl

end Residue

/-! ### Inverses -/

/-- An inverse that is found is a residue, and is one. -/
theorem inverse?_spec {y : Word} (h : Residue.inverse? q x = some y) :
    y.toNat < q.toNat ∧ residue q y * residue q x = 1 := by
  unfold Residue.inverse? at h
  dsimp only at h
  split_ifs at h with hq hlast
  cases h
  set last := (Residue.Euclid.start q x).finish
  have hprior := (Residue.Euclid.tracks_start (q := q) (x := x)).finish.prior
  rw [hlast, Nat.cast_one] at hprior
  have hpos : 0 < q.toNat := Nat.zero_lt_of_lt (not_le_one_iff.1 hq)
  have hvalue := toNat_ofNat_emod hpos last.priorCoeff
  have hlt := Int.emod_lt_of_pos last.priorCoeff (show 0 < (q.toNat : ℤ) by omega)
  refine ⟨by omega, ?_⟩
  rw [hprior]
  congr 1
  rw [residue, ← Int.cast_natCast, hvalue, ZMod.intCast_mod]

/-- There are inverses modulo more than 1 only. -/
theorem one_lt_of_inverse? {y : Word} (h : Residue.inverse? q x = some y) : 1 < q.toNat := by
  unfold Residue.inverse? at h
  split_ifs at h with hq
  exact not_le_one_iff.1 hq

/-- A word that is coprime to the modulus has an inverse. -/
theorem exists_inverse? (hq : 1 < q.toNat) (hx : Nat.Coprime q.toNat x.toNat) :
    ∃ y, Residue.inverse? q x = some y := by
  have hlast : (Residue.Euclid.start q x).finish.prior = 1 := by
    rw [Residue.Euclid.prior_finish]
    change Nat.gcd q.toNat (x.toNat % q.toNat) = 1
    rw [Nat.gcd_comm, ← Nat.gcd_rec]
    exact hx
  exact ⟨_, by rw [Residue.inverse?, if_neg (not_le_one_iff.2 hq)]; exact if_pos hlast⟩

/-- The inverse that is found is the only residue that is one. -/
theorem inverse?_eq_some_iff (hq : 1 < q.toNat) {y : Word} :
    Residue.inverse? q x = some y ↔ y.toNat < q.toNat ∧ residue q y * residue q x = 1 := by
  refine ⟨inverse?_spec, ?_⟩
  rintro ⟨hlt, hmul⟩
  have hunit : IsUnit (residue q x) := IsUnit.of_mul_eq_one_right _ hmul
  obtain ⟨z, hz⟩ := exists_inverse? hq ((ZMod.isUnit_iff_coprime _ _).1 hunit).symm
  obtain ⟨hzlt, hzmul⟩ := inverse?_spec hz
  have hclass : residue q y = residue q z := hunit.mul_right_cancel (hmul.trans hzmul.symm)
  rw [hz, eq_of_residue_eq hlt hzlt hclass]

/-- For every modulus and every word. The loop on signed integers of 128 bits ends, none of its
operations overflows, no coefficient is greater than the modulus, and it gives the answer. There is
an inverse exactly modulo more than 1 for a word that is coprime to the modulus, and it is then the
only residue whose product with the word is 1. -/
theorem inverses_exact (q x : Word) :
    (∀ answer, Residue.RunsTo q x answer ↔ answer = Residue.inverse? q x) ∧
      ((∃ y, Residue.inverse? q x = some y) ↔ 1 < q.toNat ∧ Nat.gcd x.toNat q.toNat = 1) ∧
      ∀ y, Residue.inverse? q x = some y →
        y.toNat < q.toNat ∧ x.toNat * y.toNat % q.toNat = 1 ∧
          ∀ z : Word, z.toNat < q.toNat → x.toNat * z.toNat % q.toNat = 1 → z = y := by
  have hclass (hq : 1 < q.toNat) (y : Word) :
      residue q y * residue q x = 1 ↔ x.toNat * y.toNat % q.toNat = 1 := by
    rw [mul_comm]
    exact natCast_mul_eq_one_iff hq
  refine ⟨fun _ => Residue.runsTo_iff, ⟨?_, ?_⟩, fun y hy => ?_⟩
  · rintro ⟨y, hy⟩
    have hmul := (inverse?_spec hy).2
    exact ⟨one_lt_of_inverse? hy,
      (ZMod.isUnit_iff_coprime _ _).1 (IsUnit.of_mul_eq_one_right _ hmul)⟩
  · rintro ⟨hq, hcoprime⟩
    exact exists_inverse? hq (Nat.Coprime.symm hcoprime)
  · have hq := one_lt_of_inverse? hy
    obtain ⟨hlt, hmul⟩ := inverse?_spec hy
    refine ⟨hlt, (hclass hq y).1 hmul, fun z hz hzmul => ?_⟩
    have hother := (inverse?_eq_some_iff hq).2 ⟨hz, (hclass hq z).2 hzmul⟩
    exact Option.some_inj.1 (hother.symm.trans hy)

end Negacyclic
