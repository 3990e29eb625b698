import Mathlib.NumberTheory.LegendreSymbol.Basic
import Mathlib.RingTheory.RootsOfUnity.PrimitiveRoots
import Negacyclic.Proofs.Root
import Negacyclic.Proofs.Word.Bits

/-!
# Roots of unity modulo a prime

Modulo an odd prime the test for a root is exact: a word is accepted if and only if its order is
the one asked for (`isPrimitiveRoot_iff`), since 1 has no square roots but 1 and -1. Modulo any
other number above 2 what it accepts is right, but it need not accept all (`isPrimitiveRoot_exact`).

The search for the least root cannot fail where the order divides `q - 1`
(`leastPrimitiveRoot?_isLeast`). A word that is not a square modulo `q` has the half-order power
`-1` after it is raised to the cofactor, and half of the words below `q` are not squares, so the
search through powers of `x = 2, 3, ...` ends. The roots of one order are the odd powers of any of
them, and the least of these is what the walk through odd powers keeps.
-/

namespace Negacyclic

variable {q : Word} {K : ℕ}

/-! ### Orders that are powers of two -/

/-- Where -1 is not 1 an element whose half-order power is -1 has the order `2 * 2^K`. -/
theorem orderOf_eq_of_pow_eq_neg_one {R : Type} [Ring R] (hne : (-1 : R) ≠ 1) {x : R} {K : ℕ}
    (h : x ^ 2 ^ K = -1) : orderOf x = 2 * 2 ^ K := by
  rw [← pow_succ']
  apply orderOf_eq_prime_pow
  · rw [h]
    exact hne
  · rw [pow_succ, pow_mul, h, neg_one_sq]

/-- An element of a field has the order `2 * 2^K` if and only if its half-order power is -1. -/
theorem pow_eq_neg_one_iff_orderOf {F : Type} [Field F] (htwo : (2 : F) ≠ 0) (x : F) (K : ℕ) :
    x ^ 2 ^ K = -1 ↔ orderOf x = 2 * 2 ^ K := by
  have hne : (1 : F) ≠ -1 := by
    intro h
    apply htwo
    rw [← one_add_one_eq_two]
    nth_rewrite 2 [h]
    exact add_neg_cancel 1
  constructor
  · exact orderOf_eq_of_pow_eq_neg_one hne.symm
  · intro h
    have hsq : (x ^ 2 ^ K) ^ 2 = 1 := by
      rw [← pow_mul, Nat.mul_comm, ← h, pow_orderOf_eq_one]
    rcases sq_eq_one_iff.1 hsq with hone | hneg
    · have hle := orderOf_le_of_pow_eq_one (Nat.two_pow_pos K) hone
      have := Nat.two_pow_pos K
      omega
    · exact hneg

/-- The orders that a root can have here are the doubles of powers of two. -/
theorem isRootOrder_iff {n : ℕ} : isRootOrder n = true ↔ 2 ≤ n ∧ ∃ k, n = 2 ^ k := by
  rw [isRootOrder, Bool.and_eq_true, decide_eq_true_eq, isPowerOfTwo_iff]

/-- An order that is accepted is twice a power of two. -/
theorem exists_half_of_isRootOrder {n : ℕ} (h : isRootOrder n = true) : ∃ K, n = 2 * 2 ^ K := by
  obtain ⟨hle, k, rfl⟩ := isRootOrder_iff.1 h
  cases k with
  | zero => exact absurd hle (by decide)
  | succ K => exact ⟨K, pow_succ' 2 K⟩

/-! ### The test -/

/-- Modulo any `q` above 2 a half-order power of -1 determines the order. -/
theorem orderOf_of_pow_half {root : Word} {order : ℕ} (hq : 2 < q.toNat)
    (horder : isRootOrder order = true) (h : residue q root ^ (order / 2) = -1) :
    orderOf (residue q root) = order := by
  obtain ⟨K, rfl⟩ := exists_half_of_isRootOrder horder
  have : Fact (2 < q.toNat) := ⟨hq⟩
  rw [Nat.mul_div_cancel_left _ Nat.two_pos] at h
  exact orderOf_eq_of_pow_eq_neg_one ZMod.neg_one_ne_one h

/-- A test that accepts has accepted the order. -/
theorem isRootOrder_of_isPrimitiveRoot {root : Word} {order : ℕ}
    (h : isPrimitiveRoot q root order = true) : isRootOrder order = true := by
  simp only [isPrimitiveRoot, Bool.and_eq_true] at h
  exact h.1.2

section prime

variable [Fact q.toNat.Prime]

/-- Modulo more than 2 the number 2 is not zero, so 1 and -1 differ. -/
theorem two_ne_zero_of_lt (hq : 2 < q.toNat) : (2 : ZMod q.toNat) ≠ 0 := by
  intro h
  rw [← Nat.cast_ofNat, ZMod.natCast_eq_zero_iff] at h
  have := Nat.le_of_dvd (by omega) h
  omega

/-- Twice a power of two is accepted as an order. -/
theorem isRootOrder_two_mul (K : ℕ) : isRootOrder (2 * 2 ^ K) = true := by
  have hpos := Nat.two_pow_pos K
  exact isRootOrder_iff.2 ⟨by omega, K + 1, (pow_succ' 2 K).symm⟩

/-- Modulo an odd prime the roots that are recognised are those of the order asked for. -/
theorem isPrimitiveRoot_iff (hq : 2 < q.toNat) (root : Word) :
    isPrimitiveRoot q root (2 * 2 ^ K) = true ↔ orderOf (residue q root) = 2 * 2 ^ K := by
  have hne : q ≠ 0 := ne_zero_of_one_lt (by omega)
  have hhalf : 2 * 2 ^ K / 2 = 2 ^ K := by omega
  have hone : (1 : Word) ≤ q := by
    rw [UInt64.le_iff_toNat_le, show (1 : Word).toNat = 1 from rfl]
    omega
  have hlast : residue q (q - 1) = -1 := by
    rw [residue_sub hone, residue_self, residue_one, zero_sub]
  rw [← pow_eq_neg_one_iff_orderOf (two_ne_zero_of_lt hq)]
  constructor
  · intro h
    rw [← residue_pow_of_isPrimitiveRoot hne h, hhalf]
  · intro h
    have hroot : root ≠ 0 := by
      rintro rfl
      rw [show residue q 0 = 0 by simp [residue], zero_pow (Nat.two_pow_pos K).ne'] at h
      exact neg_ne_zero.2 one_ne_zero h.symm
    have hlt : (q - 1).toNat < q.toNat := by
      rw [UInt64.toNat_sub_of_le _ _ hone, show (1 : Word).toNat = 1 from rfl]
      omega
    have hpow : Residue.pow q root (2 ^ K) = q - 1 := by
      apply eq_of_residue_eq (toNat_pow_lt hne _ _) hlt
      rw [residue_pow hne, h, hlast]
    simp [isPrimitiveRoot, hroot, isRootOrder_two_mul, hhalf, hpow]

end prime

/-- The test for a root has an answer modulo any `q` above 2. What it accepts is a root of the
order asked for, also where the modulus is composite; modulo a prime it accepts every such root,
reduced or not. -/
theorem isPrimitiveRoot_exact (q root : Word) (order : ℕ) (hq : 2 < q.toNat) :
    isPrimitiveRoot? q root order = some (isPrimitiveRoot q root order) ∧
      (isPrimitiveRoot q root order = true →
        2 ≤ order ∧ (∃ k, order = 2 ^ k) ∧ orderOf (residue q root) = order) ∧
      (q.toNat.Prime → 2 ≤ order → (∃ k, order = 2 ^ k) → orderOf (residue q root) = order →
        isPrimitiveRoot q root order = true) := by
  have hne : q ≠ 0 := ne_zero_of_one_lt (by omega)
  refine ⟨if_neg fun h => hne h.1, fun h => ?_, fun hprime htwo hpower horderOf => ?_⟩
  · have horder := isRootOrder_of_isPrimitiveRoot h
    obtain ⟨htwo, hpower⟩ := isRootOrder_iff.1 horder
    exact ⟨htwo, hpower, orderOf_of_pow_half hq horder (residue_pow_of_isPrimitiveRoot hne h)⟩
  · have : Fact q.toNat.Prime := ⟨hprime⟩
    obtain ⟨K, rfl⟩ := exists_half_of_isRootOrder (isRootOrder_iff.2 ⟨htwo, hpower⟩)
    exact (isPrimitiveRoot_iff hq root).2 horderOf

/-- A root that is above its prime modulus, and two modulo composite ones: the first is accepted,
the second is not. -/
theorem isPrimitiveRoot_exact_unreduced :
    (17 : Word).toNat.Prime ∧ orderOf (residue 17 19) = 8 ∧ isPrimitiveRoot 17 19 8 = true ∧
      isPrimitiveRoot 85 13 4 = true ∧ orderOf (residue 85 13) = 4 ∧
      isPrimitiveRoot 15 4 2 = false ∧ orderOf (residue 15 4) = 2 := by
  have hprime : (17 : Word).toNat.Prime := by
    change Nat.Prime 17
    decide
  have h19 : orderOf (residue 17 19) = 2 ^ 3 := by
    apply orderOf_eq_prime_pow
    · decide
    · decide
  have h4 : orderOf (residue 15 4) = 2 := by
    apply orderOf_eq_prime
    · decide
    · decide
  have h13 : isPrimitiveRoot 85 13 4 = true := by cbv
  have htest := (isPrimitiveRoot_exact 17 19 8 (by decide)).2.2 hprime (by decide) ⟨3, rfl⟩ h19
  obtain ⟨-, -, horder⟩ := (isPrimitiveRoot_exact 85 13 4 (by decide)).2.1 h13
  exact ⟨hprime, h19, htest, h13, horder, by cbv, h4⟩

/-! ### The search -/

/-- The search goes on until it comes to a base whose power is a root. -/
theorem exists_findRoot? {order cofactor x y : ℕ} (hxy : x ≤ y) (hy : y < q.toNat)
    (hroot : isPrimitiveRoot q (Residue.pow q (.ofNat y) cofactor) order = true) :
    ∃ r, findRoot? q order cofactor x = some r := by
  induction x using findRoot?.induct q order cofactor with
  | case1 x hx r hr =>
      refine ⟨r, ?_⟩
      rw [findRoot?, if_pos hx]
      exact if_pos hr
  | case2 x hx r hr ih =>
      have hne : x ≠ y := by
        rintro rfl
        exact hr hroot
      obtain ⟨found, hfound⟩ := ih (by omega)
      refine ⟨found, ?_⟩
      rw [findRoot?, if_pos hx, ← hfound]
      exact if_neg hr
  | case3 x hx => omega

/-- The search has candidates reduced, so what it finds is. -/
theorem toNat_lt_of_findRoot? (hq : q ≠ 0) {order cofactor x : ℕ} {root : Word}
    (h : findRoot? q order cofactor x = some root) : root.toNat < q.toNat := by
  induction x using findRoot?.induct q order cofactor with
  | case1 x hx r hr =>
      rw [findRoot?, if_pos hx, if_pos hr] at h
      cases h
      exact toNat_pow_lt hq _ _
  | case2 x hx r hr ih =>
      rw [findRoot?, if_pos hx, if_neg hr] at h
      exact ih h
  | case3 x hx =>
      rw [findRoot?, if_neg hx] at h
      cases h

section prime

variable [Fact q.toNat.Prime]

/-- There are words below an odd prime that are not squares; neither 0 nor 1 is among them. -/
theorem exists_pow_half_eq_neg_one (hq : 2 < q.toNat) :
    ∃ y, 2 ≤ y ∧ y < q.toNat ∧ (y : ZMod q.toNat) ^ (q.toNat / 2) = -1 := by
  obtain ⟨a, ha⟩ := FiniteField.exists_nonsquare (F := ZMod q.toNat) (by
    rw [ZMod.ringChar_zmod_n]
    omega)
  have hzero : a ≠ 0 := by
    rintro rfl
    exact ha (IsSquare.zero)
  have hone : a ≠ 1 := by
    rintro rfl
    exact ha (IsSquare.one)
  refine ⟨a.val, ?_, ZMod.val_lt a, ?_⟩
  · have hval0 : a.val ≠ 0 := fun h => hzero ((ZMod.val_eq_zero a).1 h)
    have hval1 : a.val ≠ 1 := by
      intro h
      apply hone
      rw [← ZMod.natCast_zmod_val a, h, Nat.cast_one]
    omega
  · rw [ZMod.natCast_zmod_val]
    rcases ZMod.pow_div_two_eq_neg_one_or_one q.toNat hzero with h | h
    · exact absurd ((ZMod.euler_criterion q.toNat hzero).2 h) ha
    · exact h

end prime

/-! ### The least odd power -/

/-- The least odd power is one of the words compared, all of which are reduced. -/
theorem toNat_leastOddPower_lt (hq : q ≠ 0) (square : Word) (k : ℕ) {current least : Word}
    (hcurrent : current.toNat < q.toNat) (hleast : least.toNat < q.toNat) :
    (leastOddPower q square k current least).toNat < q.toNat :=
  leastOddPower_induction (P := fun w => w.toNat < q.toNat) (fun w _ => toNat_mul_lt hq w square) k
    hcurrent hleast

/-- The walk through odd powers keeps the least of them. -/
theorem leastOddPower_le (hq : q ≠ 0) (square : Word) (k : ℕ) (current least : Word)
    (hcurrent : current.toNat < q.toNat) :
    (leastOddPower q square k current least).toNat ≤ least.toNat ∧
      ∀ i < k, ∀ x < q.toNat, (x : ZMod q.toNat) = residue q current * residue q square ^ i →
        (leastOddPower q square k current least).toNat ≤ x := by
  induction k generalizing current least with
  | zero => exact ⟨le_rfl, by simp⟩
  | succ k ih =>
      unfold leastOddPower
      obtain ⟨hle, hall⟩ := ih (Residue.mul q current square)
        (if current < least then current else least) (toNat_mul_lt hq _ _)
      have hmin : (if current < least then current else least).toNat ≤ least.toNat ∧
          (if current < least then current else least).toNat ≤ current.toNat := by
        split_ifs with h <;> rw [UInt64.lt_iff_toNat_lt] at h <;> omega
      refine ⟨hle.trans hmin.1, ?_⟩
      intro i hi x hx hclass
      cases i with
      | zero =>
          rw [pow_zero, mul_one, residue, ZMod.natCast_eq_natCast_iff', Nat.mod_eq_of_lt hx,
            Nat.mod_eq_of_lt hcurrent] at hclass
          rw [hclass]
          exact hle.trans hmin.2
      | succ i =>
          apply hall i (by omega) x hx
          rw [hclass, residue_mul hq, pow_succ']
          ring

section prime

variable [Fact q.toNat.Prime]

/-- The roots of one order are the odd powers of any of them. -/
theorem exists_odd_power {r y : ZMod q.toNat} (hq : 2 < q.toNat)
    (hr : orderOf r = 2 * 2 ^ K) (hy : orderOf y = 2 * 2 ^ K) :
    ∃ i < 2 ^ K, y = r * (r * r) ^ i := by
  have htwo := two_ne_zero_of_lt hq
  have hpos := Nat.two_pow_pos K
  have : NeZero (2 * 2 ^ K) := ⟨by omega⟩
  have hone : y ^ (2 * 2 ^ K) = 1 := by
    rw [← hy]
    exact pow_orderOf_eq_one y
  obtain ⟨j, hj, rfl⟩ := (IsPrimitiveRoot.iff_orderOf.2 hr).eq_pow_of_pow_eq_one hone
  have hneg : (-1 : ZMod q.toNat) ^ j = -1 := by
    calc (-1 : ZMod q.toNat) ^ j = (r ^ 2 ^ K) ^ j := by
          rw [(pow_eq_neg_one_iff_orderOf htwo r K).2 hr]
      _ = (r ^ j) ^ 2 ^ K := by rw [← pow_mul, Nat.mul_comm, pow_mul]
      _ = -1 := (pow_eq_neg_one_iff_orderOf htwo (r ^ j) K).2 hy
  rcases Nat.even_or_odd j with heven | ⟨i, rfl⟩
  · rw [heven.neg_one_pow] at hneg
    exact absurd hneg.symm (Ring.neg_one_ne_one_of_char_ne_two (by
      rw [ZMod.ringChar_zmod_n]
      omega))
  · refine ⟨i, by omega, ?_⟩
    ring

/-- Where the order divides `q - 1` there is a base whose power to the cofactor is a root. -/
theorem exists_root_base (hq : 2 < q.toNat) {cofactor : ℕ}
    (hcofactor : cofactor * 2 ^ K = q.toNat / 2) :
    ∃ y, 2 ≤ y ∧ y < q.toNat ∧
      isPrimitiveRoot q (Residue.pow q (.ofNat y) cofactor) (2 * 2 ^ K) = true := by
  obtain ⟨y, hy2, hy, hpow⟩ := exists_pow_half_eq_neg_one hq
  have hword : y < 2 ^ 64 := hy.trans q.toNat_lt
  refine ⟨y, hy2, hy, (isPrimitiveRoot_iff hq _).2 ?_⟩
  rw [← pow_eq_neg_one_iff_orderOf (two_ne_zero_of_lt hq),
    residue_pow (ne_zero_of_one_lt (by omega)), residue_ofNat hword, ← pow_mul, hcofactor, hpow]

/-- Where the order divides `q - 1` the search ends, with the least root of the order. -/
theorem leastPrimitiveRoot?_isLeast (hmod : q.toNat % (2 * 2 ^ K) = 1) :
    ∃ root, leastPrimitiveRoot? q (2 * 2 ^ K) = some root ∧
      IsLeast {x : ℕ | x < q.toNat ∧ orderOf (x : ZMod q.toNat) = 2 * 2 ^ K} root.toNat := by
  have hprime : q.toNat.Prime := Fact.out
  have hpos := Nat.two_pow_pos K
  obtain ⟨c, hc⟩ : ∃ c, q.toNat = 2 * 2 ^ K * c + 1 := by
    refine ⟨q.toNat / (2 * 2 ^ K), ?_⟩
    rw [← hmod, Nat.div_add_mod]
  have hq : 2 < q.toNat := by
    have hcpos : 0 < c := Nat.pos_of_ne_zero (by
      rintro rfl
      exact hprime.ne_one (by simpa using hc))
    have := Nat.le_mul_of_pos_right (2 * 2 ^ K) hcpos
    omega
  have hne : q ≠ 0 := ne_zero_of_one_lt (by omega)
  have hhalf : 2 * 2 ^ K / 2 = 2 ^ K := by omega
  have hcofactor : (q.toNat - 1) / (2 * 2 ^ K) = c := by
    rw [hc, Nat.add_sub_cancel, Nat.mul_div_cancel_left _ (by omega)]
  have hexp : c * 2 ^ K = q.toNat / 2 := by
    rw [hc, Nat.mul_comm c, Nat.mul_assoc]
    omega
  obtain ⟨y, hy2, hy, hbase⟩ := exists_root_base hq hexp
  obtain ⟨root, hroot⟩ := exists_findRoot? hy2 hy hbase
  have hrootLt := toNat_lt_of_findRoot? hne hroot
  have horder := (isPrimitiveRoot_iff hq root).1 (findRoot?_spec hroot)
  have hneg := (pow_eq_neg_one_iff_orderOf (two_ne_zero_of_lt hq) _ K).2 horder
  refine ⟨leastOddPower q (Residue.mul q root root) (2 ^ K) root root, ?_, ⟨?_, ?_⟩, ?_⟩
  · have hguard : isRootOrder (2 * 2 ^ K) = true ∧ 2 < q ∧
        (q.toNat - 1) % (2 * 2 ^ K) = 0 := by
      refine ⟨isRootOrder_two_mul K, UInt64.lt_iff_toNat_lt.2 hq, ?_⟩
      rw [hc, Nat.add_sub_cancel, Nat.mul_mod_right]
    simp only [leastPrimitiveRoot?, guard, if_pos hguard, hcofactor, hroot, hhalf,
      Option.bind_eq_bind, Option.pure_def, Option.bind_some]
  · exact toNat_leastOddPower_lt hne _ _ hrootLt hrootLt
  · change orderOf (residue q _) = _
    rw [← pow_eq_neg_one_iff_orderOf (two_ne_zero_of_lt hq)]
    refine residue_pow_leastOddPower hne ?_ _ hneg hneg
    rw [residue_mul hne, mul_pow, hneg]
    ring
  · rintro x ⟨hx, hxorder⟩
    obtain ⟨i, hi, hodd⟩ := exists_odd_power hq horder hxorder
    refine (leastOddPower_le hne _ _ _ _ hrootLt).2 i hi x hx ?_
    rw [hodd, residue_mul hne]

end prime

end Negacyclic
