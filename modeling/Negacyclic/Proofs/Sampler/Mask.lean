import Mathlib.Data.Int.CardIntervalMod
import Mathlib.Data.Nat.Size
import Mathlib.Data.Set.Card
import Negacyclic.Sampler.Bounded

/-!
# Masks for words below a bound

`Source.maskFor` cuts a word to the bits of the greatest word below the bound, but to one bit at
least (`toNat_maskFor`). So what is left of a word is its remainder by a power of two that is at
least the bound and at most twice the bound (`toNat_and_maskFor`, `two_pow_maskWidth`).

All words fall evenly on the remainders by a power of two. Hence no word below the bound is more
likely than another, and at least half of all words are taken (`maskFor_exact`).
-/

namespace Negacyclic

/-! ### Words by their remainders -/

/-- The numbers below a multiple of `d` fall evenly on the remainders. -/
theorem card_filter_mod_eq {N d v : ℕ} (hd : d ∣ N) (hv : v < d) :
    (Finset.filter (fun n => n % d = v) (Finset.range N)).card = N / d := by
  have hcount := Nat.count_modEq_card N (Nat.zero_lt_of_lt hv) v
  rw [Nat.mod_eq_zero_of_dvd hd, if_neg (Nat.not_lt_zero _), Nat.add_zero,
    Nat.count_eq_card_filter_range] at hcount
  rw [← hcount]
  simp only [Nat.ModEq, Nat.mod_eq_of_lt hv]

/-- Those with a remainder below `b` are the sum over the remainders. -/
theorem card_filter_mod_lt {N d b : ℕ} (hd : d ∣ N) (hb : b ≤ d) :
    (Finset.filter (fun n => n % d < b) (Finset.range N)).card = b * (N / d) := by
  have hfibre (v : ℕ) (hv : v ∈ Finset.range b) :
      (Finset.filter (fun n => n % d = v)
        (Finset.filter (fun n => n % d < b) (Finset.range N))).card = N / d := by
    have hvb := Finset.mem_range.1 hv
    rw [← card_filter_mod_eq hd (hvb.trans_le hb), Finset.filter_filter]
    congr 1
    apply Finset.filter_congr
    intro n _
    constructor
    · exact fun h => h.2
    · exact fun h => ⟨h ▸ hvb, h⟩
  have hmaps : Set.MapsTo (fun n => n % d)
      (Finset.filter (fun n => n % d < b) (Finset.range N)) (Finset.range b) := by
    intro n hn
    exact Finset.mem_coe.2 (Finset.mem_range.2 (Finset.mem_filter.1 hn).2)
  rw [Finset.card_eq_sum_card_fiberwise hmaps, Finset.sum_const_nat hfibre, Finset.card_range]

/-- Words with a property of their values are as many as the values. -/
theorem ncard_words (p : ℕ → Prop) [DecidablePred p] :
    {u : Word | p u.toNat}.ncard = (Finset.filter p (Finset.range (2 ^ 64))).card := by
  have himage : UInt64.toNat '' {u : Word | p u.toNat} =
      Finset.filter p (Finset.range (2 ^ 64)) := by
    ext n
    rw [Finset.mem_coe, Finset.mem_filter, Finset.mem_range]
    constructor
    · rintro ⟨u, hu, rfl⟩
      exact ⟨u.toNat_lt, hu⟩
    · rintro ⟨hn, hp⟩
      have hvalue : (UInt64.ofNat n).toNat = n := by
        rw [UInt64.toNat_ofNat', Nat.mod_eq_of_lt hn]
      exact ⟨.ofNat n, by rwa [Set.mem_ofPred_eq, hvalue], hvalue⟩
  rw [← Set.ncard_image_of_injective _ fun _ _ h => UInt64.toNat_inj.1 h, himage,
    Set.ncard_coe_finset]

namespace Source

variable {bound : Word}

/-! ### The width of the mask -/

/-- The number of bits of the mask for words below `bound`: those of the greatest such word, but at
least one. -/
def maskWidth (bound : Word) : ℕ :=
  max 1 (bound.toNat - 1).size

/-- The bits of a word are its leading zeros and its size. -/
theorem leadingZeros_eq (x : Word) : leadingZeros x = 64 - x.toNat.size := by
  unfold leadingZeros
  split_ifs with h
  · rw [h]
    rfl
  · have hne : x.toNat ≠ 0 := fun h0 => h (UInt64.toNat_inj.1 h0)
    have hsize : x.toNat.size = x.toNat.log2 + 1 := by
      apply le_antisymm
      · exact Nat.size_le.2 Nat.lt_log2_self
      · exact Nat.lt_size.2 (Nat.log2_self_le hne)
    omega

/-- A mask is a word. -/
theorem maskWidth_le (bound : Word) : maskWidth bound ≤ 64 := by
  have hlt := bound.toNat_lt
  have hsize : (bound.toNat - 1).size ≤ 64 := Nat.size_le.2 (by omega)
  exact max_le (by decide) hsize

/-- All ones shifted to the right. -/
theorem two_pow_sub_one_div (a b : ℕ) : (2 ^ (a + b) - 1) / 2 ^ a = 2 ^ b - 1 := by
  apply Nat.eq_of_testBit_eq
  intro i
  simp [Nat.testBit_div_two_pow, Nat.testBit_two_pow_sub_one, Nat.add_comm a b]

/-- The mask is all ones, as many as its width. -/
theorem toNat_maskFor (hbound : 1 ≤ bound.toNat) :
    (maskFor bound).toNat = 2 ^ maskWidth bound - 1 := by
  have hle := maskWidth_le bound
  have hpos : 1 ≤ maskWidth bound := le_max_left _ _
  have hone : (1 : Word) ≤ bound := UInt64.le_iff_toNat_le.2 hbound
  have hshift : min 63 (leadingZeros (bound - 1)) = 64 - maskWidth bound := by
    rw [leadingZeros_eq, UInt64.toNat_sub_of_le _ _ hone, show (1 : Word).toNat = 1 from rfl]
    unfold maskWidth at hle ⊢
    omega
  have hword : (64 - maskWidth bound).toUInt64.toNat % 64 = 64 - maskWidth bound := by
    rw [Nat.toUInt64, UInt64.toNat_ofNat']
    omega
  calc (maskFor bound).toNat = (2 ^ (64 - maskWidth bound + maskWidth bound) - 1) /
          2 ^ (64 - maskWidth bound) := by
        rw [maskFor, hshift, UInt64.toNat_shiftRight, hword, Nat.shiftRight_eq_div_pow,
          Nat.sub_add_cancel hle]
        rfl
    _ = 2 ^ maskWidth bound - 1 := two_pow_sub_one_div _ _

/-- The mask has room for the words below the bound, and for less than twice as many. -/
theorem two_pow_maskWidth (hbound : 1 ≤ bound.toNat) :
    bound.toNat ≤ 2 ^ maskWidth bound ∧ 2 ^ maskWidth bound ≤ 2 * bound.toNat := by
  have hlt := Nat.lt_size_self (bound.toNat - 1)
  unfold maskWidth
  rcases Nat.lt_or_ge 1 (bound.toNat - 1).size with h | h
  · rw [max_eq_right h.le]
    obtain ⟨k, hk⟩ := Nat.exists_eq_add_of_lt h
    have hpow : 2 ^ (1 + k) ≤ bound.toNat - 1 := Nat.lt_size.1 (by omega)
    rw [hk] at hlt ⊢
    rw [Nat.pow_succ] at hlt ⊢
    omega
  · rw [max_eq_left h]
    have := Nat.pow_le_pow_right Nat.two_pos h
    omega

/-- A word cut to the mask is its remainder. -/
theorem toNat_and_maskFor (hbound : 1 ≤ bound.toNat) (u : Word) :
    (u &&& maskFor bound).toNat = u.toNat % 2 ^ maskWidth bound := by
  rw [UInt64.toNat_and, toNat_maskFor hbound, Nat.and_two_pow_sub_one_eq_mod]

/-! ### Words by what the mask leaves of them -/

/-- Each word below the bound is left of equally many words. -/
theorem ncard_and_maskFor_eq (hbound : 1 ≤ bound.toNat) {v : Word} (hv : v < bound) :
    {u : Word | u &&& maskFor bound = v}.ncard = 2 ^ 64 / 2 ^ maskWidth bound := by
  have hlt := (UInt64.lt_iff_toNat_lt.1 hv).trans_le (two_pow_maskWidth hbound).1
  simp only [← UInt64.toNat_inj, toNat_and_maskFor hbound]
  rw [ncard_words fun n => n % 2 ^ maskWidth bound = v.toNat,
    card_filter_mod_eq (Nat.pow_dvd_pow 2 (maskWidth_le bound)) hlt]

/-- The words that are taken are as many times the bound. -/
theorem ncard_and_maskFor_lt (hbound : 1 ≤ bound.toNat) :
    {u : Word | u &&& maskFor bound < bound}.ncard =
      bound.toNat * (2 ^ 64 / 2 ^ maskWidth bound) := by
  simp only [UInt64.lt_iff_toNat_lt, toNat_and_maskFor hbound]
  rw [ncard_words fun n => n % 2 ^ maskWidth bound < bound.toNat,
    card_filter_mod_lt (Nat.pow_dvd_pow 2 (maskWidth_le bound)) (two_pow_maskWidth hbound).1]

/-- The mask of a draw below `bound` is all ones up to some bit. It lets every word below the bound
through and has no bit to spare; each of these words comes from equally many of all words, and at
least half of all words are taken. -/
theorem maskFor_exact (bound : Word) (hbound : 1 ≤ bound.toNat) :
    (∀ (G : Generator) budget, (drawBelow budget bound : Draw G Word) =
        drawMasked bound (maskFor bound) budget) ∧
      (∃ k, 1 ≤ k ∧ k ≤ 64 ∧ (maskFor bound).toNat = 2 ^ k - 1) ∧
      bound.toNat - 1 ≤ (maskFor bound).toNat ∧
      (maskFor bound).toNat + 1 ≤ 2 * bound.toNat ∧
      (∀ v < bound, {u : Word | u &&& maskFor bound = v}.ncard =
        2 ^ 64 / ((maskFor bound).toNat + 1)) ∧
      2 ^ 64 ≤ 2 * {u : Word | u &&& maskFor bound < bound}.ncard := by
  have hmask := toNat_maskFor hbound
  obtain ⟨hroom, htight⟩ := two_pow_maskWidth hbound
  have hsucc : (maskFor bound).toNat + 1 = 2 ^ maskWidth bound := by omega
  have hne : bound ≠ 0 := by
    rintro rfl
    exact absurd hbound (by decide)
  refine ⟨fun _ _ => if_neg hne, ⟨_, le_max_left _ _, maskWidth_le bound, hmask⟩, by omega,
    by omega, fun v hv => ?_, ?_⟩
  · rw [hsucc, ncard_and_maskFor_eq hbound hv]
  · calc 2 ^ 64 = 2 ^ maskWidth bound * (2 ^ 64 / 2 ^ maskWidth bound) :=
          (Nat.mul_div_cancel' (Nat.pow_dvd_pow 2 (maskWidth_le bound))).symm
      _ ≤ 2 * bound.toNat * (2 ^ 64 / 2 ^ maskWidth bound) := Nat.mul_le_mul_right _ htight
      _ = 2 * {u : Word | u &&& maskFor bound < bound}.ncard := by
          rw [ncard_and_maskFor_lt hbound, Nat.mul_assoc]

/-- The least bound, whose mask has one bit although no bit is needed, and the least one whose mask
has all. -/
theorem maskFor_exact_ends :
    maskFor 1 = 1 ∧ {u : Word | u &&& 1 = 0}.ncard = 2 ^ 63 ∧
      maskFor 0x8000000000000001 = 0xffffffffffffffff ∧
      2 ^ 64 ≤ 2 * {u : Word | u &&& 0xffffffffffffffff < 0x8000000000000001}.ncard := by
  have hone : maskFor 1 = 1 := by decide
  have hall : maskFor 0x8000000000000001 = 0xffffffffffffffff := by decide
  obtain ⟨-, -, -, -, hcount, -⟩ := maskFor_exact 1 (by decide)
  obtain ⟨-, -, -, -, -, hhalf⟩ := maskFor_exact 0x8000000000000001 (by decide)
  rw [hone] at hcount
  rw [hall] at hhalf
  exact ⟨hone, hcount 0 (by decide), hall, hhalf⟩

end Source

end Negacyclic
