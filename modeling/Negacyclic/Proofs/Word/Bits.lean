import Mathlib.Algebra.BigOperators.Group.Finset.Basic
import Mathlib.Tactic.Ring
import Negacyclic.Word.Bits

/-!
# Reversal of bits

`bitReverse` recurses on the lowest bit of its argument. The layers of a transform halve their
blocks by the highest bit of a position, and a table slot is a power of two plus a group number,
so the theory of the transforms needs the reversal read from the other end:

* `bitReverse_of_lt`, `bitReverse_two_pow_add_of_lt`: the two halves of an index range;
* `bitReverse_mul_add`: an index made of a block number and a position in the block;
* `bitReverse_two_pow_add`: a table slot;
* `bitReverse_bitReverse`: the reversal undoes itself, so it permutes an index range
  (`sum_bitReverse`);
* `testBit_bitReverse`: every bit of it.

`Word.reverseBits_exact` has all of this for words of any width up to 64.
-/

namespace Negacyclic

/-- A power of two falls into `2^j` parts of an even size. -/
theorem exists_even_parts {j k : ℕ} (hj : j < k) : ∃ t, 0 < t ∧ 2 ^ k = 2 * t * 2 ^ j := by
  obtain ⟨i, rfl⟩ := Nat.exists_eq_add_of_lt hj
  refine ⟨2 ^ i, Nat.two_pow_pos i, ?_⟩
  rw [pow_succ, pow_add]
  ring

/-- Twice a lesser power of two is at most the greater. -/
theorem two_mul_two_pow_le {j k : ℕ} (hj : j < k) : 2 * 2 ^ j ≤ 2 ^ k := by
  rw [← pow_succ']
  exact Nat.pow_le_pow_right (by omega) hj

/-- An index in the lower half reverses to an even number. -/
theorem bitReverse_of_lt {b i : ℕ} (h : i < 2 ^ b) :
    bitReverse (b + 1) i = 2 * bitReverse b i := by
  induction b generalizing i with
  | zero =>
      have : i = 0 := by omega
      simp [this, bitReverse_succ]
  | succ b ih =>
      rw [bitReverse_succ, ih (by rw [Nat.pow_succ] at h; omega), bitReverse_succ]
      ring

/-- An index in the upper half reverses to the next odd number. -/
theorem bitReverse_two_pow_add_of_lt {b i : ℕ} (h : i < 2 ^ b) :
    bitReverse (b + 1) (2 ^ b + i) = 2 * bitReverse b i + 1 := by
  induction b generalizing i with
  | zero =>
      have : i = 0 := by omega
      simp [this, bitReverse_succ]
  | succ b ih =>
      have hmod : (2 ^ (b + 1) + i) % 2 = i % 2 := by omega
      have hdiv : (2 ^ (b + 1) + i) / 2 = 2 ^ b + i / 2 := by omega
      rw [bitReverse_succ, hmod, hdiv, ih (by rw [Nat.pow_succ] at h; omega), bitReverse_succ]
      ring

/-- Position `j` of block `h`, for blocks of `2^k` positions: the block number supplies the low
bits of the reversal. -/
theorem bitReverse_mul_add (d k h j : ℕ) (hj : j < 2 ^ k) :
    bitReverse (d + k) (h * 2 ^ k + j) = bitReverse d h + 2 ^ d * bitReverse k j := by
  induction k generalizing j with
  | zero =>
      have : j = 0 := by omega
      simp [this]
  | succ k ih =>
      have hmod : (h * 2 ^ (k + 1) + j) % 2 = j % 2 := by
        rw [Nat.pow_succ, ← Nat.mul_assoc]
        omega
      have hdiv : (h * 2 ^ (k + 1) + j) / 2 = h * 2 ^ k + j / 2 := by
        rw [Nat.pow_succ, ← Nat.mul_assoc]
        omega
      rw [← Nat.add_assoc, bitReverse_succ, hmod, hdiv, ih _ (by rw [Nat.pow_succ] at hj; omega),
        bitReverse_succ, Nat.pow_add]
      ring

/-- Slot `2^k + i` of a table of `2^b` entries. -/
theorem bitReverse_two_pow_add {b k i : ℕ} (hk : k < b) (hi : i < 2 ^ k) :
    bitReverse b (2 ^ k + i) = 2 ^ (b - 1 - k) * (1 + 2 * bitReverse k i) := by
  obtain ⟨c, rfl⟩ := Nat.exists_eq_add_of_lt hk
  rw [show k + c + 1 - 1 - k = c by omega]
  clear hk
  induction c with
  | zero =>
      rw [Nat.add_zero, bitReverse_two_pow_add_of_lt hi]
      ring
  | succ c ih =>
      have hlt : 2 ^ k + i < 2 ^ (k + c + 1) := by
        have := two_mul_two_pow_le (show k < k + c + 1 by omega)
        omega
      rw [← Nat.add_assoc, bitReverse_of_lt hlt, ih]
      ring

/-- Reversing twice gives the index back. -/
theorem bitReverse_bitReverse {b i : ℕ} (h : i < 2 ^ b) : bitReverse b (bitReverse b i) = i := by
  induction b generalizing i with
  | zero =>
      rw [bitReverse_zero]
      omega
  | succ b ih =>
      have hhalf : i / 2 < 2 ^ b := by
        rw [Nat.pow_succ] at h
        omega
      rw [bitReverse_succ b i]
      rcases Nat.mod_two_eq_zero_or_one i with hi | hi
      · rw [hi, Nat.mul_zero, Nat.zero_add, bitReverse_of_lt (bitReverse_lt _ _), ih hhalf]
        omega
      · rw [hi, Nat.mul_one, bitReverse_two_pow_add_of_lt (bitReverse_lt _ _), ih hhalf]
        omega

/-- Reversal is injective on numbers of `b` bits, being its own inverse there. -/
theorem bitReverse_inj {b i j : ℕ} (hi : i < 2 ^ b) (hj : j < 2 ^ b) :
    bitReverse b i = bitReverse b j ↔ i = j := by
  refine ⟨fun h => ?_, congrArg (bitReverse b)⟩
  rw [← bitReverse_bitReverse hi, h, bitReverse_bitReverse hj]

/-- The reversal permutes the indices below `2^b`. -/
theorem sum_bitReverse {M : Type*} [AddCommMonoid M] (b : ℕ) (f : ℕ → M) :
    ∑ j ∈ Finset.range (2 ^ b), f (bitReverse b j) = ∑ j ∈ Finset.range (2 ^ b), f j := by
  refine Finset.sum_nbij' (bitReverse b) (bitReverse b) ?_ ?_ ?_ ?_ ?_
  · exact fun j _ => Finset.mem_range.2 (bitReverse_lt b j)
  · exact fun j _ => Finset.mem_range.2 (bitReverse_lt b j)
  · exact fun j hj => bitReverse_bitReverse (Finset.mem_range.1 hj)
  · exact fun j hj => bitReverse_bitReverse (Finset.mem_range.1 hj)
  · exact fun j _ => rfl

/-! ### Bit by bit -/

/-- The bits of a reversal, from both ends. -/
theorem testBit_bitReverse (b x i : ℕ) :
    (bitReverse b x).testBit i = (decide (i < b) && x.testBit (b - 1 - i)) := by
  induction b generalizing x with
  | zero => simp
  | succ b ih =>
      rw [bitReverse_succ, Nat.testBit_two_pow_mul_add _ (bitReverse_lt b _), ih]
      -- The recursion has the bits below `b`, bit `b` is the lowest of `x`, and no bit is higher.
      rcases Nat.lt_trichotomy i b with hi | rfl | hi
      · rw [if_pos hi, Nat.testBit_div_two, show b - 1 - i + 1 = b + 1 - 1 - i by omega]
        simp [hi, Nat.lt_succ_of_lt hi]
      · simp
      · have hlt : x % 2 < 2 ^ (i - b) :=
          (Nat.mod_lt x Nat.two_pos).trans_le (Nat.le_self_pow (by omega) 2)
        rw [if_neg (by omega), Nat.testBit_lt_two_pow hlt]
        simp [show ¬i < b + 1 by omega]

/-- Only the low bits of the argument count. -/
theorem bitReverse_congr {b x y : ℕ} (h : x % 2 ^ b = y % 2 ^ b) :
    bitReverse b x = bitReverse b y := by
  apply Nat.eq_of_testBit_eq
  intro i
  rw [testBit_bitReverse, testBit_bitReverse]
  by_cases hi : i < b
  · have hbit := congrArg (Nat.testBit · (b - 1 - i)) h
    simpa [hi, show b - 1 - i < b by omega] using hbit
  · simp [hi]

/-- A narrow reversal is the top of a wider one. -/
theorem bitReverse_add_div (b d x : ℕ) : bitReverse (b + d) x / 2 ^ d = bitReverse b x := by
  apply Nat.eq_of_testBit_eq
  intro i
  rw [Nat.testBit_div_two_pow, testBit_bitReverse, testBit_bitReverse,
    show b + d - 1 - (i + d) = b - 1 - i by omega]
  simp

/-! ### Words -/

namespace Word

variable {b : ℕ}

/-- Up to 64 bits what is reversed is a word. -/
theorem toNat_ofNat_bitReverse (hb : b ≤ 64) (x : ℕ) :
    (UInt64.ofNat (bitReverse b x)).toNat = bitReverse b x := by
  have hlt := (bitReverse_lt b x).trans_le (Nat.pow_le_pow_right Nat.two_pos hb)
  rw [UInt64.toNat_ofNat', Nat.mod_eq_of_lt hlt]

/-- A reversal of words is the reversal of their values. -/
theorem reverseBits?_eq_some_iff (hb : b ≤ 64) {x y : Word} :
    reverseBits? b x = some y ↔ y.toNat = bitReverse b x.toNat := by
  rw [reverseBits?, if_pos hb, Option.some_inj, ← UInt64.toNat_inj, toNat_ofNat_bitReverse hb]
  exact eq_comm

/-- The reversal as a permutation of the words of `b` bits. -/
def reversal (hb : b ≤ 64) : Equiv.Perm {x : Word // x.toNat < 2 ^ b} :=
  Function.Involutive.toPerm
    (fun x => ⟨.ofNat (bitReverse b x.1.toNat), by
      rw [toNat_ofNat_bitReverse hb]
      exact bitReverse_lt b _⟩)
    (fun x => by
      apply Subtype.ext
      apply UInt64.toNat_inj.1
      rw [toNat_ofNat_bitReverse hb, toNat_ofNat_bitReverse hb, bitReverse_bitReverse x.2])

/-- The reversal of the low `b` bits of a word, for a width of at most 64. It does not look at the
other bits, has bit `b - 1 - i` at place `i`, and is the reversal of the whole word shifted down to
`b` bits. On the words of `b` bits it is a permutation that undoes itself. A slot `2^k + i` of a
table of `2^b` entries reverses to an odd multiple of `2^(b - 1 - k)`, which is twice the reversal
of `i` in `k` bits and one. -/
theorem reverseBits_exact (hb : b ≤ 64) :
    (∀ x : Word, ∃ y, reverseBits? b x = some y ∧ y.toNat < 2 ^ b ∧
        (∀ i < b, y.toNat.testBit i = x.toNat.testBit (b - 1 - i)) ∧
        y.toNat = bitReverse 64 x.toNat >>> (64 - b) ∧
        ∀ x' : Word, x'.toNat % 2 ^ b = x.toNat % 2 ^ b → reverseBits? b x' = some y) ∧
      (∃ σ : Equiv.Perm {x : Word // x.toNat < 2 ^ b},
        Function.Involutive σ ∧ ∀ x (hx : x.toNat < 2 ^ b), reverseBits? b x = some (σ ⟨x, hx⟩)) ∧
      ∀ k < b, ∀ i < 2 ^ k, ∃ r y, reverseBits? k (.ofNat i) = some r ∧
        reverseBits? b (.ofNat (2 ^ k + i)) = some y ∧
        y.toNat = 2 ^ (b - 1 - k) * (1 + 2 * r.toNat) := by
  refine ⟨fun x => ?_, ⟨reversal hb, ?_, fun x _ => ?_⟩, fun k hk i hi => ?_⟩
  · refine ⟨_, if_pos hb, ?_, fun i hi => ?_, ?_, fun x' hx' => ?_⟩
    · rw [toNat_ofNat_bitReverse hb]
      exact bitReverse_lt b _
    · rw [toNat_ofNat_bitReverse hb, testBit_bitReverse, decide_eq_true hi, Bool.true_and]
    · rw [toNat_ofNat_bitReverse hb, Nat.shiftRight_eq_div_pow,
        ← bitReverse_add_div b (64 - b), Nat.add_sub_cancel' hb]
    · rw [reverseBits?_eq_some_iff hb, toNat_ofNat_bitReverse hb, bitReverse_congr hx']
  · exact Function.Involutive.toPerm_involutive _
  · exact if_pos hb
  · have hword : 2 ^ k + i < 2 ^ 64 := by
      have hwidth := Nat.pow_le_pow_right Nat.two_pos hb
      have hslot := two_mul_two_pow_le hk
      omega
    have hkWidth : k ≤ 64 := (Nat.le_of_lt hk).trans hb
    refine ⟨_, _, if_pos hkWidth, if_pos hb, ?_⟩
    rw [toNat_ofNat_bitReverse hb, toNat_ofNat_bitReverse hkWidth, UInt64.toNat_ofNat',
      UInt64.toNat_ofNat', Nat.mod_eq_of_lt hword, Nat.mod_eq_of_lt (by omega),
      bitReverse_two_pow_add hk hi]

/-- At the greatest width, a slot in the group of eight. -/
theorem reverseBits_exact_widest :
    reverseBits? 3 5 = some 5 ∧ reverseBits? 64 13 = some 0xb000000000000000 := by
  obtain ⟨-, -, hslot⟩ := reverseBits_exact (b := 64) le_rfl
  obtain ⟨r, y, hr, hy, hvalue⟩ := hslot 3 (by decide) 5 (by decide)
  have h5 : reverseBits? 3 5 = some 5 := by decide
  obtain rfl : r = 5 := Option.some_inj.1 (hr.symm.trans h5)
  obtain rfl : y = 0xb000000000000000 := UInt64.toNat_inj.1 hvalue
  exact ⟨h5, hy⟩

end Word

end Negacyclic
