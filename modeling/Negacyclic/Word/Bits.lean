import Negacyclic.Word.Basic

/-!
# Bits of a word

Reversal of the low bits of an index, the floor of the base-two logarithm, powers of two, and the
largest word of a given width. `bitReverse` is on natural numbers and recurses on the width: the
lowest bit of the argument becomes the highest of the result. The forms on words say in their type
where the question has no answer: a width above 64, the logarithm of zero.
-/

namespace Negacyclic

/-- The low `b` bits of `x` in reverse order; higher bits are dropped. -/
def bitReverse : (b : Nat) → (x : Nat) → Nat
  | 0, _ => 0
  | b + 1, x => 2 ^ b * (x % 2) + bitReverse b (x / 2)

/-- No bits are reversed to zero. -/
@[simp] theorem bitReverse_zero (x : Nat) : bitReverse 0 x = 0 := rfl

/-- The least bit becomes the greatest and the others are reversed below it. -/
theorem bitReverse_succ (b x : Nat) :
    bitReverse (b + 1) x = 2 ^ b * (x % 2) + bitReverse b (x / 2) := rfl

/-- What is reversed has no more bits. -/
theorem bitReverse_lt (b x : Nat) : bitReverse b x < 2 ^ b := by
  induction b generalizing x with
  | zero => simp
  | succ b ih =>
      have h := ih (x / 2)
      have hx : x % 2 ≤ 1 := by omega
      have hm : 2 ^ b * (x % 2) ≤ 2 ^ b := by simpa using Nat.mul_le_mul_left (2 ^ b) hx
      rw [bitReverse_succ, Nat.pow_succ]
      omega

/-- Whether `n` is `2^k` for some `k`. -/
def isPowerOfTwo (n : Nat) : Bool :=
  n != 0 && n == 2 ^ n.log2

/-- The test on words of one bit is the existence of an exponent. -/
theorem isPowerOfTwo_iff {n : Nat} : isPowerOfTwo n = true ↔ ∃ k : Nat, n = 2 ^ k := by
  constructor
  · intro h
    simp only [isPowerOfTwo, Bool.and_eq_true, beq_iff_eq] at h
    exact ⟨_, h.2⟩
  · rintro ⟨k, rfl⟩
    simp [isPowerOfTwo, Nat.log2_two_pow]

namespace Word

/-- The low `b` bits of `x` in reverse order, for a width of at most 64. -/
def reverseBits? (b : Nat) (x : Word) : Option Word :=
  if b ≤ 64 then some (.ofNat (bitReverse b x.toNat)) else none

/-- The floor of the base-two logarithm; zero has none. -/
def log2? (x : Word) : Option Nat :=
  if x = 0 then none else some x.toNat.log2

/-- The largest word of `b` bits, for a width of at most 64. -/
def maxOfBits? (b : Nat) : Option Word :=
  if b ≤ 64 then some (.ofNat (2 ^ b - 1)) else none

end Word

end Negacyclic
