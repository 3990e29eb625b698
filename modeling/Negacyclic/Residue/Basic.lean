import Negacyclic.Word.Basic

/-!
# Residues

Products, sums, differences and powers modulo a word `q`. The total forms `Residue.mul` and
`Residue.pow` are what the rest of the library computes with; a modulus of zero is the caller's
concern there. The forms with a question mark are for arguments of unknown origin: a modulus of
zero has no residues, and a sum or difference is taken of residues only, so an operand that is not
below the modulus has no answer.
-/

namespace Negacyclic.Residue

/-! ### Products, sums and differences -/

/-- `a * b mod q`. -/
def mul (q a b : Word) : Word :=
  .ofNat (a.toNat * b.toNat % q.toNat)

/-- The product modulo `q` is the remainder of the exact product. It is below `q`, so nothing is
lost when it is cut to a word. -/
theorem toNat_mul {q : Word} (h : q ≠ 0) (a b : Word) :
    (mul q a b).toNat = a.toNat * b.toNat % q.toNat := by
  have hq : 0 < q.toNat := by
    rcases Nat.eq_zero_or_pos q.toNat with h0 | h0
    · exact absurd (UInt64.toNat_inj.1 h0) h
    · exact h0
  have hlt := Nat.mod_lt (a.toNat * b.toNat) hq
  simp only [mul, UInt64.toNat_ofNat']
  exact Nat.mod_eq_of_lt (Nat.lt_trans hlt q.toNat_lt)

/-- `a * b mod q`, unless `q` is zero. -/
def mul? (q a b : Word) : Option Word :=
  if q = 0 then none else some (mul q a b)

/-- `a + b mod q` for residues `a` and `b`. -/
def add? (q a b : Word) : Option Word :=
  if a < q ∧ b < q then
    let sum := a.toNat + b.toNat
    some (.ofNat (if q.toNat ≤ sum then sum - q.toNat else sum))
  else
    none

/-- `a - b mod q` for residues `a` and `b`. -/
def sub? (q a b : Word) : Option Word :=
  if a < q ∧ b < q then
    some (if b ≤ a then a - b else a + (q - b))
  else
    none

/-! ### Powers -/

/-- Square and multiply: `acc * base ^ e`, reduced at every step. The exponent is halved while
the base is squared, and an odd exponent puts one factor into the accumulator. -/
def powFrom (q acc base : Word) (e : Nat) : Word :=
  if e = 0 then acc
  else powFrom q (if e % 2 = 1 then mul q acc base else acc) (mul q base base) (e / 2)
termination_by e

/-- `base ^ e mod q`. -/
def pow (q base : Word) (e : Nat) : Word :=
  if q = 1 then 0 else powFrom q 1 (base % q) e

/-- `base ^ e mod q`, unless `q` is zero. -/
def pow? (q base : Word) (e : Nat) : Option Word :=
  if q = 0 then none else some (pow q base e)

end Negacyclic.Residue
