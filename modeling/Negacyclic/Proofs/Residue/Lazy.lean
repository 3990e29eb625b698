import Mathlib.Tactic.Ring
import Negacyclic.Proofs.Residue.Class
import Negacyclic.Residue.Multiplier

/-!
# Lazy products and remainders

A `Multiplier` replaces the division in `w * x mod q` by the quotient `⌊w * 2^p / q⌋` taken once.
The estimate `⌊⌊w * S / q⌋ * x / S⌋` is never above `w * x / q` and less than two below it as long
as `x` is at most the scale `S` (`nestedFloor_mul_le`, `lt_nestedFloor_mul_add`). So the lazy
product, although both of its word products wrap, is the exact difference of two natural numbers
(`Multiplier.Proper.toNat_mulLazy`): a word below `2 * q` in the class of the product. The lazy
remainder of a word by the reciprocal of `q` is the case `w = 1`; there the scale exceeds every
word, so it needs no bound on the word.

`Leaves` says what either of them comes to, and `lazy_exact` for which moduli and words.
-/

namespace Negacyclic

/-! ### The nested floor -/

/-- The estimate of the quotient by nested floors is not too great. -/
theorem nestedFloor_mul_le (w x : ℕ) {q S : ℕ} (hS : 0 < S) :
    w * S / q * x / S * q ≤ w * x := by
  have hr : w * S / q * q ≤ w * S := Nat.div_mul_le_self _ _
  have he : w * S / q * x / S * S ≤ w * S / q * x := Nat.div_mul_le_self _ _
  refine Nat.le_of_mul_le_mul_right ?_ hS
  calc w * S / q * x / S * q * S = w * S / q * x / S * S * q := by ring
    _ ≤ w * S / q * x * q := Nat.mul_le_mul_right q he
    _ = w * S / q * q * x := by ring
    _ ≤ w * S * x := Nat.mul_le_mul_right x hr
    _ = w * x * S := by ring

/-- The estimate of the quotient by nested floors is less than 2 too small: each floor costs less
than one modulus, the inner one because `x ≤ S`. -/
theorem lt_nestedFloor_mul_add (w : ℕ) {x q S : ℕ} (hq : 0 < q) (hS : 0 < S) (hx : x ≤ S) :
    w * x < w * S / q * x / S * q + 2 * q := by
  have hr : w * S < w * S / q * q + q := by
    have := Nat.lt_div_mul_add hq (a := w * S)
    omega
  have he : w * S / q * x < w * S / q * x / S * S + S := by
    have := Nat.lt_div_mul_add hS (a := w * S / q * x)
    omega
  apply Nat.lt_of_mul_lt_mul_right (a := S)
  calc w * x * S = w * S * x := by ring
    _ ≤ (w * S / q * q + q) * x := Nat.mul_le_mul_right x hr.le
    _ = w * S / q * x * q + q * x := by ring
    _ < (w * S / q * x / S * S + S) * q + q * S := by
        have h₁ := Nat.mul_lt_mul_of_pos_right he hq
        have h₂ := Nat.mul_le_mul_left q hx
        omega
    _ = (w * S / q * x / S * q + 2 * q) * S := by ring

/-! ### What an estimate leaves -/

/-- The word `r` is the integer that `e` multiples of `q` leave of `n`: below `2 * q` and congruent
to `n`. -/
structure Leaves (q : Word) (n e : ℕ) (r : Word) : Prop where
  toInt_eq : (r.toNat : ℤ) = n - e * q.toNat
  lt_twice : r.toNat < 2 * q.toNat
  mod_eq : r.toNat % q.toNat = n % q.toNat

/-- An estimate that is not above the quotient and less than two below it. -/
theorem leaves_of_estimate {q r : Word} {n e : ℕ} (hr : r.toNat = n - e * q.toNat)
    (hle : e * q.toNat ≤ n) (hlt : n < e * q.toNat + 2 * q.toNat) : Leaves q n e r where
  toInt_eq := by rw [hr, Int.natCast_sub hle, Int.natCast_mul]
  lt_twice := by omega
  mod_eq := by
    conv_rhs => rw [← Nat.sub_add_cancel hle, Nat.add_mul_mod_self_right]
    rw [hr]

/-- What a quotient leaves is in the class of the number it divides. -/
theorem Leaves.residue_eq {q r : Word} {n e : ℕ} (h : Leaves q n e r) :
    residue q r = (n : ZMod q.toNat) :=
  residue_eq_natCast h.mod_eq

/-- One conditional subtraction makes it the remainder. -/
theorem Leaves.toNat_reduceOnce {q r : Word} {n e : ℕ} (h : Leaves q n e r) :
    (Word.reduceOnce r q).toNat = n % q.toNat :=
  (toNat_reduceOnce_eq_mod h.lt_twice).trans h.mod_eq

/-! ### Multipliers -/

/-- The multiplier holds a residue modulo `q` and its quotient at precision `p`. -/
structure Multiplier.Proper (p : Precision) (q : Word) (m : Multiplier) : Prop where
  value_lt : m.value.toNat < q.toNat
  toNat_quotient : m.quotient.toNat = m.value.toNat * 2 ^ p.bits / q.toNat

namespace Multiplier

variable {p : Precision} {q : Word}

/-- The quotient of a residue has as many bits as the precision. -/
theorem quotient_lt {w : ℕ} {q : Word} (hw : w < q.toNat) (p : Precision) :
    w * 2 ^ p.bits / q.toNat < 2 ^ p.bits :=
  Nat.div_lt_of_lt_mul (Nat.mul_lt_mul_of_pos_right hw (Nat.two_pow_pos _))

/-- Every precision fits a word. -/
theorem two_pow_bits_le (p : Precision) : 2 ^ p.bits ≤ 2 ^ 64 :=
  Nat.pow_le_pow_right (by omega) (by cases p <;> decide)

/-- A residue has a multiplier. -/
theorem of?_of_lt {w : Word} (hw : w < q) : of? p.bits q w = some (ofResidue p q w) := by
  simp only [of?, Precision.ofBits?_bits, Option.bind_eq_bind, Option.bind_some, if_pos hw]

/-- The multiplier that is computed for a residue is proper: its quotient fits a word. -/
theorem proper_ofResidue {w : Word} (hw : w.toNat < q.toNat) :
    (ofResidue p q w).Proper p q where
  value_lt := hw
  toNat_quotient := by
    have h := (quotient_lt hw p).trans_le (two_pow_bits_le p)
    simp only [ofResidue, UInt64.toNat_ofNat', Nat.shiftLeft_eq]
    exact Nat.mod_eq_of_lt h

/-- The multiplier that is read past the end of a table is a proper one. -/
theorem proper_default (p : Precision) (hq : 0 < q.toNat) : (default : Multiplier).Proper p q where
  value_lt := hq
  toNat_quotient := by
    change 0 = 0 * 2 ^ p.bits / q.toNat
    rw [Nat.zero_mul, Nat.zero_div]

namespace Proper

variable {m : Multiplier}

/-- A proper multiplier is the one that is made for its value. -/
theorem of?_eq (hm : m.Proper p q) : Multiplier.of? p.bits q m.value = some m := by
  have hquotient : (ofResidue p q m.value).quotient = m.quotient := by
    apply UInt64.toNat_inj.1
    rw [(proper_ofResidue hm.value_lt).toNat_quotient, hm.toNat_quotient]
    rfl
  rw [of?_of_lt (UInt64.lt_iff_toNat_lt.2 hm.value_lt), Option.some_inj]
  calc ofResidue p q m.value = ⟨m.value, (ofResidue p q m.value).quotient⟩ := rfl
    _ = m := by rw [hquotient]

/-- A modulus with a multiplier is positive. -/
theorem modulus_pos (hm : m.Proper p q) : 0 < q.toNat :=
  hm.value_lt.pos

/-- The lazy product as a natural number: the exact product less the estimated multiple of `q`. -/
theorem toNat_mulLazy (hm : m.Proper p q) (hq : q.toNat ≤ 2 ^ 63) {x : Word}
    (hx : x.toNat < 2 ^ p.bits) :
    (m.mulLazy p q x).toNat = m.value.toNat * x.toNat -
      m.value.toNat * 2 ^ p.bits / q.toNat * x.toNat / 2 ^ p.bits * q.toNat := by
  have hle := nestedFloor_mul_le m.value.toNat x.toNat (q := q.toNat) (Nat.two_pow_pos p.bits)
  have hlt := lt_nestedFloor_mul_add m.value.toNat hm.modulus_pos (Nat.two_pow_pos p.bits) hx.le
  simp only [Multiplier.mulLazy, Word.mulLazy, UInt64.toNat_sub, UInt64.toNat_mul,
    Word.toNat_mulHigh, hm.toNat_quotient]
  generalize m.value.toNat * 2 ^ p.bits / q.toNat * x.toNat / 2 ^ p.bits = e at hle hlt ⊢
  rw [Nat.mod_mul_mod]
  generalize e * q.toNat = u at hle hlt ⊢
  generalize m.value.toNat * x.toNat = v at hle hlt ⊢
  omega

/-- The lazy product is what the estimated quotient leaves of the exact product. Both products wrap;
their difference is below `2 * q`, which fits, so it does not. -/
theorem leaves_mulLazy (hm : m.Proper p q) (hq : q.toNat ≤ 2 ^ 63) {x : Word}
    (hx : x.toNat < 2 ^ p.bits) :
    Leaves q (m.value.toNat * x.toNat) (m.quotient.toNat * x.toNat / 2 ^ p.bits)
      (m.mulLazy p q x) := by
  rw [hm.toNat_quotient]
  exact leaves_of_estimate (hm.toNat_mulLazy hq hx)
    (nestedFloor_mul_le m.value.toNat x.toNat (Nat.two_pow_pos p.bits))
    (lt_nestedFloor_mul_add m.value.toNat hm.modulus_pos (Nat.two_pow_pos p.bits) hx.le)

/-- A lazy product is below twice the modulus. -/
theorem toNat_mulLazy_lt (hm : m.Proper p q) (hq : q.toNat ≤ 2 ^ 63) {x : Word}
    (hx : x.toNat < 2 ^ p.bits) : (m.mulLazy p q x).toNat < 2 * q.toNat :=
  (hm.leaves_mulLazy hq hx).lt_twice

/-- A lazy product is in the class of the product. -/
theorem residue_mulLazy (hm : m.Proper p q) (hq : q.toNat ≤ 2 ^ 63) {x : Word}
    (hx : x.toNat < 2 ^ p.bits) :
    residue q (m.mulLazy p q x) = residue q m.value * residue q x :=
  (hm.leaves_mulLazy hq hx).residue_eq.trans (Nat.cast_mul _ _)

end Proper

end Multiplier

/-! ### Reciprocals -/

namespace Word

variable {q : Word}

/-- The reciprocal of a modulus above 1 is not cut. -/
theorem toNat_reciprocal (hq : 1 < q.toNat) : (reciprocal q).toNat = 2 ^ 64 / q.toNat := by
  have h := (Multiplier.proper_ofResidue (p := .bits64) (w := 1) hq).toNat_quotient
  refine h.trans ?_
  change 1 * 2 ^ 64 / q.toNat = _
  rw [Nat.one_mul]

/-- The nested floor at 1: the estimated quotient of a word is the quotient or one less. -/
theorem barrett_estimate (hq : 0 < q.toNat) (x : Word) :
    x.toNat * (2 ^ 64 / q.toNat) / 2 ^ 64 * q.toNat ≤ x.toNat ∧
      x.toNat < x.toNat * (2 ^ 64 / q.toNat) / 2 ^ 64 * q.toNat + 2 * q.toNat := by
  have hle := nestedFloor_mul_le 1 x.toNat (q := q.toNat) (Nat.two_pow_pos 64)
  have hlt := lt_nestedFloor_mul_add 1 hq (Nat.two_pow_pos 64) x.toNat_lt.le
  simp only [Nat.one_mul] at hle hlt
  rw [Nat.mul_comm _ x.toNat] at hle hlt
  exact ⟨hle, hlt⟩

/-- The lazy remainder of any word as a natural number: the word less the estimated multiple of
`q`. -/
theorem toNat_barrettLazy (hq : 1 < q.toNat) (x : Word) :
    (barrettLazy x (reciprocal q) q).toNat =
      x.toNat - x.toNat * (2 ^ 64 / q.toNat) / 2 ^ 64 * q.toNat := by
  have hle := (barrett_estimate (Nat.zero_lt_of_lt hq) x).1
  have hx := x.toNat_lt
  simp only [barrettLazy, UInt64.toNat_sub, UInt64.toNat_mul, toNat_mulHigh, toNat_reciprocal hq]
  change (2 ^ 64 - x.toNat * (2 ^ 64 / q.toNat) / 2 ^ 64 % 2 ^ 64 * q.toNat % 2 ^ 64 + x.toNat) %
    2 ^ 64 = _
  rw [Nat.mod_mul_mod]
  generalize x.toNat * (2 ^ 64 / q.toNat) / 2 ^ 64 * q.toNat = u at hle ⊢
  omega

/-- The lazy reduction is what the estimated quotient leaves of the word, for every word and every
modulus above 1. -/
theorem leaves_barrettLazy (hq : 1 < q.toNat) (x : Word) :
    Leaves q x.toNat (x.toNat * (reciprocal q).toNat / 2 ^ 64)
      (barrettLazy x (reciprocal q) q) := by
  obtain ⟨hle, hlt⟩ := barrett_estimate (Nat.zero_lt_of_lt hq) x
  rw [toNat_reciprocal hq]
  exact leaves_of_estimate (toNat_barrettLazy hq x) hle hlt

/-- A lazy remainder is below twice the modulus. -/
theorem toNat_barrettLazy_lt (hq : 1 < q.toNat) (x : Word) :
    (barrettLazy x (reciprocal q) q).toNat < 2 * q.toNat :=
  (leaves_barrettLazy hq x).lt_twice

/-- A lazy remainder is in the class of the word. -/
theorem residue_barrettLazy (hq : 1 < q.toNat) (x : Word) :
    residue q (barrettLazy x (reciprocal q) q) = residue q x :=
  (leaves_barrettLazy hq x).residue_eq

end Word

/-! ### Both reductions -/

/-- The two lazy reductions, which wrap on the way, are exact. For a modulus up to `2^63` every
residue has a multiplier at every precision `p`, and its lazy product with a word below `2^p` is
the integer that the estimated multiples of the modulus leave of the exact product. For every
modulus the lazy remainder of every word is what they leave of the word. -/
theorem lazy_exact {q : Word} (hone : 1 < q.toNat) :
    (q.toNat ≤ 2 ^ 63 → ∀ (p : Precision) (w : Word), w < q →
      ∃ m, Multiplier.of? p.bits q w = some m ∧ m.value = w ∧
        m.quotient.toNat = w.toNat * 2 ^ p.bits / q.toNat ∧
        ∀ x : Word, x.toNat < 2 ^ p.bits →
          Leaves q (w.toNat * x.toNat) (m.quotient.toNat * x.toNat / 2 ^ p.bits)
            (Word.mulLazy p x w m.quotient q)) ∧
    (Word.reciprocal q).toNat = 2 ^ 64 / q.toNat ∧
      ∀ x : Word, Leaves q x.toNat (x.toNat * (Word.reciprocal q).toNat / 2 ^ 64)
        (Word.barrettLazy x (Word.reciprocal q) q) := by
  refine ⟨fun hq p w hw => ?_, Word.toNat_reciprocal hone, Word.leaves_barrettLazy hone⟩
  have hm := Multiplier.proper_ofResidue (p := p) (UInt64.lt_iff_toNat_lt.1 hw)
  exact ⟨_, Multiplier.of?_of_lt hw, rfl, hm.toNat_quotient, fun _ hx => hm.leaves_mulLazy hq hx⟩

/-- The greatest modulus, residue and operand of a lazy product, and a lazy remainder that is the
modulus itself. -/
theorem lazy_exact_greatest :
    let q : Word := 9223372036854775808
    let w : Word := 9223372036854775807
    let x : Word := 18446744073709551615
    1 < q.toNat ∧ q.toNat ≤ 2 ^ 63 ∧ w < q ∧ x.toNat < 2 ^ 64 ∧
      (∃ m, Multiplier.of? 64 q w = some m ∧ Leaves q (w.toNat * x.toNat)
        (m.quotient.toNat * x.toNat / 2 ^ 64) (Word.mulLazy .bits64 x w m.quotient q)) ∧
      1 < (3 : Word).toNat ∧ (Word.barrettLazy x (Word.reciprocal 3) 3).toNat = 3 := by
  intro q w x
  have hq : 1 < q.toNat := by decide
  have htop : q.toNat ≤ 2 ^ 63 := by decide
  have hw : w < q := by decide
  have hx : x.toNat < 2 ^ 64 := by decide
  have hthree : 1 < (3 : Word).toNat := by decide
  obtain ⟨m, hm, -, -, hleaves⟩ := (lazy_exact hq).1 htop .bits64 w hw
  obtain ⟨-, hreciprocal, hremainder⟩ := lazy_exact hthree
  have hvalue := (hremainder x).toInt_eq
  rw [hreciprocal] at hvalue
  exact ⟨hq, htop, hw, hx, ⟨m, hm, hleaves x hx⟩, hthree,
    Int.natCast_inj.1 (hvalue.trans (by decide))⟩

end Negacyclic
