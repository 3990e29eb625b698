import Negacyclic.Proofs.Residue.Lazy
import Negacyclic.Transform.Butterfly

/-!
# Ranges and classes of butterflies

A modulus with two spare bits at the precision (`Spacious p q`) has `4 * q` below the scale and
within a word. So a forward butterfly keeps words below `4 * q` and an inverse one words below
`2 * q`: none of their sums and differences wraps, and the lazy product gets an operand below the
scale. What they compute modulo `q` is then read off the classes of the operations.
-/

namespace Negacyclic

/-- The modulus leaves two spare bits at the precision. -/
def Spacious (p : Precision) (q : Word) : Prop :=
  q.toNat < 2 ^ (p.bits - 2)

namespace Spacious

variable {p : Precision} {q : Word}

/-- Four times the modulus has room below the precision. -/
theorem four_mul_lt (h : Spacious p q) : 4 * q.toNat < 2 ^ p.bits := by
  have hbits : (2 : ℕ) ^ p.bits = 4 * 2 ^ (p.bits - 2) := by cases p <;> rfl
  unfold Spacious at h
  omega

/-- At every precision the modulus is below `2^62`, so four times it is a word. -/
theorem lt_two_pow (h : Spacious p q) : q.toNat < 2 ^ 62 := by
  have := h.four_mul_lt
  have := Multiplier.two_pow_bits_le p
  omega

/-- Twice the modulus does not wrap. -/
theorem toNat_twice (h : Spacious p q) : (2 * q).toNat = 2 * q.toNat := by
  have := h.lt_two_pow
  exact Negacyclic.toNat_twice (by omega)

/-- Twice the modulus is in the class of zero. -/
theorem residue_twice (h : Spacious p q) : residue q (2 * q) = 0 := by
  have := h.lt_two_pow
  exact Negacyclic.residue_twice (by omega)

/-- A word below `4 * q` comes below `2 * q` by one conditional subtraction. -/
theorem toNat_reduceOnce_twice_lt (h : Spacious p q) {x : Word} (hx : x.toNat < 4 * q.toNat) :
    (Word.reduceOnce x (2 * q)).toNat < 2 * q.toNat := by
  rw [← h.toNat_twice]
  apply toNat_reduceOnce_lt
  rw [h.toNat_twice]
  omega

/-- A conditional subtraction of twice the modulus keeps the class. -/
theorem residue_reduceOnce_twice (h : Spacious p q) (x : Word) :
    residue q (Word.reduceOnce x (2 * q)) = residue q x :=
  residue_reduceOnce h.residue_twice

end Spacious

namespace Butterfly

variable {p : Precision} {q : Word} {w : Multiplier} {x y : Word}

/-! ### The sum and the lifted difference -/

/-- The sum of two words below `2 * q` does not wrap. -/
theorem toNat_add_of_lt_twice (hq : Spacious p q) (hx : x.toNat < 2 * q.toNat)
    (hy : y.toNat < 2 * q.toNat) : (x + y).toNat = x.toNat + y.toNat := by
  have := hq.lt_two_pow
  exact toNat_add_of_lt (by omega)

/-- The difference of two words below `2 * q`, lifted by `2 * q`, does not wrap. -/
theorem toNat_lift_sub (hq : Spacious p q) (hx : x.toNat < 2 * q.toNat)
    (hy : y.toNat < 2 * q.toNat) :
    (x + 2 * q - y).toNat = x.toNat + 2 * q.toNat - y.toNat := by
  have hlt := hq.lt_two_pow
  have hadd : (x + 2 * q).toNat = x.toNat + 2 * q.toNat := by
    rw [toNat_add_of_lt, hq.toNat_twice]
    rw [hq.toNat_twice]
    omega
  rw [UInt64.toNat_sub_of_le, hadd]
  rw [UInt64.le_iff_toNat_le, hadd]
  omega

/-- Two words below `2 * q` are added without wrapping. -/
theorem residue_add_of_lt_twice (hq : Spacious p q) (hx : x.toNat < 2 * q.toNat)
    (hy : y.toNat < 2 * q.toNat) : residue q (x + y) = residue q x + residue q y := by
  have := hq.lt_two_pow
  exact residue_add (by omega)

/-- A difference that is lifted by twice the modulus does not go below zero, and is in the class of
the difference. -/
theorem residue_lift_sub (hq : Spacious p q) (hx : x.toNat < 2 * q.toNat)
    (hy : y.toNat < 2 * q.toNat) : residue q (x + 2 * q - y) = residue q x - residue q y := by
  rw [residue, toNat_lift_sub hq hx hy, Nat.cast_sub (by omega), Nat.cast_add, Nat.cast_mul,
    ZMod.natCast_self, mul_zero, add_zero, residue, residue]

/-- A lazy product of a word below `4 * q`. -/
theorem mulLazy_of_lt (hq : Spacious p q) (hw : w.Proper p q) (hx : x.toNat < 4 * q.toNat) :
    (w.mulLazy p q x).toNat < 2 * q.toNat ∧
      residue q (w.mulLazy p q x) = residue q w.value * residue q x := by
  have h62 := hq.lt_two_pow
  have hscale := hq.four_mul_lt
  exact ⟨hw.toNat_mulLazy_lt (by omega) (by omega), hw.residue_mulLazy (by omega) (by omega)⟩

/-! ### Forward -/

/-- The forward butterfly takes words below `4 * q` to such words. The first is brought below `2 *
q` before the sum, the product with the multiplier is below `2 * q` by itself. -/
theorem toNat_forward_lt (hq : Spacious p q) (hw : w.Proper p q) (hx : x.toNat < 4 * q.toNat)
    (hy : y.toNat < 4 * q.toNat) :
    (forward p q w x y).1.toNat < 4 * q.toNat ∧ (forward p q w x y).2.toNat < 4 * q.toNat := by
  have hx' := hq.toNat_reduceOnce_twice_lt hx
  have ht := (mulLazy_of_lt hq hw hy).1
  simp only [forward, toNat_add_of_lt_twice hq hx' ht, toNat_lift_sub hq hx' ht]
  omega

/-- The forward butterfly computes `x + w * y` and `x - w * y` modulo `q`. -/
theorem residue_forward (hq : Spacious p q) (hw : w.Proper p q) (hx : x.toNat < 4 * q.toNat)
    (hy : y.toNat < 4 * q.toNat) :
    residue q (forward p q w x y).1 = residue q x + residue q w.value * residue q y ∧
      residue q (forward p q w x y).2 = residue q x - residue q w.value * residue q y := by
  have hx' := hq.toNat_reduceOnce_twice_lt hx
  obtain ⟨ht, htr⟩ := mulLazy_of_lt hq hw hy
  simp only [forward, residue_add_of_lt_twice hq hx' ht, residue_lift_sub hq hx' ht, htr,
    hq.residue_reduceOnce_twice, and_self]

/-- A word below `4 * q` is reduced by two conditional subtractions. -/
theorem toNat_settle (hq : Spacious p q) (hx : x.toNat < 4 * q.toNat) :
    (settle q x).toNat = x.toNat % q.toNat := by
  have hx' := hq.toNat_reduceOnce_twice_lt hx
  unfold settle
  rw [toNat_reduceOnce_eq_mod hx', ← residue_eq_residue_iff]
  exact hq.residue_reduceOnce_twice x

/-! ### Inverse -/

/-- The inverse butterfly takes words below `2 * q` to such words. -/
theorem toNat_inverse_lt (hq : Spacious p q) (hw : w.Proper p q) (hx : x.toNat < 2 * q.toNat)
    (hy : y.toNat < 2 * q.toNat) :
    (inverse p q w x y).1.toNat < 2 * q.toNat ∧ (inverse p q w x y).2.toNat < 2 * q.toNat := by
  have hsum : (x + y).toNat < 4 * q.toNat := by
    rw [toNat_add_of_lt_twice hq hx hy]
    omega
  have hdiff : (x + 2 * q - y).toNat < 4 * q.toNat := by
    rw [toNat_lift_sub hq hx hy]
    omega
  exact ⟨hq.toNat_reduceOnce_twice_lt hsum, (mulLazy_of_lt hq hw hdiff).1⟩

/-- The inverse butterfly computes `x + y` and `w * (x - y)` modulo `q`. -/
theorem residue_inverse (hq : Spacious p q) (hw : w.Proper p q) (hx : x.toNat < 2 * q.toNat)
    (hy : y.toNat < 2 * q.toNat) :
    residue q (inverse p q w x y).1 = residue q x + residue q y ∧
      residue q (inverse p q w x y).2 = residue q w.value * (residue q x - residue q y) := by
  have hdiff : (x + 2 * q - y).toNat < 4 * q.toNat := by
    rw [toNat_lift_sub hq hx hy]
    omega
  rw [← residue_add_of_lt_twice hq hx hy, ← residue_lift_sub hq hx hy]
  exact ⟨hq.residue_reduceOnce_twice _, (mulLazy_of_lt hq hw hdiff).2⟩

section final

variable {s d : Multiplier}

/-- The two lazy products of the last inverse butterfly. -/
theorem final_eq (p : Precision) (q : Word) (s d : Multiplier) (full : Bool) (x y : Word) :
    final p q s d full x y =
      if full then
        (Word.reduceOnce (s.mulLazy p q (Word.reduceOnce (x + y) (2 * q))) q,
          Word.reduceOnce (d.mulLazy p q (x + 2 * q - y)) q)
      else
        (s.mulLazy p q (Word.reduceOnce (x + y) (2 * q)), d.mulLazy p q (x + 2 * q - y)) :=
  rfl

/-- The last inverse butterfly leaves words below `2 * q`, or residues if `full`. -/
theorem toNat_final_lt (hq : Spacious p q) (hs : s.Proper p q) (hd : d.Proper p q) (full : Bool)
    (hx : x.toNat < 2 * q.toNat) (hy : y.toNat < 2 * q.toNat) :
    (final p q s d full x y).1.toNat < (if full then 1 else 2) * q.toNat ∧
      (final p q s d full x y).2.toNat < (if full then 1 else 2) * q.toNat := by
  obtain ⟨hsum, hdiff⟩ := toNat_inverse_lt hq hd hx hy
  have hsum' := (mulLazy_of_lt hq hs (x := (inverse p q d x y).1) (by omega)).1
  rw [final_eq]
  cases full with
  | true =>
      simp only [if_true, Nat.one_mul]
      exact ⟨toNat_reduceOnce_lt hsum', toNat_reduceOnce_lt hdiff⟩
  | false => exact ⟨hsum', hdiff⟩

/-- The last inverse butterfly computes `s * (x + y)` and `d * (x - y)` modulo `q`, so the scaling
by the degree comes with the layer. -/
theorem residue_final (hq : Spacious p q) (hs : s.Proper p q) (hd : d.Proper p q) (full : Bool)
    (hx : x.toNat < 2 * q.toNat) (hy : y.toNat < 2 * q.toNat) :
    residue q (final p q s d full x y).1 = residue q s.value * (residue q x + residue q y) ∧
      residue q (final p q s d full x y).2 =
        residue q d.value * (residue q x - residue q y) := by
  obtain ⟨hsum, -⟩ := toNat_inverse_lt hq hd hx hy
  obtain ⟨hsumr, hdiffr⟩ := residue_inverse hq hd hx hy
  have hsum' := (mulLazy_of_lt hq hs (x := (inverse p q d x y).1) (by omega)).2
  rw [hsumr] at hsum'
  rw [final_eq]
  cases full with
  | true =>
      simp only [if_true, residue_reduceOnce residue_self]
      exact ⟨hsum', hdiffr⟩
  | false => exact ⟨hsum', hdiffr⟩

end final

/-! ### On registers -/

section lanes

variable {L : ℕ} {R : Lanes L} {i : ℕ}

/-- The multiplier in one lane. -/
def Multipliers.lane (w : Multipliers L) (i : ℕ) (h : i < L) : Multiplier :=
  ⟨w.values[i], w.quotients[i]⟩

/-- A multiplier in all lanes is found in each. -/
@[simp] theorem lane_splat (law : R.Lawful) (w : Multiplier) (h : i < L) :
    (splat R w).lane i h = w := by
  simp [Multipliers.lane, splat, law.getElem_splat]

/-- A lane of multipliers that are loaded is the entry at its place. -/
@[simp] theorem lane_loadMultipliers (table : Array Multiplier) (pos : ℕ) (h : i < L) :
    (loadMultipliers L table pos).lane i h = table.getD (pos + i) default := by
  simp [Multipliers.lane, loadMultipliers]

/-- The butterfly `F` on registers does in every lane what `f` does on words. -/
def Lanewise (F : Multipliers L → Register L → Register L → Register L × Register L)
    (f : Multiplier → Word → Word → Word × Word) : Prop :=
  ∀ (w : Multipliers L) (x y : Register L) (i : ℕ) (h : i < L),
    ((F w x y).1[i], (F w x y).2[i]) = f (w.lane i h) x[i] y[i]

/-- On a lawful machine the forward butterfly of registers is that of words in each lane. -/
theorem lanewise_forward (law : R.Lawful) (p : Precision) (q : Word) :
    Lanewise (forwardLanes R p q) (forward p q) := by
  intro w x y i h
  simp [forwardLanes, forward, Multipliers.lane, Multiplier.mulLazy, law.getElem_add,
    law.getElem_sub, law.getElem_splat, law.getElem_reduceOnce, law.getElem_mulLazy]

/-- On a lawful machine the inverse butterfly of registers is that of words in each lane. -/
theorem lanewise_inverse (law : R.Lawful) (p : Precision) (q : Word) :
    Lanewise (inverseLanes R p q) (inverse p q) := by
  intro w x y i h
  simp [inverseLanes, inverse, Multipliers.lane, Multiplier.mulLazy, law.getElem_add,
    law.getElem_sub, law.getElem_splat, law.getElem_reduceOnce, law.getElem_mulLazy]

/-- On a lawful machine the last inverse butterfly of registers is that of words in each lane. -/
theorem lanewise_final (law : R.Lawful) (p : Precision) (q : Word) (s d : Multiplier)
    (full : Bool) :
    Lanewise (fun _ => finalLanes R p q s d full) (fun _ => final p q s d full) := by
  intro w x y i h
  cases full <;>
    simp [finalLanes, final, splat, Multiplier.mulLazy, law.getElem_add, law.getElem_sub,
      law.getElem_splat, law.getElem_reduceOnce, law.getElem_mulLazy]

/-- On a lawful machine registers are settled lane by lane as words are. -/
theorem getElem_settleLanes (law : R.Lawful) (x : Register L) (h : i < L) :
    (settleLanes R q x)[i] = settle q x[i] := by
  simp [settleLanes, settle, law.getElem_reduceOnce, law.getElem_splat]

end lanes

end Butterfly

end Negacyclic
