import Negacyclic.Kernel.Conditional
import Negacyclic.Kernel.Product
import Negacyclic.Kernel.Sum
import Negacyclic.Proofs.Kernel.Run
import Negacyclic.Proofs.Transform.Butterfly

/-!
# The value of a kernel on one element

What the rules of the sums, the differences and the products with a word come to on words in the
range that is asked for, as natural numbers: the exact sum, difference or product, reduced. A sum
of two residues does not wrap; a difference wraps where it would be negative, and the modulus that
is added back wraps it a second time. For the sum with a scalar the comparison comes before the
sum. The product goes through a lazy product, which one conditional subtraction reduces. So does a
conditional difference, by the lazy remainder of any word, and then takes the difference of a
residue.
-/

namespace Negacyclic.Kernel

variable {q x : Word}

/-! ### Sums and differences -/

/-- The remainder of a difference to which the modulus was added. -/
theorem natCast_sub_mod {x y m : ℕ} (h : y ≤ m) :
    (((x + (m - y)) % m : ℕ) : ℤ) = ((x : ℤ) - y) % m := by
  rw [Int.natCast_mod, show ((x + (m - y) : ℕ) : ℤ) = (x : ℤ) - y + m by omega,
    Int.add_emod_right]

/-- The modulus is added to the difference before it is reduced, so that it is not negative. -/
theorem toNat_subTerm {n : ℕ} {env : Vector Word n} {x y : Term n}
    (hx : (x.evalWord env).toNat < q.toNat) (hy : (y.evalWord env).toNat < q.toNat) :
    ((subTerm q x y).evalWord env).toNat =
      ((x.evalWord env).toNat + (q.toNat - (y.evalWord env).toNat)) % q.toNat := by
  have hvalue : (subTerm q x y).evalWord env =
      if Comparison.ge.holds (x.evalWord env) (y.evalWord env) then x.evalWord env - y.evalWord env
      else x.evalWord env - y.evalWord env + q := rfl
  generalize x.evalWord env = x at hx hvalue ⊢
  generalize y.evalWord env = y at hy hvalue ⊢
  simp only [Comparison.holds, decide_eq_true_eq] at hvalue
  rw [hvalue]
  split_ifs with h
  · have hle := UInt64.le_iff_toNat_le.1 h
    rw [UInt64.toNat_sub_of_le _ _ h,
      show x.toNat + (q.toNat - y.toNat) = x.toNat - y.toNat + q.toNat by omega,
      Nat.add_mod_right, Nat.mod_eq_of_lt (by omega)]
  · have hlt : x.toNat < y.toNat := UInt64.lt_iff_toNat_lt.1 (UInt64.not_le.1 h)
    have hword := q.toNat_lt
    rw [Nat.mod_eq_of_lt (show x.toNat + (q.toNat - y.toNat) < q.toNat by omega),
      UInt64.toNat_add, UInt64.toNat_sub]
    omega

section binary

variable {env : Vector Word 2}

/-- The sum of two residues is reduced by one comparison. It fits a word because the modulus is at
most `2^63`. -/
theorem toNat_add_word (hq : q.toNat ≤ 2 ^ 63) (hx : (env.get first).toNat < q.toNat)
    (hy : (env.get second).toNat < q.toNat) :
    ((add q).rule.evalWord env).toNat =
      ((env.get first).toNat + (env.get second).toNat) % q.toNat := by
  change (Word.reduceOnce (env.get first + env.get second) q).toNat = _
  have hsum := toNat_add_of_lt (x := env.get first) (y := env.get second) (by omega)
  rw [toNat_reduceOnce_eq_mod (by omega), hsum]

/-- The difference of two residues is reduced; where it would be negative the modulus is added
back. -/
theorem toNat_sub_word (hx : (env.get first).toNat < q.toNat)
    (hy : (env.get second).toNat < q.toNat) :
    ((sub q).rule.evalWord env).toNat =
      ((env.get first).toNat + (q.toNat - (env.get second).toNat)) % q.toNat :=
  toNat_subTerm (x := .input first) (y := .input second) hx hy

end binary

section scalar

variable {s : Word} {env : Vector Word 1}

/-- The element is compared with `q - s`, which is `q` itself if `s` is zero and then above every
residue. -/
theorem toNat_addScalar_word (hq : q.toNat ≤ 2 ^ 63) (hs : s.toNat < q.toNat)
    (hx : (env.get only).toNat < q.toNat) :
    ((addScalar q s).rule.evalWord env).toNat =
      ((env.get only).toNat + s.toNat) % q.toNat := by
  have hvalue : (addScalar q s).rule.evalWord env =
      if Comparison.ge.holds (env.get only) (q - s) then env.get only - (q - s)
      else env.get only + s := rfl
  have hgap : (q - s).toNat = q.toNat - s.toNat :=
    UInt64.toNat_sub_of_le _ _ (UInt64.le_iff_toNat_le.2 hs.le)
  generalize env.get only = x at hx hvalue ⊢
  simp only [Comparison.holds, decide_eq_true_eq] at hvalue
  rw [hvalue]
  split_ifs with h
  · have hle := UInt64.le_iff_toNat_le.1 h
    rw [UInt64.toNat_sub_of_le _ _ h, hgap,
      show x.toNat + s.toNat = x.toNat - (q.toNat - s.toNat) + q.toNat by omega,
      Nat.add_mod_right, Nat.mod_eq_of_lt (by omega)]
  · have hlt := UInt64.lt_iff_toNat_lt.1 (UInt64.not_le.1 h)
    rw [toNat_add_of_lt (by omega), Nat.mod_eq_of_lt (by omega)]

/-- The difference with a scalar is the difference with this word in the second array. -/
theorem toNat_subScalar_word (hs : s.toNat < q.toNat) (hx : (env.get only).toNat < q.toNat) :
    ((subScalar q s).rule.evalWord env).toNat =
      ((env.get only).toNat + (q.toNat - s.toNat)) % q.toNat :=
  toNat_subTerm (x := .input only) (y := .word s) hx hs

end scalar

/-! ### Products with a word -/

/-- A lazy product is reduced by one conditional subtraction. -/
theorem toNat_reduceOnce_mulLazy {p : Precision} {m : Multiplier} (hm : m.Proper p q)
    (hq : q.toNat ≤ 2 ^ 63) (hx : x.toNat < 2 ^ p.bits) :
    (Word.reduceOnce (m.mulLazy p q x) q).toNat = x.toNat * m.value.toNat % q.toNat := by
  rw [(hm.leaves_mulLazy hq hx).toNat_reduceOnce, mul_comm]

section factor

variable {n : ℕ} {factor : Word} {env : Vector Word n} {t : Term n}

/-- An input below `factor * q` is reduced. -/
theorem toNat_reduceInput (hq : q.toNat < 2 ^ 62) (hfactor : factor ∈ productFactors)
    (ht : (t.evalWord env).toNat < factor.toNat * q.toNat) :
    ((reduceInput q factor t).evalWord env).toNat = (t.evalWord env).toNat % q.toNat := by
  simp only [productFactors, List.mem_cons, List.not_mem_nil, or_false] at hfactor
  rcases hfactor with rfl | rfl | rfl
  · rw [show (1 : Word).toNat = 1 from rfl, Nat.one_mul] at ht
    exact (Nat.mod_eq_of_lt ht).symm
  · exact toNat_reduceOnce_eq_mod ht
  · exact Butterfly.toNat_settle (p := .bits64) hq ht

/-- The product of an input below `factor * q` with a word. -/
theorem toNat_scaleTerm (hone : 1 < q.toNat) (hq : q.toNat < 2 ^ 62)
    (hfactor : factor ∈ productFactors) (s : Word)
    (ht : (t.evalWord env).toNat < factor.toNat * q.toNat) :
    ((scaleTerm q s factor t).evalWord env).toNat =
      (t.evalWord env).toNat * s.toNat % q.toNat := by
  have hs : (s % q).toNat < q.toNat := by
    rw [UInt64.toNat_mod]
    exact Nat.mod_lt _ (by omega)
  have hvalue := toNat_reduceOnce_mulLazy (p := .bits64) (Multiplier.proper_ofResidue hs)
    (by omega) ((reduceInput q factor t).evalWord env).toNat_lt
  refine hvalue.trans ?_
  change _ * (s % q).toNat % q.toNat = _
  rw [toNat_reduceInput hq hfactor ht, UInt64.toNat_mod, ← Nat.mul_mod]

/-- The product with a word is exact for operands below `factor * q`: the operand is brought below
`q` first, and the lazy product of a residue is below `2 * q`. -/
theorem toNat_scale_word {env : Vector Word 1} (hone : 1 < q.toNat) (hq : q.toNat < 2 ^ 62)
    (hfactor : factor ∈ productFactors) (s : Word)
    (hx : (env.get only).toNat < factor.toNat * q.toNat) :
    ((scale q s factor).rule.evalWord env).toNat =
      (env.get only).toNat * s.toNat % q.toNat :=
  toNat_scaleTerm (t := .input only) hone hq hfactor s hx

/-- The product of an input with a word and the sum with another input, all below `factor * q`. -/
theorem toNat_scaleAdd_word {env : Vector Word 2} (hone : 1 < q.toNat) (hq : q.toNat < 2 ^ 62)
    (hfactor : factor ∈ productFactors) (s : Word)
    (hx : (env.get first).toNat < factor.toNat * q.toNat)
    (hy : (env.get second).toNat < factor.toNat * q.toNat) :
    ((scaleAdd q s factor).rule.evalWord env).toNat =
      ((env.get first).toNat * s.toNat + (env.get second).toNat) % q.toNat := by
  have hproduct := toNat_scaleTerm (t := .input first) hone hq hfactor s hx
  have haddend := toNat_reduceInput (t := .input second) hq hfactor hy
  have hpos : 0 < q.toNat := by omega
  have hproductLt := hproduct.trans_lt (Nat.mod_lt _ hpos)
  have haddendLt := haddend.trans_lt (Nat.mod_lt _ hpos)
  have hsum := toNat_add_of_lt (x := (scaleTerm q s factor (.input first)).evalWord env)
    (y := (reduceInput q factor (.input second)).evalWord env) (by omega)
  change (Word.reduceOnce ((scaleTerm q s factor (.input first)).evalWord env +
    (reduceInput q factor (.input second)).evalWord env) q).toNat = _
  rw [toNat_reduceOnce_eq_mod (by omega), hsum, hproduct, haddend, ← Nat.add_mod]
  rfl

end factor

/-! ### Conditional differences -/

/-- The comparison is with the word as it was given, the difference is taken of its remainder. -/
theorem toNat_subWhere_word {diff : Word} (hone : 1 < q.toNat) (hdiff : diff.toNat < q.toNat)
    (c : Comparison) (bound : Word) (env : Vector Word 1) :
    ((subWhere q c bound diff).rule.evalWord env).toNat =
      (if c.holds (env.get only) bound then (env.get only).toNat + (q.toNat - diff.toNat)
        else (env.get only).toNat) % q.toNat := by
  set r := Word.reduceOnce (Word.barrettLazy (env.get only) (Word.reciprocal q) q) q
  have hr : r.toNat = (env.get only).toNat % q.toNat :=
    (Word.leaves_barrettLazy hone _).toNat_reduceOnce
  have hlt : r.toNat < q.toNat := hr.trans_lt (Nat.mod_lt _ (Nat.zero_lt_of_lt hone))
  have hinput : (Term.input first).evalWord (env.push r) = env.get only :=
    Vector.getElem_push_lt (i := 0) (by decide)
  have hresidue : (Term.input second).evalWord (env.push r) = r := Vector.getElem_push_eq
  have hvalue : (subWhere q c bound diff).rule.evalWord env =
      if c.holds ((Term.input first).evalWord (env.push r)) bound then
        (subTerm q (.input second) (.word diff)).evalWord (env.push r)
      else (Term.input second).evalWord (env.push r) := rfl
  have hresidueLt : ((Term.input second).evalWord (env.push r)).toNat < q.toNat := by
    rwa [hresidue]
  have hsub := toNat_subTerm (y := .word diff) hresidueLt hdiff
  rw [hresidue, hr, Nat.mod_add_mod] at hsub
  rw [hvalue, hinput]
  split_ifs
  · exact hsub
  · rw [hresidue, hr]

end Negacyclic.Kernel
