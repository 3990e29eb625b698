import Negacyclic.Proofs.Kernel.Range
import Negacyclic.Proofs.Validation

/-!
# What the kernels leave

The words that a kernel leaves are exact remainders of what it is said to compute, for every
modulus and every operand that it accepts.

* The sum and the difference of two arrays leave `a + b mod q` and `a - b mod q`, with a scalar the
  words that the array with this word throughout leaves, and each takes the other back
  (`Operation.sums_exact`). Every one of these comes to a sum or to `x + (q - y)`, reduced, so that
  an equation between two of them is one of natural numbers.
* The multiply-add leaves `a * s + c mod q`, or `a * s mod q` without an addend
  (`Operation.multiplyAdd_exact`). Both operands are brought below `q` first, so that the sum of
  the two residues does not wrap.
* The product of two arrays leaves `a * b mod q` (`Operation.mul_exact`). It takes its operands as
  they are, and still leaves the words of the multiply-add where the two compute the same.
* A reduction leaves words below `output * q` in the classes of its operand
  (`Operation.reduce_exact`).
* The conditional difference leaves `x - diff mod q` or `x mod q`, as the word `x` itself compares
  with the bound (`Operation.subWhere_exact`).

Nothing here depends on the machine, or on whether the buffer is the operand itself.
-/

namespace Negacyclic

/-- On the operand `a` the operation succeeds with the words `y`, on every machine, in every buffer
of the size of `a` and in place. -/
def Operation.Gives (op : Operation) (a y : Array Word) : Prop :=
  ∀ backend, (op.into backend a).Writes a.size y ∧ (op.inPlace backend).runOn a = (.ok (), y)

namespace Operation

/-- The words that are left are known by their numbers. -/
theorem Gives.congr {op : Operation} {a y z : Array Word} {n : ℕ} (h : op.Gives a y)
    (hy : y.size = n) (hz : z.size = n) (hyz : ∀ i < n, (y.getD i 0).toNat = (z.getD i 0).toNat) :
    op.Gives a z :=
  ext_toNat hy hz hyz ▸ h

open Kernel

variable {q s factor : Word} {a : Array Word}

/-! ### Sums and differences -/

section residues

variable {b : Array Word} (hone : 1 < q.toNat) (hq : q.toNat < 2 ^ 63) (hne : a.size ≠ 0)
  (ha : ∀ x ∈ a, x.toNat < q.toNat)

include hone hq hne ha

/-- Two arrays of residues of one size meet the requirements of a sum and of a difference. -/
theorem residueRequirements_hold (hsize : b.size = a.size) (hb : ∀ x ∈ b, x.toNat < q.toNat) :
    ∀ r ∈ binaryRequirements q 63 1 a.size a b, r.Holds := by
  rw [← Nat.one_mul q.toNat] at ha hb
  exact binaryRequirements_hold hone hq (Nat.pos_of_ne_zero hne) (Represents.of_mem rfl ha)
    (Represents.of_mem hsize hb)

/-- An array of residues and one residue meet the requirements of an operation with a scalar. -/
theorem scalarRequirements_hold (hs : s.toNat < q.toNat) :
    ∀ r ∈ scalarRequirements q s a.size a, r.Holds := by
  simp only [scalarRequirements, List.forall_mem_cons, List.not_mem_nil, false_imp_iff,
    implies_true, and_true, Requirement.Holds]
  exact ⟨hne, trivial, ⟨hone, hq⟩, ha, hs⟩

/-- The words that the sum of two arrays leaves, as natural numbers. -/
theorem add_gives (hsize : b.size = a.size) (hb : ∀ x ∈ b, x.toNat < q.toNat) :
    ∃ y, (add q b).Gives a y ∧ y.size = a.size ∧ ∀ i < a.size,
      (y.getD i 0).toNat = ((a.getD i 0).toNat + (b.getD i 0).toNat) % q.toNat :=
  exists_gives_pair (Kernel.add q)
    (P := fun x y w => w.toNat = (x.toNat + y.toNat) % q.toNat) hsize
    (residueRequirements_hold hone hq hne ha hsize hb)
    fun _ hx hy => toNat_add_word hq.le (ha _ hx) (hb _ hy)

/-- The words that the difference of two arrays leaves. The subtrahend is taken from the modulus
first, so that no number on the right is negative. -/
theorem sub_gives (hsize : b.size = a.size) (hb : ∀ x ∈ b, x.toNat < q.toNat) :
    ∃ y, (sub q b).Gives a y ∧ y.size = a.size ∧ ∀ i < a.size,
      (y.getD i 0).toNat = ((a.getD i 0).toNat + (q.toNat - (b.getD i 0).toNat)) % q.toNat :=
  exists_gives_pair (Kernel.sub q)
    (P := fun x y w => w.toNat = (x.toNat + (q.toNat - y.toNat)) % q.toNat) hsize
    (residueRequirements_hold hone hq hne ha hsize hb)
    fun _ hx hy => toNat_sub_word (ha _ hx) (hb _ hy)

/-- The words that the sum with a scalar leaves. -/
theorem addScalar_gives (hs : s.toNat < q.toNat) :
    ∃ y, (addScalar q s).Gives a y ∧ y.size = a.size ∧ ∀ i < a.size,
      (y.getD i 0).toNat = ((a.getD i 0).toNat + s.toNat) % q.toNat :=
  exists_gives_sole (Kernel.addScalar q s)
    (P := fun x w => w.toNat = (x.toNat + s.toNat) % q.toNat)
    (scalarRequirements_hold hone hq hne ha hs)
    fun _ hx => toNat_addScalar_word hq.le hs (ha _ hx)

/-- The words that the difference with a scalar leaves. -/
theorem subScalar_gives (hs : s.toNat < q.toNat) :
    ∃ y, (subScalar q s).Gives a y ∧ y.size = a.size ∧ ∀ i < a.size,
      (y.getD i 0).toNat = ((a.getD i 0).toNat + (q.toNat - s.toNat)) % q.toNat :=
  exists_gives_sole (Kernel.subScalar q s)
    (P := fun x w => w.toNat = (x.toNat + (q.toNat - s.toNat)) % q.toNat)
    (scalarRequirements_hold hone hq hne ha hs)
    fun _ hx => toNat_subScalar_word hs (ha _ hx)

/-- The sum with a scalar leaves the words of the sum with the array that holds it throughout. -/
theorem addScalar_gives_replicate (hs : s.toNat < q.toNat) :
    ∃ y, (addScalar q s).Gives a y ∧ (add q (Array.replicate a.size s)).Gives a y := by
  obtain ⟨y, hy, hysize, hyvalue⟩ := addScalar_gives hone hq hne ha hs
  obtain ⟨z, hz, hzsize, hzvalue⟩ := add_gives hone hq hne ha (b := Array.replicate a.size s)
    Array.size_replicate fun x hx => (Array.mem_replicate.1 hx).2 ▸ hs
  refine ⟨y, hy, hz.congr hzsize hysize fun i hi => ?_⟩
  rw [hyvalue i hi, hzvalue i hi, getD_replicate s 0 hi]

/-- The difference with a scalar leaves the words of the difference with the array that holds it
throughout. -/
theorem subScalar_gives_replicate (hs : s.toNat < q.toNat) :
    ∃ y, (subScalar q s).Gives a y ∧ (sub q (Array.replicate a.size s)).Gives a y := by
  obtain ⟨y, hy, hysize, hyvalue⟩ := subScalar_gives hone hq hne ha hs
  obtain ⟨z, hz, hzsize, hzvalue⟩ := sub_gives hone hq hne ha (b := Array.replicate a.size s)
    Array.size_replicate fun x hx => (Array.mem_replicate.1 hx).2 ▸ hs
  refine ⟨y, hy, hz.congr hzsize hysize fun i hi => ?_⟩
  rw [hyvalue i hi, hzvalue i hi, getD_replicate s 0 hi]

/-- The difference takes back a sum. -/
theorem sub_gives_of_sum {y : Array Word} (hsize : b.size = a.size)
    (hb : ∀ x ∈ b, x.toNat < q.toNat) (hy : y.size = a.size)
    (hvalue : ∀ i < a.size,
      (y.getD i 0).toNat = ((a.getD i 0).toNat + (b.getD i 0).toNat) % q.toNat) :
    (sub q b).Gives y a := by
  have hlt : ∀ x ∈ y, x.toNat < q.toNat := forall_mem_of_getD fun i hi =>
    (hvalue i (hy ▸ hi)).trans_lt (Nat.mod_lt _ (Nat.zero_lt_of_lt hone))
  obtain ⟨z, hz, hzsize, hzvalue⟩ := sub_gives hone hq (hy ▸ hne) hlt (hsize.trans hy.symm) hb
  rw [hy] at hzsize hzvalue
  refine hz.congr hzsize rfl fun i hi => ?_
  have hx := ha _ (getD_mem hi 0)
  have hw := hb _ (getD_mem (hsize.symm ▸ hi) 0)
  rw [hzvalue i hi, hvalue i hi, Nat.mod_add_mod, Nat.add_assoc, Nat.add_sub_cancel' hw.le,
    Nat.add_mod_right, Nat.mod_eq_of_lt hx]

/-- The sum takes back a difference. -/
theorem add_gives_of_difference {y : Array Word} (hsize : b.size = a.size)
    (hb : ∀ x ∈ b, x.toNat < q.toNat) (hy : y.size = a.size)
    (hvalue : ∀ i < a.size,
      (y.getD i 0).toNat = ((a.getD i 0).toNat + (q.toNat - (b.getD i 0).toNat)) % q.toNat) :
    (add q b).Gives y a := by
  have hlt : ∀ x ∈ y, x.toNat < q.toNat := forall_mem_of_getD fun i hi =>
    (hvalue i (hy ▸ hi)).trans_lt (Nat.mod_lt _ (Nat.zero_lt_of_lt hone))
  obtain ⟨z, hz, hzsize, hzvalue⟩ := add_gives hone hq (hy ▸ hne) hlt (hsize.trans hy.symm) hb
  rw [hy] at hzsize hzvalue
  refine hz.congr hzsize rfl fun i hi => ?_
  have hx := ha _ (getD_mem hi 0)
  have hw := hb _ (getD_mem (hsize.symm ▸ hi) 0)
  rw [hzvalue i hi, hvalue i hi, Nat.mod_add_mod, Nat.add_assoc, Nat.sub_add_cancel hw.le,
    Nat.add_mod_right, Nat.mod_eq_of_lt hx]

end residues

/-- The sum and the difference of two arrays of residues leave residues, those of the exact sums
and differences, and each takes the other back. The operations with a scalar leave the words that
those with the array of this one word leave. -/
theorem sums_exact {b : Array Word} (hone : 1 < q.toNat) (hq : q.toNat < 2 ^ 63)
    (hne : a.size ≠ 0) (hsize : b.size = a.size) (ha : ∀ x ∈ a, x.toNat < q.toNat)
    (hb : ∀ x ∈ b, x.toNat < q.toNat) :
    (∃ y, (add q b).Gives a y ∧ (sub q b).Gives y a ∧ y.size = a.size ∧ ∀ i < a.size,
      (y.getD i 0).toNat < q.toNat ∧
        (y.getD i 0).toNat = ((a.getD i 0).toNat + (b.getD i 0).toNat) % q.toNat) ∧
    (∃ z, (sub q b).Gives a z ∧ (add q b).Gives z a ∧ z.size = a.size ∧ ∀ i < a.size,
      (z.getD i 0).toNat < q.toNat ∧ ((z.getD i 0).toNat : ℤ) =
        (((a.getD i 0).toNat : ℤ) - (b.getD i 0).toNat) % q.toNat) ∧
    ∀ s : Word, s.toNat < q.toNat →
      (∃ y, (addScalar q s).Gives a y ∧ (add q (Array.replicate a.size s)).Gives a y) ∧
      ∃ z, (subScalar q s).Gives a z ∧ (sub q (Array.replicate a.size s)).Gives a z := by
  have hpos := Nat.zero_lt_of_lt hone
  obtain ⟨y, hy, hysize, hyvalue⟩ := add_gives hone hq hne ha hsize hb
  obtain ⟨z, hz, hzsize, hzvalue⟩ := sub_gives hone hq hne ha hsize hb
  refine ⟨⟨y, hy, sub_gives_of_sum hone hq hne ha hsize hb hysize hyvalue, hysize, fun i hi => ?_⟩,
    ⟨z, hz, add_gives_of_difference hone hq hne ha hsize hb hzsize hzvalue, hzsize,
      fun i hi => ?_⟩,
    fun s hs => ⟨addScalar_gives_replicate hone hq hne ha hs,
      subScalar_gives_replicate hone hq hne ha hs⟩⟩
  · exact ⟨(hyvalue i hi).trans_lt (Nat.mod_lt _ hpos), hyvalue i hi⟩
  · have hle := (hb _ (getD_mem (hsize.symm ▸ hi) 0)).le
    refine ⟨(hzvalue i hi).trans_lt (Nat.mod_lt _ hpos), ?_⟩
    rw [hzvalue i hi, natCast_sub_mod hle]

/-- Two words that keep a bound. -/
theorem forall_mem_words {v w : Word} {bound : ℕ} (hv : v.toNat < bound) (hw : w.toNat < bound) :
    ∀ x ∈ #[v, w], x.toNat < bound := by
  intro x hx
  simp only [List.mem_toArray, List.mem_cons, List.not_mem_nil, or_false] at hx
  rcases hx with rfl | rfl
  · exact hv
  · exact hw

/-- The greatest modulus: the sum of its greatest residues is close to `2^64`, and the difference
of the modulus and the scalar zero is no residue. -/
theorem sums_exact_greatest :
    let q : Word := 9223372036854775807
    let a : Array Word := #[9223372036854775806, 0]
    let b : Array Word := #[9223372036854775806, 9223372036854775806]
    1 < q.toNat ∧ q.toNat < 2 ^ 63 ∧ (∀ x ∈ a, x.toNat < q.toNat) ∧ (∀ x ∈ b, x.toNat < q.toNat) ∧
      (∃ y, (add q b).Gives a y ∧ (sub q b).Gives y a ∧
        (y.getD 0 0).toNat = 9223372036854775805) ∧
      (∃ z, (sub q b).Gives a z ∧ (add q b).Gives z a ∧ (z.getD 1 0).toNat = 1) ∧
      ∃ y, (addScalar q 0).Gives a y ∧ (add q #[0, 0]).Gives a y := by
  intro q a b
  have hone : 1 < q.toNat := by decide
  have hq : q.toNat < 2 ^ 63 := by decide
  have htop : (9223372036854775806 : Word).toNat < q.toNat := by decide
  have ha : ∀ x ∈ a, x.toNat < q.toNat := forall_mem_words htop (by decide)
  have hb : ∀ x ∈ b, x.toNat < q.toNat := forall_mem_words htop htop
  obtain ⟨⟨y, hy, hback, -, hyvalue⟩, ⟨z, hz, hforth, -, hzvalue⟩, hscalar⟩ :=
    sums_exact hone hq (show a.size ≠ 0 by decide) (show b.size = a.size from rfl) ha hb
  refine ⟨hone, hq, ha, hb, ⟨y, hy, hback, ?_⟩, ⟨z, hz, hforth, ?_⟩, (hscalar 0 (by decide)).1⟩
  · exact (hyvalue 0 (by decide)).2.trans (by decide)
  · exact Int.natCast_inj.1 ((hzvalue 1 (by decide)).2.trans (by decide))

/-! ### Products -/

/-- The multiply-add with a word leaves the remainders of the exact sums, zero standing for an
addend that is absent. -/
theorem multiplyAdd_exact {addend : Option (Array Word)} (hone : 1 < q.toNat)
    (hq : q.toNat < 2 ^ 62) (hfactor : factor ∈ [1, 2, 4]) (hne : a.size ≠ 0)
    (ha : ∀ x ∈ a, x.toNat < factor.toNat * q.toNat) (hs : s.toNat < factor.toNat * q.toNat)
    (haddend : ∀ c ∈ addend, c.size = a.size ∧ ∀ x ∈ c, x.toNat < factor.toNat * q.toNat) :
    ∃ y, (multiplyAdd q s factor addend).Gives a y ∧ y.size = a.size ∧ ∀ i < a.size,
      (y.getD i 0).toNat < q.toNat ∧ (y.getD i 0).toNat =
        ((a.getD i 0).toNat * s.toNat + addend.elim 0 fun c => (c.getD i 0).toNat) % q.toNat := by
  have hreqs := scaleRequirements_hold hone hq hfactor hne rfl ha hs
  have hlt {x : Word} {m : ℕ} (h : x.toNat = m % q.toNat) :
      x.toNat < q.toNat ∧ x.toNat = m % q.toNat :=
    ⟨h.trans_lt (Nat.mod_lt _ (Nat.zero_lt_of_lt hone)), h⟩
  cases addend with
  | none =>
      obtain ⟨y, hy, hsize, hvalue⟩ := exists_gives (scale q s factor) a #v[] #v[a] (by simp) hreqs
      refine ⟨y, hy, hsize, fun i hi => ?_⟩
      obtain ⟨env, henv, hword⟩ := hvalue i hi
      have hx : env.get only = a.getD i 0 := henv only
      have hexact := toNat_scale_word hone hq hfactor s (hx ▸ ha _ (getD_mem hi 0))
      rw [hx] at hexact
      rw [hword]
      exact hlt hexact
  | some c =>
      obtain ⟨hcsize, hc⟩ := haddend c rfl
      obtain ⟨y, hy, hsize, hvalue⟩ := exists_gives (scaleAdd q s factor) a #v[c] #v[a, c]
        (by simp) (List.forall_mem_append.2 ⟨hreqs, addendRequirements_hold hcsize hc⟩)
      refine ⟨y, hy, hsize, fun i hi => ?_⟩
      obtain ⟨env, henv, hword⟩ := hvalue i hi
      have hx : env.get first = a.getD i 0 := henv first
      have hy : env.get second = c.getD i 0 := henv second
      have hexact := toNat_scaleAdd_word hone hq hfactor s (hx ▸ ha _ (getD_mem hi 0))
        (hy ▸ hc _ (getD_mem (hcsize.symm ▸ hi) 0))
      rw [hx, hy] at hexact
      rw [hword]
      exact hlt hexact

/-- The widest modulus, with operands just below four times it. -/
theorem multiplyAdd_exact_widest :
    let q : Word := 4611686018427387847
    let a : Array Word := #[18446744073709551387]
    1 < q.toNat ∧ q.toNat < 2 ^ 62 ∧ (∀ x ∈ a, x.toNat < (4 : Word).toNat * q.toNat) ∧
      ∃ y, (multiplyAdd q 18446744073709551386 4 (some a)).Gives a y ∧ (y.getD 0 0).toNat = 1 := by
  intro q a
  have hone : 1 < q.toNat := by decide
  have hq : q.toNat < 2 ^ 62 := by decide
  have ha : ∀ x ∈ a, x.toNat < (4 : Word).toNat * q.toNat := by
    intro x hx
    obtain rfl := List.mem_singleton.1 (Array.mem_toList_iff.2 hx)
    decide
  have hs : (18446744073709551386 : Word).toNat < (4 : Word).toNat * q.toNat := by decide
  have haddend : ∀ c ∈ some a, c.size = a.size ∧
      ∀ x ∈ c, x.toNat < (4 : Word).toNat * q.toNat := by
    intro c hc
    obtain rfl := Option.mem_some_iff.1 hc
    exact ⟨rfl, ha⟩
  obtain ⟨y, hy, -, hvalue⟩ := multiplyAdd_exact hone hq (show (4 : Word) ∈ [1, 2, 4] by decide)
    (show a.size ≠ 0 by decide) ha hs haddend
  exact ⟨hone, hq, ha, y, hy, (hvalue 0 (by decide)).2.trans (by decide)⟩

/-- The product of two arrays leaves the remainders of the exact products, although its operands
need not be reduced. Where the second array holds one word throughout, these are the words that the
product with that word leaves. -/
theorem mul_exact {b : Array Word} (hone : 1 < q.toNat) (hq : q.toNat < 2 ^ 62)
    (hfactor : factor ∈ [1, 2, 4]) (hne : a.size ≠ 0) (hsize : b.size = a.size)
    (ha : ∀ x ∈ a, x.toNat < factor.toNat * q.toNat)
    (hb : ∀ x ∈ b, x.toNat < factor.toNat * q.toNat) :
    ∃ y, (mul q factor b).Gives a y ∧ y.size = a.size ∧
      (∀ i < a.size, (y.getD i 0).toNat < q.toNat ∧
        (y.getD i 0).toNat = (a.getD i 0).toNat * (b.getD i 0).toNat % q.toNat) ∧
      ∀ s, (∀ x ∈ b, x = s) → (multiplyAdd q s factor none).Gives a y := by
  have hpos : 0 < a.size := Nat.pos_of_ne_zero hne
  have hreqs : ∀ r ∈ (Kernel.mul q factor).requirements a.size #v[a, b], r.Holds :=
    List.forall_mem_cons.2 ⟨hfactor, binaryRequirements_hold hone hq hpos
      (Represents.of_mem rfl ha) (Represents.of_mem hsize hb)⟩
  obtain ⟨y, hy, hysize, hvalue⟩ := exists_gives_pair (Kernel.mul q factor)
    (P := fun x x' w => w.toNat = x.toNat * x'.toNat % q.toNat) hsize hreqs
    fun env _ _ => WideReciprocal.toNat_mul hone (by omega) (env.get first) (env.get second)
  refine ⟨y, hy, hysize, fun i hi => ⟨?_, hvalue i hi⟩, fun s hs => ?_⟩
  · rw [hvalue i hi]
    exact Nat.mod_lt _ (Nat.zero_lt_of_lt hone)
  · have hread : ∀ i < a.size, b.getD i 0 = s := fun i hi => hs _ (getD_mem (hsize.symm ▸ hi) 0)
    -- the second array has an element, so the word is in its range
    have hslt : s.toNat < factor.toNat * q.toNat :=
      hread 0 hpos ▸ hb _ (getD_mem (hsize.symm ▸ hpos) 0)
    obtain ⟨z, hz, hzsize, hzvalue⟩ := exists_gives_sole (scale q s factor)
      (P := fun x w => w.toNat = x.toNat * s.toNat % q.toNat)
      (scaleRequirements_hold hone hq hfactor hne rfl ha hslt)
      fun env hx => toNat_scale_word hone hq hfactor s (ha _ hx)
    have hyz : y = z := by
      apply ext_getD 0 (hysize.trans hzsize.symm)
      intro i hi
      rw [hysize] at hi
      apply UInt64.toNat_inj.1
      rw [hvalue i hi, hzvalue i hi, hread i hi]
    rw [hyz]
    exact hz

/-- The greatest operands for the widest modulus: their product is close to `2^128`. -/
theorem mul_exact_widest :
    let q : Word := 4611686018427387847
    let s : Word := 18446744073709551387
    1 < q.toNat ∧ q.toNat < 2 ^ 62 ∧ s.toNat < (4 : Word).toNat * q.toNat ∧
      ∃ y, (mul q 4 #[s]).Gives #[s] y ∧ (multiplyAdd q s 4 none).Gives #[s] y ∧
        (y.getD 0 0).toNat = 1 := by
  intro q s
  have hone : 1 < q.toNat := by decide
  have hq : q.toNat < 2 ^ 62 := by decide
  have hs : s.toNat < (4 : Word).toNat * q.toNat := by decide
  have hall : ∀ x ∈ #[s], x = s := fun x hx => List.mem_singleton.1 (Array.mem_toList_iff.2 hx)
  have hlt : ∀ x ∈ #[s], x.toNat < (4 : Word).toNat * q.toNat := fun x hx => hall x hx ▸ hs
  obtain ⟨y, hy, -, hvalue, hscale⟩ := mul_exact hone hq (show (4 : Word) ∈ [1, 2, 4] by decide)
    (show #[s].size ≠ 0 by decide) rfl hlt hlt
  exact ⟨hone, hq, hs, y, hy, hscale s hall, (hvalue 0 (by decide)).2.trans (by decide)⟩

/-! ### Reductions -/

/-- A reduction accepts exactly what it admits, beside the buffer and in place. It then leaves words
below `output * q` in the classes of the operand, so residues if the output factor is 1. Admitted
are any words where the input factor is the modulus, and where four times the modulus is beyond
every word. -/
theorem reduce_exact (hone : 1 < q.toNat) (hq : q.toNat < 2 ^ 63) (input output : Word)
    (a : Array Word) :
    (∀ backend out, (((reduce q input output).into backend a).runOn out).1 = .ok () ↔
      out.size = a.size ∧ Reduction.Admits q input output a) ∧
    (∀ backend, (((reduce q input output).inPlace backend).runOn a).1 = .ok () ↔
      Reduction.Admits q input output a) ∧
    (Reduction.Admits q input output a →
      ∃ y, (reduce q input output).Gives a y ∧ y.size = a.size ∧ ∀ i < a.size,
        (y.getD i 0).toNat < output.toNat * q.toNat ∧
        (y.getD i 0).toNat % q.toNat = (a.getD i 0).toNat % q.toNat ∧
        (output = 1 → (y.getD i 0).toNat = (a.getD i 0).toNat % q.toNat)) ∧
    (a.size ≠ 0 → output ∈ [1, 2] →
      (q ≠ output → Reduction.Admits q q output a) ∧
      (2 ^ 62 ≤ q.toNat → Reduction.Admits q 4 output a)) := by
  have hinto (backend : Backend) (out : Array Word) :
      (((reduce q input output).into backend a).runOn out).1 = .ok () ↔
        out.size = a.size ∧ Reduction.Admits q input output a :=
    (runOn_write_ok_iff _ backend _ out).trans (Reduction.requirements_hold_iff hone hq)
  refine ⟨hinto, fun backend => ?_, fun h => ?_, fun hne hout =>
    ⟨Reduction.admits_modulus hne hout, fun hwide => Reduction.admits_of_wide hwide hne hout⟩⟩
  · have hsame : ((reduce q input output).inPlace backend).runOn a =
        ((reduce q input output).into backend a).runOn a := by
      refine (runOn_writeInPlace_eq _ backend #v[] a).trans ?_
      rw [show (#v[].insertIdx 0 a (Nat.zero_le 0)) = #v[a] by simp]
      rfl
    rw [hsame, hinto, eq_self_iff_true, true_and]
  · obtain ⟨hbound, hfactor⟩ := h.ofFactors
    obtain ⟨y, hy, hsize, hvalue⟩ := exists_gives (Kernel.reduce q input output) a #v[] #v[a]
      (by simp) ((Reduction.requirements_hold_iff hone hq).2 ⟨rfl, h⟩)
    refine ⟨y, hy, hsize, fun i hi => ?_⟩
    obtain ⟨env, henv, hword⟩ := hvalue i hi
    have hx : env.get only = a.getD i 0 := henv only
    obtain ⟨hlt, hclass⟩ := Reduction.term_reduces hone hq _ (hx ▸ hbound _ (getD_mem hi 0))
    rw [hfactor] at hlt
    rw [hx] at hclass
    rw [hword]
    refine ⟨hlt, residue_eq_residue_iff.1 hclass, ?_⟩
    rintro rfl
    rw [show (1 : Word).toNat = 1 from rfl, Nat.one_mul] at hlt
    exact toNat_eq_mod_of_residue_eq hlt hclass

/-- The greatest word modulo 4, with an input factor that is the modulus, and modulo the greatest
prime below `2^63`, with an input bound that no word reaches. -/
theorem reduce_exact_greatest :
    let top : Word := 18446744073709551615
    let q : Word := 9223372036854775783
    1 < (4 : Word).toNat ∧ (4 : Word).toNat < 2 ^ 63 ∧ 1 < q.toNat ∧ q.toNat < 2 ^ 63 ∧
      (∃ y, (reduce 4 4 1).Gives #[top] y ∧ (y.getD 0 0).toNat = 3) ∧
      (∃ y, (reduce q 4 1).Gives #[top] y ∧ (y.getD 0 0).toNat = 49) ∧
      ∃ y, (reduce q 4 2).Gives #[top] y ∧ (y.getD 0 0).toNat % q.toNat = 49 := by
  intro top q
  have hone : 1 < q.toNat := by decide
  have hq : q.toNat < 2 ^ 63 := by decide
  have hwide : 2 ^ 62 ≤ q.toNat := by decide
  have hne : #[top].size ≠ 0 := by decide
  obtain ⟨-, -, hsmall, hadmits⟩ := reduce_exact (show 1 < (4 : Word).toNat by decide)
    (by decide) 4 1 #[top]
  obtain ⟨y, hy, -, hvalue⟩ := hsmall ((hadmits hne (by decide)).1 (by decide))
  obtain ⟨-, -, hfull, hadmits⟩ := reduce_exact hone hq 4 1 #[top]
  obtain ⟨z, hz, -, hfullValue⟩ := hfull ((hadmits hne (by decide)).2 hwide)
  obtain ⟨-, -, hlazy, hadmits⟩ := reduce_exact hone hq 4 2 #[top]
  obtain ⟨w, hw, -, hlazyValue⟩ := hlazy ((hadmits hne (by decide)).2 hwide)
  refine ⟨by decide, by decide, hone, hq, ⟨y, hy, ?_⟩, ⟨z, hz, ?_⟩, w, hw, ?_⟩
  · exact ((hvalue 0 (by decide)).2.2 rfl).trans (by decide)
  · exact ((hfullValue 0 (by decide)).2.2 rfl).trans (by decide)
  · exact (hlazyValue 0 (by decide)).2.1.trans (by decide)

/-- The conditional difference reduces every word and takes the difference of those that compare
with the bound as stated before they are reduced. -/
theorem subWhere_exact {diff : Word} (hone : 1 < q.toNat) (hq : q.toNat < 2 ^ 63)
    (hpos : 0 < diff.toNat) (hdiff : diff.toNat < q.toNat) (c : Comparison) (bound : Word)
    (hne : a.size ≠ 0) :
    ∃ y, (subWhere q c bound diff).Gives a y ∧ y.size = a.size ∧ ∀ i < a.size,
      (y.getD i 0).toNat < q.toNat ∧ ((y.getD i 0).toNat : ℤ) =
        (if c.holds (a.getD i 0) bound then ((a.getD i 0).toNat : ℤ) - diff.toNat
          else (a.getD i 0).toNat) % q.toNat := by
  have hzero : diff ≠ 0 := UInt64.pos_iff_ne_zero.1 (UInt64.lt_iff_toNat_lt.2 hpos)
  have hreqs : ∀ r ∈ (Kernel.subWhere q c bound diff).requirements a.size #v[a], r.Holds := by
    change ∀ r ∈ [Requirement.nonEmpty a, .size .result a.size a.size, .modulus q 63,
      .diffInside diff q], r.Holds
    simp only [List.forall_mem_cons, List.not_mem_nil, false_imp_iff, implies_true, and_true,
      Requirement.Holds]
    exact ⟨hne, trivial, ⟨hone, hq⟩, hzero, UInt64.lt_iff_toNat_lt.2 hdiff⟩
  refine exists_gives_sole (Kernel.subWhere q c bound diff) (P := fun x w => w.toNat < q.toNat ∧
    (w.toNat : ℤ) = (if c.holds x bound then (x.toNat : ℤ) - diff.toNat else x.toNat) % q.toNat)
    hreqs fun env _ => ?_
  have hword := toNat_subWhere_word hone hdiff c bound env
  refine ⟨hword.trans_lt (Nat.mod_lt _ (Nat.zero_lt_of_lt hone)), ?_⟩
  rw [hword]
  split_ifs
  · rw [show ((env.get only).toNat : ℤ) - diff.toNat =
      ((env.get only).toNat + (q.toNat - diff.toNat) : ℕ) - q.toNat by omega,
      Int.sub_emod_right, Int.natCast_mod]
  · exact Int.natCast_mod _ _

/-- Words on either side of a bound above the modulus. The remainder of the second is below the
bound as well, but no difference is taken of it. -/
theorem subWhere_exact_unreduced :
    1 < (10 : Word).toNat ∧ (10 : Word).toNat < 2 ^ 63 ∧ 0 < (4 : Word).toNat ∧
      (4 : Word).toNat < (10 : Word).toNat ∧
      ∃ y, (subWhere 10 .lt 20 4).Gives #[13, 18446744073709551615] y ∧
        (y.getD 0 0).toNat = 9 ∧ (y.getD 1 0).toNat = 5 := by
  have hone : 1 < (10 : Word).toNat := by decide
  have hq : (10 : Word).toNat < 2 ^ 63 := by decide
  have hpos : 0 < (4 : Word).toNat := by decide
  have hdiff : (4 : Word).toNat < (10 : Word).toNat := by decide
  obtain ⟨y, hy, -, hvalue⟩ := subWhere_exact hone hq hpos hdiff .lt 20
    (show #[13, 18446744073709551615].size ≠ 0 by decide)
  refine ⟨hone, hq, hpos, hdiff, y, hy, ?_, ?_⟩
  · exact Int.natCast_inj.1 ((hvalue 0 (by decide)).2.trans (by decide))
  · exact Int.natCast_inj.1 ((hvalue 1 (by decide)).2.trans (by decide))

end Operation

end Negacyclic
