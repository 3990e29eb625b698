import Negacyclic.Proofs.Residue.Represents
import Negacyclic.Proofs.Transform.Tables

/-!
# Tables filled slot by slot

`ofTables` computes the powers of a root half by half and inverts two residues. The tables can also
be filled one slot at a time: `fillPowers` writes the powers in turn, each into the slot of its
reversed number, and `ofSlots` then inverts every slot before it puts the inverses into the order
of the inverse layers. `Filled` says what such a table holds in between. The reversal permutes the
slots, so none is written twice and at the end none is left (`fillPowers_eq`); the inverse of a
power is the power of the inverse (`mapM_invert_reversedPowers`). Both ways lead to the same tables
(`ofSlots_eq`).

`Tabulates` says in numbers what they hold, and `tables_exact` that they are built and hold it.
The modulus has to be 1 modulo twice the size and leave two spare bits, and the power of the root
to the size has to be `-1`. That the modulus is prime, or the root reduced, is not used.
-/

namespace Negacyclic.Transform

variable {q psi phi : Word} {K k i : ℕ} {p : Precision} {T : Transform}

/-! ### Powers written into their slots -/

/-- The table of `2^k` slots after the first `i` powers of `psi` are written, and the power that is
written next. -/
def fillPowers (q psi : Word) (k : ℕ) : ℕ → Array Word × Word
  | 0 => (Array.replicate (2 ^ k) 0, 1)
  | i + 1 =>
      let (table, power) := fillPowers q psi k i
      (table.setIfInBounds (bitReverse k i) power, Residue.mul q power psi)

/-- The slots of the numbers below `i` hold their powers of `psi`, and the next power is at hand. -/
structure Filled (q psi : Word) (k i : ℕ) (s : Array Word × Word) : Prop where
  size_eq : s.1.size = 2 ^ k
  next : s.2.toNat < q.toNat ∧ residue q s.2 = residue q psi ^ i
  slot : ∀ j < i, (s.1.getD (bitReverse k j) 0).toNat < q.toNat ∧
    residue q (s.1.getD (bitReverse k j) 0) = residue q psi ^ j

/-- One more power leaves the slots that are filled as they are. -/
theorem Filled.step {s : Array Word × Word} (hq : 1 < q.toNat) (hi : i < 2 ^ k)
    (h : Filled q psi k i s) :
    Filled q psi k (i + 1) (s.1.setIfInBounds (bitReverse k i) s.2, Residue.mul q s.2 psi) := by
  have hne := ne_zero_of_one_lt hq
  refine ⟨?_, ⟨toNat_mul_lt hne _ _, ?_⟩, ?_⟩
  · rw [Array.size_setIfInBounds, h.size_eq]
  · rw [residue_mul hne, h.next.2, pow_succ]
  · intro j hj
    rcases Nat.lt_succ_iff_lt_or_eq.1 hj with hlt | rfl
    · -- the slot that is written belongs to another number
      have hother : bitReverse k i ≠ bitReverse k j :=
        (bitReverse_inj hi (by omega)).not.2 (by omega)
      rw [getD_setIfInBounds_ne _ _ _ hother]
      exact h.slot j hlt
    · rw [getD_setIfInBounds_self _ _ _ (h.size_eq.symm ▸ bitReverse_lt k j)]
      exact h.next

/-- The loop that fills the powers in order leaves every slot up to the place it has come to. -/
theorem filled_fillPowers (hq : 1 < q.toNat) (psi : Word) (hi : i ≤ 2 ^ k) :
    Filled q psi k i (fillPowers q psi k i) := by
  induction i with
  | zero =>
      refine ⟨Array.size_replicate, ⟨hq, ?_⟩, fun j hj => absurd hj (Nat.not_lt_zero j)⟩
      exact residue_one.trans (pow_zero _).symm
  | succ i ih => exact (ih (by omega)).step hq (by omega)

/-- The powers in reversed order are residues in their classes. -/
theorem represents_reversedPowers (hq : 1 < q.toNat) (psi : Word) (k : ℕ) :
    Represents q (1 * q.toNat) (2 ^ k) (reversedPowers q psi k)
      fun i => residue q psi ^ bitReverse k i where
  size_eq := size_reversedPowers q psi k
  toNat_lt i hi := by
    rw [Nat.one_mul]
    exact toNat_lt_of_mem_reversedPowers hq psi
      (getD_mem ((size_reversedPowers q psi k).symm ▸ hi) 0)
  residue_eq _ hi := residue_reversedPowers (ne_zero_of_one_lt hq) psi hi

/-- Every slot is filled after `2^k` steps, with the power that stands there. -/
theorem fillPowers_eq (hq : 1 < q.toNat) (psi : Word) (k : ℕ) :
    (fillPowers q psi k (2 ^ k)).1 = reversedPowers q psi k := by
  have hfilled := filled_fillPowers hq psi (le_refl (2 ^ k))
  refine Represents.eq_of_residues (q := q) ?_ (represents_reversedPowers hq psi k)
  -- every slot is that of its own number read backwards
  have hslot : ∀ i < 2 ^ k, ((fillPowers q psi k (2 ^ k)).1.getD i 0).toNat < q.toNat ∧
      residue q ((fillPowers q psi k (2 ^ k)).1.getD i 0) = residue q psi ^ bitReverse k i := by
    intro i hi
    have hslot := hfilled.slot _ (bitReverse_lt k i)
    rwa [bitReverse_bitReverse hi] at hslot
  refine ⟨hfilled.size_eq, fun i hi => ?_, fun i hi => (hslot i hi).2⟩
  rw [Nat.one_mul]
  exact (hslot i hi).1

example : (fillPowers 17 2 2 4).1 = #[1, 4, 2, 8] := by decide

/-! ### Slots inverted one by one -/

/-- The powers of a root are inverted by the powers of its inverse. -/
theorem mapM_invert_reversedPowers (hq : 1 < q.toNat) (k : ℕ)
    (hinv : residue q phi * residue q psi = 1) :
    (reversedPowers q psi k).mapM (invert q) = .ok (reversedPowers q phi k) := by
  have hpsi := represents_reversedPowers hq psi k
  have hphi := represents_reversedPowers hq phi k
  apply mapM_eq_ok 0 0 (hpsi.size_eq.trans hphi.size_eq.symm)
  intro i hi
  have hin : i < 2 ^ k := hpsi.size_eq ▸ hi
  have hsome : Residue.inverse? q ((reversedPowers q psi k).getD i 0) =
      some ((reversedPowers q phi k).getD i 0) := by
    rw [inverse?_eq_some_iff hq, hpsi.residue_eq i hin, hphi.residue_eq i hin, ← mul_pow, hinv,
      one_pow]
    exact ⟨(hphi.toNat_lt i hin).trans_eq (Nat.one_mul _), rfl⟩
  rw [invert, hsome]

/-- The transform of size `n` modulo `q` with the root `psi`, its tables filled slot by slot. -/
def ofSlots (n : ℕ) (q psi : Word) (p : Precision) : Except Fault Transform := do
  let k := n.log2
  let multiplier := Multiplier.ofResidue p q
  let powers := (fillPowers q psi k n).1
  let inverses := inverseOrder k (← powers.mapM (invert q))
  let scale ← invert q (.ofNat n)
  let scaleRoot := Residue.mul q scale (inverses.getD (n - 1) 0)
  let roots := powers.map multiplier
  let inverseRoots := inverses.map multiplier
  return {
    degree := n, modulus := q, precision := p, root := psi
    roots, inverseRoots
    scale := multiplier scale, scaleRoot := multiplier scaleRoot
    replicated := Replicated.ofTables n roots inverseRoots }

/-- Filling the tables slot by slot gives the same transform. -/
theorem ofSlots_eq (hq : 1 < q.toNat) (h : Residue.inverse? q psi = some phi) :
    ofSlots (2 ^ k) q psi p = ofTables (2 ^ k) q psi p := by
  obtain ⟨-, hinv⟩ := inverse?_spec h
  have hroot : invert q psi = .ok phi := by rw [invert, h]
  have hlast : 2 ^ k - 1 < (inverseOrder k (reversedPowers q phi k)).size := by
    rw [size_inverseOrder (size_reversedPowers q phi k).ge]
    exact Nat.sub_lt (Nat.two_pow_pos k) Nat.one_pos
  unfold ofSlots ofTables
  simp only [Nat.log2_two_pow, fillPowers_eq hq, mapM_invert_reversedPowers hq k hinv, hroot]
  cases invert q (.ofNat (2 ^ k)) with
  | error fault => rfl
  | ok scale =>
      have hvalue := congrArg Multiplier.value (getD_map_ofResidue p q hlast)
      change Except.ok _ = Except.ok _
      simp only [hvalue]
      rfl

/-! ### The contents in numbers -/

/-- What the tables of a transform of `2^K` words hold, as natural numbers. -/
structure Tabulates (T : Transform) (K : ℕ) : Prop where
  size_roots : T.roots.size = 2 ^ K
  size_inverseRoots : T.inverseRoots.size = 2 ^ K
  /-- The slot of the number `i` holds the power `i` of the root. -/
  roots : ∀ i < 2 ^ K, (T.roots.getD (bitReverse K i) default).value.toNat =
    T.root.toNat ^ i % T.modulus.toNat
  inverseRoots_zero : (T.inverseRoots.getD 0 default).value = 1
  /-- The layer with `2^j` groups reads the inverses of its roots from one place on. -/
  inverseRoots : ∀ j < K, ∀ i < 2 ^ j,
    (T.inverseRoots.getD (2 ^ K - 2 * 2 ^ j + 1 + i) default).value.toNat *
      (T.roots.getD (2 ^ j + i) default).value.toNat % T.modulus.toNat = 1
  scale : T.scale.value.toNat * 2 ^ K % T.modulus.toNat = 1
  scaleRoot : T.scaleRoot.value.toNat =
    T.scale.value.toNat * (T.inverseRoots.getD (2 ^ K - 1) default).value.toNat %
      T.modulus.toNat
  /-- Every entry is a residue with its quotient, which fits the precision. -/
  entries : ∀ w, w ∈ T.roots ∨ w ∈ T.inverseRoots ∨ w = T.scale ∨ w = T.scaleRoot →
    w.value.toNat < T.modulus.toNat ∧
      w.quotient.toNat = w.value.toNat * 2 ^ T.precision.bits / T.modulus.toNat ∧
      w.quotient.toNat < 2 ^ T.precision.bits

/-- The first entry stays first when the layers are put in the order of the inverse transform. -/
theorem getD_inverseOrder_zero {table : Array Word} (h : 2 ^ k ≤ table.size) :
    (inverseOrder k table).getD 0 0 = table.getD 0 0 := by
  have hpos := Nat.two_pow_pos k
  have hfirst : (table.extract 0 1).size = 1 := by
    rw [Array.size_extract]
    omega
  rw [inverseOrder_eq, getD_append_left _ _ _ (by omega), getD_extract _ _ (by omega) (by omega)]

/-- The power zero comes first, since zero reverses to zero. -/
theorem getD_reversedPowers_zero (q psi : Word) (k : ℕ) :
    (reversedPowers q psi k).getD 0 0 = 1 := by
  induction k generalizing psi with
  | zero => rfl
  | succ k ih => rw [(getD_reversedPowers_succ q psi (Nat.two_pow_pos k)).1, ih]

/-- Tables that are well formed and whose first inverse entry is 1 are as they are described. -/
theorem WellFormed.tabulates (hT : T.WellFormed K)
    (hfirst : (T.inverseRoots.getD 0 default).value = 1) : T.Tabulates K := by
  have hproper := hT.proper
  refine
    { size_roots := hT.size_roots
      size_inverseRoots := hT.size_inverseRoots
      roots := ?_
      inverseRoots_zero := hfirst
      inverseRoots := ?_
      scale := ?_
      scaleRoot := ?_
      entries := ?_ }
  · intro i hi
    have hslot := bitReverse_lt K i
    apply toNat_eq_mod_of_residue_eq_natCast (hT.proper_roots _ hslot).value_lt
    rw [hT.residue_roots _ hslot, bitReverse_bitReverse hi, Nat.cast_pow]
    rfl
  · intro j hj i hi
    have hslot : 2 ^ j + i < 2 ^ K := by
      have := two_mul_two_pow_le hj
      omega
    have hmul := hT.residue_inverseRoots j hj i hi
    rw [← hT.residue_roots _ hslot] at hmul
    exact (natCast_mul_eq_one_iff hT.one_lt).1 hmul
  · apply (natCast_mul_eq_one_iff hT.one_lt).1
    rw [Nat.cast_pow, Nat.cast_ofNat]
    exact hT.residue_scale
  · apply toNat_eq_mod_of_residue_eq_natCast hT.proper_scaleRoot.value_lt
    rw [hT.residue_scaleRoot, Nat.cast_mul]
    rfl
  · intro w hw
    have hw : w.Proper T.precision T.modulus := by
      rcases hw with hw | hw | rfl | rfl
      · exact hproper.roots w hw
      · exact hproper.inverseRoots w hw
      · exact hproper.scale
      · exact hproper.scaleRoot
    refine ⟨hw.value_lt, hw.toNat_quotient, ?_⟩
    rw [hw.toNat_quotient]
    exact Multiplier.quotient_lt hw.value_lt _

/-- The power of a root to the size, as a class. -/
theorem residue_pow_eq_neg_one {n : ℕ} (hq : 1 < q.toNat)
    (hpsi : psi.toNat ^ n % q.toNat = q.toNat - 1) : residue q psi ^ n = -1 := by
  have hsum : (psi.toNat ^ n + 1) % q.toNat = 0 := by
    rw [Nat.add_mod, hpsi, Nat.mod_eq_of_lt hq, Nat.sub_add_cancel hq.le, Nat.mod_self]
  rw [eq_neg_iff_add_eq_zero, residue]
  exact_mod_cast (ZMod.natCast_eq_zero_iff _ _).2 (Nat.dvd_of_mod_eq_zero hsum)

/-- The tables of a root whose power to the size is `-1` are built, computed or filled slot by slot,
and hold what the layers expect of them. -/
theorem tables_exact (hK : 0 < K) (hq : 1 < q.toNat) (hcongr : q.toNat % (2 * 2 ^ K) = 1)
    (hspace : q.toNat < 2 ^ (p.bits - 2)) (hpsi : psi.toNat ^ 2 ^ K % q.toNat = q.toNat - 1) :
    ∃ T, ofTables (2 ^ K) q psi p = .ok T ∧ ofSlots (2 ^ K) q psi p = .ok T ∧
      T.degree = 2 ^ K ∧ T.modulus = q ∧ T.precision = p ∧ T.root = psi ∧ T.Tabulates K := by
  have hlt := two_mul_lt_of_mod_eq_one hq hcongr
  have hword := q.toNat_lt
  have hneg := residue_pow_eq_neg_one hq hpsi
  obtain ⟨T, hT⟩ := exists_ofTables_eq_ok (p := p) hq hcongr hneg
  have hformed := ofTables_wellFormed hK (by omega) hq hspace hneg hT
  obtain ⟨phi, -, hinverse, -, hdegree, hmodulus, hprecision, hroot, -, hinverseRoots, -⟩ :=
    ofTables_eq_ok hT
  refine ⟨T, hT, (ofSlots_eq hq hinverse).trans hT, hdegree, hmodulus, hprecision, hroot,
    hformed.tabulates ?_⟩
  have hsize := (size_reversedPowers q phi K).ge
  have hpos : 0 < (inverseOrder K (reversedPowers q phi K)).size := by
    rw [size_inverseOrder hsize]
    exact Nat.two_pow_pos K
  rw [hinverseRoots, Nat.log2_two_pow, getD_map_ofResidue p q hpos, getD_inverseOrder_zero hsize,
    getD_reversedPowers_zero]
  rfl

/-- Eight entries modulo 17, for the root 3 of order 16. -/
theorem tables_exact_seventeen :
    (17 : Word).toNat % (2 * 2 ^ 3) = 1 ∧ (17 : Word).toNat < 2 ^ (Precision.bits32.bits - 2) ∧
      (3 : Word).toNat ^ 2 ^ 3 % (17 : Word).toNat = (17 : Word).toNat - 1 ∧
      ∃ T, ofTables (2 ^ 3) 17 3 .bits32 = .ok T ∧ ofSlots (2 ^ 3) 17 3 .bits32 = .ok T ∧
        T.degree = 2 ^ 3 ∧ T.modulus = 17 ∧ T.precision = .bits32 ∧ T.root = 3 ∧
        T.Tabulates 3 := by
  have hcongr : (17 : Word).toNat % (2 * 2 ^ 3) = 1 := by decide
  have hspace : (17 : Word).toNat < 2 ^ (Precision.bits32.bits - 2) := by decide
  have hpsi : (3 : Word).toNat ^ 2 ^ 3 % (17 : Word).toNat = (17 : Word).toNat - 1 := by decide
  exact ⟨hcongr, hspace, hpsi, tables_exact (by decide) (by decide) hcongr hspace hpsi⟩

end Negacyclic.Transform
