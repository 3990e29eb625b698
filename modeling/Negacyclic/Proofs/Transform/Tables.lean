import Mathlib.Tactic.LinearCombination
import Negacyclic.Proofs.Residue.Inverse
import Negacyclic.Proofs.Residue.Lazy
import Negacyclic.Proofs.Transform.Block
import Negacyclic.Proofs.Transform.Butterfly
import Negacyclic.Proofs.Transform.Replicated
import Negacyclic.Proofs.Word.Bits
import Negacyclic.Proofs.Word.Table
import Negacyclic.Transform.Basic

/-!
# What the tables hold

`Transform.WellFormed` says in the classes modulo `q` what each table of a transform of `2^K` words
holds, and that all entries are proper multipliers. `ofTables_wellFormed` proves it of the tables
that are computed for a root `psi` with `psi^(2^K) = -1`.

* Entry `i` of the forward table is `psi` to the power of `i` reversed
  (`residue_reversedPowers`).
* The entries of the inverse table for `2^j` groups are the inverses of the entries `2^j` to
  `2^(j + 1)` of the forward table: `inverseOrder` puts one layer of a table behind the other,
  the last first (`getD_inverseOrder`).
* `scale` is the inverse of the degree, and `scaleRoot` the same times the one root of the last
  inverse layer.

Of the modulus nothing is used but that it leaves two spare bits: the two inverses that are
needed are found, or the tables are not built.
-/

namespace Negacyclic

namespace Transform

variable {q psi : Word} {k : ℕ}

/-! ### Powers in reversed order -/

/-- There is one power for each slot. -/
theorem size_reversedPowers (q psi : Word) (k : ℕ) : (reversedPowers q psi k).size = 2 ^ k := by
  induction k generalizing psi with
  | zero => rfl
  | succ k ih => rw [reversedPowers, Array.size_append, Array.size_map, ih, Nat.two_pow_succ]

/-- The two halves of the table. -/
theorem getD_reversedPowers_succ (q psi : Word) {i : ℕ} (hi : i < 2 ^ k) :
    (reversedPowers q psi (k + 1)).getD i 0 =
        (reversedPowers q (Residue.mul q psi psi) k).getD i 0 ∧
      (reversedPowers q psi (k + 1)).getD (2 ^ k + i) 0 =
        Residue.mul q ((reversedPowers q (Residue.mul q psi psi) k).getD i 0) psi := by
  have hsize := size_reversedPowers q (Residue.mul q psi psi) k
  rw [reversedPowers]
  refine ⟨getD_append_left _ _ _ (hsize ▸ hi), ?_⟩
  have hright := getD_append_right (reversedPowers q (Residue.mul q psi psi) k)
    ((reversedPowers q (Residue.mul q psi psi) k).map fun w => Residue.mul q w psi) 0 i
  rw [hsize] at hright
  rw [hright, getD_map _ 0 0 (hsize ▸ hi)]

/-- Entry `i` is the root to the power of `i` reversed. -/
theorem residue_reversedPowers (hq : q ≠ 0) (psi : Word) {i : ℕ} (hi : i < 2 ^ k) :
    residue q ((reversedPowers q psi k).getD i 0) = residue q psi ^ bitReverse k i := by
  induction k generalizing psi i with
  | zero =>
      obtain rfl : i = 0 := by omega
      simp [reversedPowers]
  | succ k ih =>
      rw [Nat.two_pow_succ] at hi
      rcases Nat.lt_or_ge i (2 ^ k) with hlow | hhigh
      · rw [(getD_reversedPowers_succ q psi hlow).1, ih _ hlow, residue_mul hq,
          bitReverse_of_lt hlow, pow_mul, pow_two]
      · obtain ⟨j, rfl⟩ := Nat.exists_eq_add_of_le hhigh
        have hj : j < 2 ^ k := by omega
        rw [(getD_reversedPowers_succ q psi hj).2, residue_mul hq, ih _ hj, residue_mul hq,
          bitReverse_two_pow_add_of_lt hj, pow_succ, pow_mul, pow_two]

/-- All entries are residues. -/
theorem toNat_lt_of_mem_reversedPowers (hq : 1 < q.toNat) (psi : Word) {x : Word}
    (hx : x ∈ reversedPowers q psi k) : x.toNat < q.toNat := by
  have hne := ne_zero_of_one_lt hq
  induction k generalizing psi with
  | zero =>
      obtain rfl : x = 1 := by simpa [reversedPowers] using hx
      exact hq
  | succ k ih =>
      rw [reversedPowers, Array.mem_append] at hx
      rcases hx with hx | hx
      · exact ih _ hx
      · obtain ⟨w, -, rfl⟩ := Array.mem_map.1 hx
        exact toNat_mul_lt hne w psi

/-! ### The order of the inverse layers -/

/-- The layers of a table with `2^(k - 1)`, ..., 2, 1 groups, one behind the other. -/
def layersDown (table : Array Word) : ℕ → Array Word
  | 0 => #[]
  | k + 1 => table.extract (2 ^ k) (2 ^ (k + 1)) ++ layersDown table k

/-- Layers are put behind whatever is there. -/
theorem foldl_append_extract (table out : Array Word) (k : ℕ) :
    (List.range k).reverse.foldl
        (fun out j => out ++ table.extract (2 ^ j) (2 ^ (j + 1))) out =
      out ++ layersDown table k := by
  induction k generalizing out with
  | zero => simp [layersDown]
  | succ k ih =>
      rw [List.range_succ, List.reverse_append, List.reverse_singleton, List.singleton_append,
        List.foldl_cons, ih, layersDown, Array.append_assoc]

/-- The inverse order is the first entry and then the layers from the last down. -/
theorem inverseOrder_eq (table : Array Word) (k : ℕ) :
    inverseOrder k table = table.extract 0 1 ++ layersDown table k :=
  foldl_append_extract table _ k

section inverseOrder

variable {table : Array Word}

/-- The layers have all entries but the first. -/
theorem size_layersDown (h : 2 ^ k ≤ table.size) : (layersDown table k).size + 1 = 2 ^ k := by
  induction k with
  | zero => rfl
  | succ k ih =>
      have hk := Nat.two_pow_succ k
      have := ih (by omega)
      rw [layersDown, Array.size_append, Array.size_extract]
      omega

/-- The layer with `2^j` groups stands behind those with more. -/
theorem getD_layersDown (h : 2 ^ k ≤ table.size) {i j : ℕ} (hj : j < k) (hi : i < 2 ^ j) :
    (layersDown table k).getD (2 ^ k - 2 * 2 ^ j + i) 0 = table.getD (2 ^ j + i) 0 := by
  induction k with
  | zero => omega
  | succ k ih =>
      have hpos := Nat.two_pow_pos k
      have hk := Nat.two_pow_succ k
      have hsize : (table.extract (2 ^ k) (2 ^ (k + 1))).size = 2 ^ k := by
        rw [Array.size_extract]
        omega
      unfold layersDown
      rcases Nat.eq_or_lt_of_le (Nat.le_of_lt_succ hj) with rfl | hlt
      · rw [show 2 ^ (j + 1) - 2 * 2 ^ j + i = i by omega,
          getD_append_left _ _ _ (hsize.symm ▸ hi), getD_extract _ _ (by omega) h]
      · have hle := two_mul_two_pow_le hlt
        have hskip : 2 ^ (k + 1) - 2 * 2 ^ j + i =
            (table.extract (2 ^ k) (2 ^ (k + 1))).size + (2 ^ k - 2 * 2 ^ j + i) := by
          omega
        rw [hskip, getD_append_right, ih (by omega) hlt]

/-- The entries of the layers are entries of the table. -/
theorem mem_of_mem_layersDown {x : Word} (h : x ∈ layersDown table k) : x ∈ table := by
  induction k with
  | zero => simp [layersDown] at h
  | succ k ih =>
      rw [layersDown, Array.mem_append] at h
      rcases h with h | h
      · exact mem_of_mem_extract h
      · exact ih h

/-- Putting the layers in the inverse order loses no entry. -/
theorem size_inverseOrder (h : 2 ^ k ≤ table.size) : (inverseOrder k table).size = 2 ^ k := by
  have := Nat.two_pow_pos k
  have := size_layersDown h
  rw [inverseOrder_eq, Array.size_append, Array.size_extract]
  omega

/-- A layer with `2^j` groups reads the entries of its own layer of the table. -/
theorem getD_inverseOrder (h : 2 ^ k ≤ table.size) {i j : ℕ} (hj : j < k) (hi : i < 2 ^ j) :
    (inverseOrder k table).getD (2 ^ k - 2 * 2 ^ j + 1 + i) 0 = table.getD (2 ^ j + i) 0 := by
  have hpos := Nat.two_pow_pos k
  have hfirst : (table.extract 0 1).size = 1 := by
    rw [Array.size_extract]
    omega
  have hskip : 2 ^ k - 2 * 2 ^ j + 1 + i = (table.extract 0 1).size + (2 ^ k - 2 * 2 ^ j + i) := by
    omega
  rw [inverseOrder_eq, hskip, getD_append_right, getD_layersDown h hj hi]

/-- Putting the layers in the inverse order makes no entry. -/
theorem mem_of_mem_inverseOrder {x : Word} (h : x ∈ inverseOrder k table) : x ∈ table := by
  rw [inverseOrder_eq, Array.mem_append] at h
  rcases h with h | h
  · exact mem_of_mem_extract h
  · exact mem_of_mem_layersDown h

/-- The entries of an inverse layer invert those of the same layer of the forward table. -/
theorem residue_inverseOrder_mul (hq : q ≠ 0) {phi : Word}
    (hinv : residue q phi * residue q psi = 1) {i j : ℕ} (hj : j < k) (hi : i < 2 ^ j) :
    residue q ((inverseOrder k (reversedPowers q phi k)).getD (2 ^ k - 2 * 2 ^ j + 1 + i) 0) *
      residue q psi ^ bitReverse k (2 ^ j + i) = 1 := by
  have hle := two_mul_two_pow_le hj
  have hlt : 2 ^ j + i < 2 ^ k := by omega
  rw [getD_inverseOrder (size_reversedPowers q phi k).ge hj hi, residue_reversedPowers hq _ hlt,
    ← mul_pow, hinv, one_pow]

end inverseOrder

/-! ### Tables of multipliers -/

section multipliers

variable {table : Array Word} {i : ℕ}

/-- A table of multipliers is read as the multiplier of the word. -/
theorem getD_map_ofResidue (p : Precision) (q : Word) (hi : i < table.size) :
    (table.map (Multiplier.ofResidue p q)).getD i default =
      Multiplier.ofResidue p q (table.getD i 0) :=
  getD_map _ 0 default hi

/-- The multipliers of a table of residues are proper. -/
theorem proper_map_ofResidue {p : Precision} (htable : ∀ x ∈ table, x.toNat < q.toNat)
    (hi : i < table.size) :
    ((table.map (Multiplier.ofResidue p q)).getD i default).Proper p q := by
  rw [getD_map_ofResidue p q hi]
  exact Multiplier.proper_ofResidue (htable _ (getD_mem hi 0))

end multipliers

/-- What the tables of a transform of `2^K` words hold. -/
structure WellFormed (T : Transform) (K : ℕ) : Prop extends T.Complete K where
  degree_pos : 0 < K
  one_lt : 1 < T.modulus.toNat
  spacious : Spacious T.precision T.modulus
  /-- The half-order power of the root. -/
  root_pow : residue T.modulus T.root ^ 2 ^ K = -1
  proper_roots : ∀ i < 2 ^ K, (T.roots.getD i default).Proper T.precision T.modulus
  residue_roots : ∀ i < 2 ^ K,
    residue T.modulus (T.roots.getD i default).value =
      residue T.modulus T.root ^ bitReverse K i
  proper_inverseRoots : ∀ i < 2 ^ K, (T.inverseRoots.getD i default).Proper T.precision T.modulus
  /-- The entries of one layer invert those of the forward table. -/
  residue_inverseRoots : ∀ j < K, ∀ i < 2 ^ j,
    residue T.modulus (T.inverseRoots.getD (2 ^ K - 2 * 2 ^ j + 1 + i) default).value *
      residue T.modulus T.root ^ bitReverse K (2 ^ j + i) = 1
  proper_scale : T.scale.Proper T.precision T.modulus
  residue_scale : residue T.modulus T.scale.value * (2 ^ K : ZMod T.modulus.toNat) = 1
  proper_scaleRoot : T.scaleRoot.Proper T.precision T.modulus
  residue_scaleRoot : residue T.modulus T.scaleRoot.value =
    residue T.modulus T.scale.value *
      residue T.modulus (T.inverseRoots.getD (2 ^ K - 1) default).value

/-- What the tables of a transform have to give its layers. -/
structure Proper (T : Transform) : Prop where
  modulus_pos : 0 < T.modulus.toNat
  spacious : Spacious T.precision T.modulus
  roots : ∀ w ∈ T.roots, w.Proper T.precision T.modulus
  inverseRoots : ∀ w ∈ T.inverseRoots, w.Proper T.precision T.modulus
  copies : ∀ w ∈ T.replicated.roots, w.Proper T.precision T.modulus
  inverseCopies : ∀ w ∈ T.replicated.inverseRoots, w.Proper T.precision T.modulus
  scale : T.scale.Proper T.precision T.modulus
  scaleRoot : T.scaleRoot.Proper T.precision T.modulus

/-- Well-formed tables hold proper multipliers only. -/
theorem WellFormed.proper {T : Transform} {K : ℕ} (hT : T.WellFormed K) :
    T.Proper := by
  have hroots : ∀ w ∈ T.roots, w.Proper T.precision T.modulus :=
    forall_mem_of_getD fun i hi => hT.proper_roots i (hT.size_roots ▸ hi)
  have hinverse : ∀ w ∈ T.inverseRoots, w.Proper T.precision T.modulus :=
    forall_mem_of_getD fun i hi => hT.proper_inverseRoots i (hT.size_inverseRoots ▸ hi)
  refine
    { modulus_pos := Nat.lt_of_succ_lt hT.one_lt
      spacious := hT.spacious
      roots := hroots
      inverseRoots := hinverse
      copies := ?_
      inverseCopies := ?_
      scale := hT.proper_scale
      scaleRoot := hT.proper_scaleRoot }
  · intro w hw
    rw [hT.replicated_eq, Replicated.ofTables] at hw
    split_ifs at hw
    · exact hroots w (Replicated.mem_of_mem_expand hw)
    · simp at hw
  · intro w hw
    rw [hT.replicated_eq, Replicated.ofTables] at hw
    split_ifs at hw
    · exact hinverse w (Replicated.mem_of_mem_expand hw)
    · simp at hw

section ofTables

variable {n : ℕ} {p : Precision} {T : Transform}

/-- The two inverses that the tables are built on. -/
theorem ofTables_eq_ok (h : ofTables n q psi p = .ok T) :
    ∃ inverseRoot scale, Residue.inverse? q psi = some inverseRoot ∧
      Residue.inverse? q (.ofNat n) = some scale ∧
      T.degree = n ∧ T.modulus = q ∧ T.precision = p ∧ T.root = psi ∧
      T.roots = (reversedPowers q psi n.log2).map (Multiplier.ofResidue p q) ∧
      T.inverseRoots = (inverseOrder n.log2 (reversedPowers q inverseRoot n.log2)).map
        (Multiplier.ofResidue p q) ∧
      T.scale = Multiplier.ofResidue p q scale ∧
      T.scaleRoot = Multiplier.ofResidue p q
        (Residue.mul q scale (T.inverseRoots.getD (n - 1) default).value) ∧
      T.replicated = Replicated.ofTables n T.roots T.inverseRoots := by
  unfold ofTables invert at h
  rcases hroot : Residue.inverse? q psi with _ | inverseRoot
  · rw [hroot] at h
    cases h
  rcases hscale : Residue.inverse? q (.ofNat n) with _ | scale
  · rw [hroot, hscale] at h
    cases h
  rw [hroot, hscale] at h
  cases h
  exact ⟨inverseRoot, scale, rfl, rfl, rfl, rfl, rfl, rfl, rfl, rfl, rfl, rfl, rfl⟩

/-- A modulus that is 1 modulo `2 * n` is above it. -/
theorem two_mul_lt_of_mod_eq_one (hq : 1 < q.toNat) (hcongr : q.toNat % (2 * n) = 1) :
    2 * n < q.toNat := by
  by_contra hle
  rcases Nat.eq_or_lt_of_le (Nat.le_of_not_lt hle) with heq | hlt
  · rw [heq, Nat.mod_self] at hcongr
    omega
  · rw [Nat.mod_eq_of_lt hlt] at hcongr
    omega

/-- The two inverses exist if the modulus is 1 modulo twice the size and the power of the root to
the size is `-1`. -/
theorem exists_ofTables_eq_ok {K : ℕ} (hq : 1 < q.toNat)
    (hcongr : q.toNat % (2 * 2 ^ K) = 1) (hpsi : residue q psi ^ 2 ^ K = -1) :
    ∃ T, ofTables (2 ^ K) q psi p = .ok T := by
  have hlt := two_mul_lt_of_mod_eq_one hq hcongr
  have hword := q.toNat_lt
  have hunit : IsUnit (residue q psi) := by
    rw [← isUnit_pow_iff (Nat.two_pow_pos K).ne', hpsi]
    exact isUnit_one.neg
  have hroot : Nat.Coprime q.toNat psi.toNat := ((ZMod.isUnit_iff_coprime _ _).1 hunit).symm
  have hdegree : Nat.Coprime q.toNat (UInt64.ofNat (2 ^ K)).toNat := by
    have htwice : Nat.Coprime (2 * 2 ^ K) q.toNat := by
      rw [Nat.Coprime, Nat.gcd_rec, hcongr, Nat.gcd_one_left]
    rw [UInt64.toNat_ofNat', Nat.mod_eq_of_lt (by omega)]
    exact htwice.coprime_mul_left.symm
  obtain ⟨inverseRoot, hinverse⟩ := exists_inverse? hq hroot
  obtain ⟨scale, hscale⟩ := exists_inverse? hq hdegree
  unfold ofTables invert
  rw [hinverse, hscale]
  exact ⟨_, rfl⟩

/-- The tables of a root whose power to the size is `-1`. -/
theorem ofTables_wellFormed {K : ℕ} (hpos : 0 < K) (hword : 2 ^ K < 2 ^ 64) (hq : 1 < q.toNat)
    (hspace : Spacious p q) (hpsi : residue q psi ^ 2 ^ K = -1)
    (h : ofTables (2 ^ K) q psi p = .ok T) : T.WellFormed K := by
  obtain ⟨inverseRoot, scale, hinv, hscale, hdegree, rfl, rfl, rfl, hroots, hinverse, hscaleEq,
    hscaleRoot, hreplicated⟩ := ofTables_eq_ok h
  obtain ⟨-, hinvMul⟩ := inverse?_spec hinv
  obtain ⟨hscaleLt, hscaleMul⟩ := inverse?_spec hscale
  rw [Nat.log2_two_pow] at hroots hinverse
  have hne := ne_zero_of_one_lt hq
  have hsize := size_reversedPowers T.modulus T.root K
  have hsizeInv := size_reversedPowers T.modulus inverseRoot K
  have hsizeOrder := size_inverseOrder hsizeInv.ge
  refine
    { degree_eq := hdegree
      size_roots := by rw [hroots, Array.size_map, hsize]
      size_inverseRoots := by rw [hinverse, Array.size_map, hsizeOrder]
      replicated_eq := by rw [hreplicated, hdegree]
      degree_pos := hpos
      one_lt := hq
      spacious := hspace
      root_pow := hpsi
      proper_roots := ?_
      residue_roots := ?_
      proper_inverseRoots := ?_
      residue_inverseRoots := ?_
      proper_scale := ?_
      residue_scale := ?_
      proper_scaleRoot := ?_
      residue_scaleRoot := ?_ }
  · intro i hi
    rw [hroots]
    exact proper_map_ofResidue (fun x hx => toNat_lt_of_mem_reversedPowers hq _ hx)
      (hsize.symm ▸ hi)
  · intro i hi
    rw [hroots, getD_map_ofResidue _ _ (hsize.symm ▸ hi)]
    exact residue_reversedPowers hne _ hi
  · intro i hi
    rw [hinverse]
    refine proper_map_ofResidue ?_ (hsizeOrder.symm ▸ hi)
    intro x hx
    exact toNat_lt_of_mem_reversedPowers hq _ (mem_of_mem_inverseOrder hx)
  · intro j hj i hi
    have hle := two_mul_two_pow_le hj
    have hlt : 2 ^ K - 2 * 2 ^ j + 1 + i < 2 ^ K := by omega
    rw [hinverse, getD_map_ofResidue _ _ (hsizeOrder.symm ▸ hlt)]
    exact residue_inverseOrder_mul hne hinvMul hj hi
  · rw [hscaleEq]
    exact Multiplier.proper_ofResidue hscaleLt
  · rw [residue_ofNat hword, Nat.cast_pow, Nat.cast_ofNat] at hscaleMul
    rw [hscaleEq]
    exact hscaleMul
  · rw [hscaleRoot]
    exact Multiplier.proper_ofResidue (toNat_mul_lt hne _ _)
  · rw [hscaleRoot, hscaleEq]
    exact residue_mul hne _ _

end ofTables

end Transform

end Negacyclic
