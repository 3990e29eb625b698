import Mathlib.Tactic.NormNum.Prime
import Mathlib.Tactic.SplitIfs
import Negacyclic.Proofs.Root
import Negacyclic.Proofs.Transform.Tables
import Negacyclic.Transform.Construction

/-!
# Transforms that are built

`Transform.Built` says that a transform comes from one of the three constructions, with a given test
for primality. Whichever it is and whatever the test, its size is a power of two from 2 to `2^20`
and its tables are well formed (`Built.wellFormed`).
The facts about a transform that the theory of its runs starts from are all in
`Transform.WellFormed`; that the modulus is prime is not among them.
-/

namespace Negacyclic

/-- The test that is right about every word. -/
def Prime.exactTest (q : Word) : Bool :=
  decide q.toNat.Prime

/-- The test by decision is exact on words. -/
theorem Prime.exactTest_iff {q : Word} : Prime.exactTest q = true ↔ q.toNat.Prime :=
  decide_eq_true_iff

namespace Transform

variable {isPrime : Word → Bool} {n : ℕ} {q : Word} {p : Precision} {T : Transform}

/-- The transform is the result of a construction with the test `isPrime`. -/
inductive Built (isPrime : Word → Bool) (T : Transform) : Prop where
  | ofModulus {n : ℕ} {q : Word} (h : ofModulus isPrime n q = .ok T)
  | ofRoot {n : ℕ} {q root : Word} (h : ofRoot isPrime n q root = .ok T)
  | ofPrecision {n : ℕ} {q : Word} {bits : ℕ} (h : ofPrecision isPrime n q bits = .ok T)

/-! ### Checks that pass -/

/-- Both parts of a check that passes have passed. -/
theorem exists_of_bind_eq_ok {α β : Type} {x : Except Fault α} {f : α → Except Fault β} {b : β}
    (h : x >>= f = .ok b) : ∃ a, x = .ok a ∧ f a = .ok b := by
  cases x with
  | ok a => exact ⟨a, rfl, h⟩
  | error fault => exact nomatch h

/-- A degree that is accepted is `2^K` for a `K` from 1 to 20. -/
theorem checkDegree_eq_ok (h : checkDegree n = .ok ()) : ∃ K, 0 < K ∧ K ≤ 20 ∧ n = 2 ^ K := by
  unfold checkDegree at h
  split_ifs at h with hn
  obtain ⟨htwo, hmax, hpow⟩ := hn
  obtain ⟨K, rfl⟩ := isPowerOfTwo_iff.1 hpow
  refine ⟨K, Nat.pos_of_ne_zero ?_, ?_, rfl⟩
  · rintro rfl
    exact absurd htwo (by decide)
  · exact (Nat.pow_le_pow_iff_right (by omega)).1 hmax

/-- What is known of a modulus that is accepted. The last part is what the test says, whatever that
means. -/
theorem checkModulus_eq_ok (h : checkModulus isPrime n q p = .ok ()) :
    1 < q.toNat ∧ Spacious p q ∧ q.toNat % (2 * n) = 1 ∧ isPrime q = true := by
  unfold checkModulus at h
  obtain ⟨_, hrange, h⟩ := exists_of_bind_eq_ok h
  unfold checkRange at hrange
  split_ifs at hrange with hq
  dsimp only at h
  by_cases hcongr : q.toNat % (2 * n) = 1
  · rw [if_neg (not_not.2 hcongr)] at h
    cases hprime : isPrime q with
    | false =>
        rw [hprime] at h
        cases h
    | true => exact ⟨hq.1, hq.2, hcongr, rfl⟩
  · rw [if_pos hcongr] at h
    cases h

/-- The root with which a construction goes on is the answer of the search. -/
theorem leastRoot_eq_ok {root : Word} (h : leastRoot n q = .ok root) :
    leastPrimitiveRoot? q (2 * n) = some root := by
  unfold leastRoot at h
  split at h
  · cases h
    assumption
  · cases h

/-! ### The three constructions -/

/-- What the three constructions have in common: the checks of the parameters, a root, tables. -/
theorem Built.exists_ofTables (h : T.Built isPrime) :
    ∃ n q psi p, checkDegree n = .ok () ∧ checkModulus isPrime n q p = .ok () ∧
      residue q psi ^ n = -1 ∧ ofTables n q psi p = .ok T := by
  have hhalf (n : ℕ) : 2 * n / 2 = n := by omega
  cases h with
  | @ofModulus n q h =>
      obtain ⟨_, hdegree, h⟩ := exists_of_bind_eq_ok h
      obtain ⟨_, -, h⟩ := exists_of_bind_eq_ok h
      obtain ⟨_, hmodulus, h⟩ := exists_of_bind_eq_ok h
      obtain ⟨psi, hroot, h⟩ := exists_of_bind_eq_ok h
      have hpow := residue_pow_of_leastPrimitiveRoot? (leastRoot_eq_ok hroot)
      rw [hhalf] at hpow
      exact ⟨n, q, psi, _, hdegree, hmodulus, hpow, h⟩
  | @ofRoot n q psi h =>
      obtain ⟨_, hdegree, h⟩ := exists_of_bind_eq_ok h
      obtain ⟨_, -, h⟩ := exists_of_bind_eq_ok h
      obtain ⟨_, hmodulus, h⟩ := exists_of_bind_eq_ok h
      dsimp only at h
      split_ifs at h with hbad
      · cases h
      have hq := ne_zero_of_one_lt (checkModulus_eq_ok hmodulus).1
      have hroot : isPrimitiveRoot q psi (2 * n) = true := by
        by_contra hno
        exact hbad (.inr (by simpa using hno))
      have hpow := residue_pow_of_isPrimitiveRoot hq hroot
      rw [hhalf] at hpow
      exact ⟨n, q, psi, _, hdegree, hmodulus, hpow, h⟩
  | @ofPrecision n q bits h =>
      unfold Transform.ofPrecision at h
      split at h
      · obtain ⟨_, hdegree, h⟩ := exists_of_bind_eq_ok h
        obtain ⟨_, hmodulus, h⟩ := exists_of_bind_eq_ok h
        obtain ⟨psi, hroot, h⟩ := exists_of_bind_eq_ok h
        have hpow := residue_pow_of_leastPrimitiveRoot? (leastRoot_eq_ok hroot)
        rw [hhalf] at hpow
        exact ⟨n, q, psi, _, hdegree, hmodulus, hpow, h⟩
      · cases h

/-- The tables of a transform that is built are well formed. -/
theorem Built.wellFormed (h : T.Built isPrime) : ∃ K, K ≤ 20 ∧ T.WellFormed K := by
  obtain ⟨n, q, psi, p, hdegree, hmodulus, hpow, htables⟩ := h.exists_ofTables
  obtain ⟨K, hpos, hK, rfl⟩ := checkDegree_eq_ok hdegree
  obtain ⟨hq, hspace, -, -⟩ := checkModulus_eq_ok hmodulus
  have hword : 2 ^ K < 2 ^ 64 := Nat.pow_lt_pow_right (by omega) (by omega)
  exact ⟨K, hK, ofTables_wellFormed hpos hword hq hspace hpow htables⟩

/-! ### Two transforms -/

/-- The transform of two words modulo 5, with the root 2. -/
def smallest : Transform where
  degree := 2
  modulus := 5
  precision := .bits32
  root := 2
  roots := #[⟨1, 858993459⟩, ⟨2, 1717986918⟩]
  inverseRoots := #[⟨1, 858993459⟩, ⟨3, 2576980377⟩]
  scale := ⟨3, 2576980377⟩
  scaleRoot := ⟨4, 3435973836⟩
  replicated := ⟨#[], #[]⟩

/-- The tables of `smallest` are those of its root. -/
example : ofTables 2 5 2 .bits32 = .ok smallest := by
  cbv

/-- The transform of 2048 words modulo 12289 with the root 1331, whose inverse is 7968. It is deep
enough that the recursion cuts it into blocks and wide enough for registers of eight words. -/
def deep : Transform :=
  let multiplier := Multiplier.ofResidue .bits32 12289
  let roots := (reversedPowers 12289 1331 11).map multiplier
  let inverseRoots := (inverseOrder 11 (reversedPowers 12289 7968 11)).map multiplier
  { degree := 2048
    modulus := 12289
    precision := .bits32
    root := 1331
    roots := roots
    inverseRoots := inverseRoots
    scale := multiplier 12283
    scaleRoot := multiplier
      (Residue.mul 12289 12283 (inverseRoots.getD (2048 - 1) default).value)
    replicated := Replicated.ofTables 2048 roots inverseRoots }

/-- The tables of `deep` are those of its root. -/
theorem ofTables_deep : ofTables 2048 12289 1331 .bits32 = .ok deep := by
  have hroot : Residue.inverse? 12289 1331 = some 7968 := by cbv
  have hdegree : Residue.inverse? 12289 (.ofNat 2048) = some 12283 := by cbv
  have hlog : Nat.log2 2048 = 11 := by decide
  unfold ofTables invert
  rw [hroot, hdegree, hlog]
  rfl

/-- The word 1331 is a primitive root of order 4096 modulo 12289. -/
theorem isPrimitiveRoot_deep : isPrimitiveRoot 12289 1331 (2 * 2048) = true := by
  have hpow : Residue.pow 12289 1331 (2 * 2048 / 2) = 12289 - 1 := by cbv
  have horder : isRootOrder (2 * 2048) = true := by
    unfold isRootOrder
    rw [isPowerOfTwo_iff.2 ⟨12, rfl⟩]
    rfl
  unfold isPrimitiveRoot
  rw [hpow, horder]
  rfl

/-- The modulus 12289 is accepted for the degree 2048: it is prime, and 1 modulo 4096. -/
theorem checkModulus_deep : checkModulus Prime.exactTest 2048 12289 .bits32 = .ok () := by
  have hprime : Nat.Prime 12289 := by norm_num
  have htest : Prime.exactTest 12289 = true := Prime.exactTest_iff.2 hprime
  have hrange : checkRange 12289 (Precision.bits32.bits - 2) = .ok () :=
    if_pos ⟨by decide, by decide⟩
  unfold checkModulus
  rw [htest, hrange]
  rfl

/-- The construction from the root 1331 arrives at `deep`. -/
theorem ofRoot_deep : ofRoot Prime.exactTest 2048 12289 1331 = .ok deep := by
  have hdegree : checkDegree 2048 = .ok () :=
    if_pos ⟨by decide, by decide, isPowerOfTwo_iff.2 ⟨11, rfl⟩⟩
  have hrange : checkRange 12289 62 = .ok () := if_pos ⟨by decide, by decide⟩
  have hprecision : Precision.forModulus 12289 = .bits32 := by decide
  have hroot : ¬((12289 : Word) ≤ 1331 ∨ (!isPrimitiveRoot 12289 1331 (2 * 2048)) = true) := by
    rw [isPrimitiveRoot_deep]
    decide
  unfold ofRoot
  rw [hdegree, hrange, hprecision]
  dsimp only
  rw [if_neg hroot, checkModulus_deep]
  exact ofTables_deep

/-- So `deep` is a transform that is built. -/
theorem deep_built : deep.Built Prime.exactTest :=
  .ofRoot ofRoot_deep

/-- An operand that holds one word over and over. -/
theorem toNat_lt_of_mem_replicate {m bound : ℕ} {v : Word} (hv : v.toNat < bound) :
    ∀ x ∈ Array.replicate m v, x.toNat < bound := by
  intro x hx
  rwa [Array.eq_of_mem_replicate hx]

end Transform

end Negacyclic
