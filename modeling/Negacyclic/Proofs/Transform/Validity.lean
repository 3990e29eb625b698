import Negacyclic.Proofs.Check
import Negacyclic.Proofs.PrimitiveRoot
import Negacyclic.Proofs.Transform.Construction

/-!
# Which transforms can be built

A construction looks at its parameters in a fixed order and has the fault of the first check that
does not hold. If all hold it gives a transform: with the narrowest precision or the one asked for,
and with the least root of the order asked for or the one given (`constructions_exact`). The test
for primality is any function on words; all that is taken for granted is that it is right about the
modulus.

So the two faults that a search or an inversion could have do not occur. For a prime `q` that is 1
modulo `2 * n` there is a root of order `2 * n` below `q`, and neither a power of it nor `n` is a
multiple of `q`. The second look at the range of the modulus, after the narrowest precision has
been chosen for it, never fails either.
-/

namespace Negacyclic.Transform

variable {isPrime : Word → Bool} {n bits K : ℕ} {q root psi : Word} {p : Precision}
  {T : Transform}

/-! ### The checks -/

/-- The size is a power of two from 2 to `2^20`. -/
def degreeCheck (n : ℕ) : Check :=
  .of (2 ≤ n ∧ n ≤ 2 ^ 20 ∧ ∃ k, n = 2 ^ k) (.invalidDegree n)

/-- The modulus is 1 modulo `2 * n`. -/
def congruenceCheck (n : ℕ) (q : Word) : Check :=
  .of (q.toNat % (2 * n) = 1) (.notCongruent q n)

/-- The modulus is prime. -/
def primeCheck (q : Word) : Check :=
  .of q.toNat.Prime (.notPrime q)

/-- The root is a residue of order `2 * n`. -/
def rootCheck (n : ℕ) (q root : Word) : Check :=
  .of (root.toNat < q.toNat ∧ orderOf (residue q root) = 2 * n)
    (.notPrimitiveRoot root (2 * n) q)

/-- The precision is one of the three. -/
def precisionCheck (bits : ℕ) : Check :=
  .of (bits = 32 ∨ bits = 52 ∨ bits = 64) (.unsupportedPrecision bits)

/-! ### What is built -/

/-- A precision is the least that leaves two spare bits above the modulus. -/
def IsNarrowest (q : Word) (p : Precision) : Prop :=
  IsLeast {bits : ℕ | (bits = 32 ∨ bits = 52 ∨ bits = 64) ∧ q.toNat < 2 ^ (bits - 2)} p.bits

/-- A root is the least residue of its order. -/
def IsLeastRoot (q : Word) (order : ℕ) (root : Word) : Prop :=
  IsLeast {x : ℕ | x < q.toNat ∧ orderOf (x : ZMod q.toNat) = order} root.toNat

/-- A transform of size `n` modulo `q` for whose tables all was there: the residues that have to be
inverted have inverses, and each entry is the multiplier of a residue. -/
structure Fits (n : ℕ) (q : Word) (T : Transform) : Prop where
  degree_eq : T.degree = n
  modulus_eq : T.modulus = q
  degree_invertible : ∃ y, Residue.inverse? q (.ofNat n) = some y
  root_invertible : ∀ w ∈ T.roots, ∃ y, Residue.inverse? q w.value = some y
  entries : ∀ w, w ∈ T.roots ∨ w ∈ T.inverseRoots ∨ w = T.scale ∨ w = T.scaleRoot →
    Multiplier.of? T.precision.bits q w.value = some w

/-! ### The tests -/

/-- The test of the degree and its check ask the same. -/
theorem test_degree (n : ℕ) : Test (checkDegree n) (degreeCheck n) := by
  have hiff : (2 ≤ n ∧ n ≤ maxDegree ∧ isPowerOfTwo n = true) ↔ (degreeCheck n).Holds := by
    rw [isPowerOfTwo_iff]
    rfl
  refine ⟨fun h => if_pos (hiff.2 h), fun h => ⟨_, if_neg fun h' => h (hiff.1 h'), fun g => ?_⟩⟩
  rfl

/-- The test of the range of the modulus and its check ask the same. -/
theorem test_range (q : Word) (bits : ℕ) : Test (checkRange q bits) (Check.modulus q bits) :=
  Test.ite _ _

/-- The test of the modulus against the degree and its check ask the same. -/
theorem test_congruence (n : ℕ) (q : Word) :
    Test (if q.toNat % (2 * n) = 1 then .ok () else .error (.notCongruent q n))
      (congruenceCheck n q) :=
  Test.ite _ _

/-- A test that is right about the modulus tests whether it is prime. This is the one use of the
hypothesis. -/
theorem test_prime (hexact : isPrime q = true ↔ q.toNat.Prime) :
    Test (if isPrime q then .ok () else .error (.notPrime q)) (primeCheck q) where
  ok h := if_pos (hexact.2 h)
  error h := ⟨_, if_neg fun h' => h (hexact.1 h'), fun _ => Iff.rfl⟩

/-- The three looks at the modulus. -/
theorem checkModulus_eq (isPrime : Word → Bool) (n : ℕ) (q : Word) (p : Precision) :
    checkModulus isPrime n q p = (do
      checkRange q (p.bits - 2)
      (if q.toNat % (2 * n) = 1 then .ok () else .error (.notCongruent q n) : Except Fault Unit)
      (if isPrime q then .ok () else .error (.notPrime q) : Except Fault Unit)) := by
  unfold checkModulus
  congr 1
  funext _
  dsimp only
  by_cases hcongr : q.toNat % (2 * n) = 1
  · rw [if_neg (not_not.2 hcongr), if_pos hcongr]
    cases isPrime q <;> rfl
  · rw [if_pos hcongr, if_neg hcongr]
    rfl

/-! ### A prime modulus -/

section prime

variable [Fact q.toNat.Prime]

/-- What is not a multiple of a prime modulus has an inverse. -/
theorem exists_inverse?_of_ne_zero {x : Word} (hx : residue q x ≠ 0) :
    ∃ y, Residue.inverse? q x = some y := by
  have hprime : q.toNat.Prime := Fact.out
  refine exists_inverse? hprime.one_lt ((Nat.Prime.coprime_iff_not_dvd hprime).2 fun hdvd => ?_)
  exact hx ((ZMod.natCast_eq_zero_iff _ _).2 hdvd)

/-- The tables of a root of order `2 * n` are built. -/
theorem exists_ofTables (hdegree : (degreeCheck n).Holds) (hcongr : q.toNat % (2 * n) = 1)
    (hspace : Spacious p q) (horder : orderOf (residue q psi) = 2 * n) :
    ∃ T, ofTables n q psi p = .ok T ∧ T.Fits n q ∧ T.precision = p ∧ T.root = psi := by
  obtain ⟨htwo, -, K, rfl⟩ := hdegree
  have hK : 0 < K := Nat.pos_of_ne_zero (by
    rintro rfl
    exact absurd htwo (by decide))
  have hone : 1 < q.toNat := (Fact.out : q.toNat.Prime).one_lt
  have hsize := two_mul_lt_of_mod_eq_one hone hcongr
  have hpos := Nat.two_pow_pos K
  have hword : 2 ^ K < 2 ^ 64 := by
    have := q.toNat_lt
    omega
  have hneg : residue q psi ^ 2 ^ K = -1 :=
    (pow_eq_neg_one_iff_orderOf (two_ne_zero_of_lt (by omega)) _ K).2 horder
  have hpsi : residue q psi ≠ 0 := by
    intro h
    rw [h, zero_pow hpos.ne'] at hneg
    exact neg_ne_zero.2 one_ne_zero hneg.symm
  obtain ⟨T, hT⟩ := exists_ofTables_eq_ok (p := p) hone hcongr hneg
  have hformed := ofTables_wellFormed hK hword hone hspace hneg hT
  have hproper := hformed.proper
  obtain ⟨-, scale, -, hscale, hdegreeEq, rfl, rfl, rfl, -⟩ := ofTables_eq_ok hT
  refine ⟨T, hT, ?_, rfl, rfl⟩
  refine
    { degree_eq := hdegreeEq
      modulus_eq := rfl
      degree_invertible := ⟨scale, hscale⟩
      root_invertible := ?_
      entries := ?_ }
  · refine forall_mem_of_getD (d := default) fun i hi => exists_inverse?_of_ne_zero ?_
    rw [hformed.residue_roots i (hformed.size_roots ▸ hi)]
    exact pow_ne_zero _ hpsi
  · rintro w (hw | hw | rfl | rfl)
    · exact (hproper.roots w hw).of?_eq
    · exact (hproper.inverseRoots w hw).of?_eq
    · exact hproper.scale.of?_eq
    · exact hproper.scaleRoot.of?_eq

/-- The search for the least root ends. -/
theorem exists_leastRoot (hdegree : (degreeCheck n).Holds) (hcongr : q.toNat % (2 * n) = 1) :
    ∃ root, leastRoot n q = .ok root ∧ IsLeastRoot q (2 * n) root := by
  obtain ⟨-, -, K, rfl⟩ := hdegree
  obtain ⟨root, hroot, hleast⟩ := leastPrimitiveRoot?_isLeast hcongr
  refine ⟨root, ?_, hleast⟩
  unfold leastRoot
  rw [hroot]

/-- The test of a given root is its check. -/
theorem rootCheck_iff (hdegree : (degreeCheck n).Holds) (hcongr : q.toNat % (2 * n) = 1) :
    (rootCheck n q root).Holds ↔ ¬(q ≤ root ∨ (!isPrimitiveRoot q root (2 * n)) = true) := by
  have hlt := two_mul_lt_of_mod_eq_one (Fact.out : q.toNat.Prime).one_lt hcongr
  obtain ⟨htwo, -, K, rfl⟩ := hdegree
  rw [not_or, UInt64.not_le, UInt64.lt_iff_toNat_lt, Bool.not_eq_true', Bool.not_eq_false,
    isPrimitiveRoot_iff (by omega)]
  rfl

end prime

/-! ### Precisions -/

/-- A number of bits is accepted exactly if there is such a precision. -/
theorem precisionCheck_iff :
    (precisionCheck bits).Holds ↔ ∃ p, Precision.ofBits? bits = some p := by
  constructor
  · rintro (rfl | rfl | rfl)
    · exact ⟨.bits32, rfl⟩
    · exact ⟨.bits52, rfl⟩
    · exact ⟨.bits64, rfl⟩
  · rintro ⟨p, hp⟩
    rw [← Precision.bits_of_ofBits? hp]
    change p.bits = 32 ∨ p.bits = 52 ∨ p.bits = 64
    cases p <;> decide

/-- The precision that is chosen for a modulus is the least with room for four times it. -/
theorem isNarrowest_forModulus (hq : q.toNat < 2 ^ 62) :
    IsNarrowest q (Precision.forModulus q) := by
  unfold IsNarrowest Precision.forModulus
  split_ifs with h30 h50
  · refine ⟨⟨.inl rfl, h30⟩, ?_⟩
    rintro bits ⟨rfl | rfl | rfl, -⟩ <;> decide
  · refine ⟨⟨.inr (.inl rfl), h50⟩, ?_⟩
    rintro bits ⟨rfl | rfl | rfl, hlt⟩
    · exact absurd hlt h30
    · exact le_rfl
    · decide
  · refine ⟨⟨.inr (.inr rfl), hq⟩, ?_⟩
    rintro bits ⟨rfl | rfl | rfl, hlt⟩
    · exact absurd hlt h30
    · exact absurd hlt h50
    · exact le_rfl

/-! ### The constructions -/

section constructions

variable {α : Type} {rest : Except Fault α} {cs : List Check} {good : α → Prop}

/-- The three looks at a modulus. -/
theorem decides_modulus (hexact : isPrime q = true ↔ q.toNat.Prime)
    (h : (Check.modulus q (p.bits - 2)).Holds → q.toNat % (2 * n) = 1 → q.toNat.Prime →
      Decides rest cs good) :
    Decides (checkModulus isPrime n q p >>= fun _ => rest)
      (Check.modulus q (p.bits - 2) :: congruenceCheck n q :: primeCheck q :: cs) good := by
  rw [checkModulus_eq]
  simp only [bind_assoc]
  exact Decides.cons (test_range q _) fun hrange =>
    Decides.cons (test_congruence n q) fun hcongr =>
      Decides.cons (test_prime hexact) fun hprime => h hrange hcongr hprime

end constructions

section exact

variable (hexact : isPrime q = true ↔ q.toNat.Prime)

include hexact

/-- The construction from a modulus looks at four checks. If they hold there is a least root of
order twice the degree, and it leads to tables. -/
theorem ofModulus_decides (n : ℕ) :
    Decides (ofModulus isPrime n q)
      [degreeCheck n, .modulus q 62, congruenceCheck n q, primeCheck q]
      fun T => T.Fits n q ∧ IsNarrowest q T.precision ∧ IsLeastRoot q (2 * n) T.root := by
  unfold ofModulus
  refine Decides.cons (test_degree n) fun hdegree => Decides.cons (test_range q 62) fun hq => ?_
  have hnarrow := isNarrowest_forModulus hq.2
  have hrange : (Check.modulus q ((Precision.forModulus q).bits - 2)).Holds := ⟨hq.1, hnarrow.1.2⟩
  refine (Decides.cons_iff_of_holds hrange).1
    (decides_modulus hexact fun _ hcongr hprime => ?_)
  have : Fact q.toNat.Prime := ⟨hprime⟩
  obtain ⟨root, hroot, hleast⟩ := exists_leastRoot hdegree hcongr
  obtain ⟨T, hT, hfits, hprecision, rfl⟩ := exists_ofTables hdegree hcongr hrange.2 hleast.1.2
  rw [hroot]
  change Decides (ofTables _ _ _ _) _ _
  rw [hT]
  exact Decides.nil ⟨hfits, hprecision ▸ hnarrow, hleast⟩

/-- The construction from a root looks at the same four checks and then at the root. -/
theorem ofRoot_decides (n : ℕ) (root : Word) :
    Decides (ofRoot isPrime n q root)
      [degreeCheck n, .modulus q 62, congruenceCheck n q, primeCheck q, rootCheck n q root]
      fun T => T.Fits n q ∧ IsNarrowest q T.precision ∧ T.root = root := by
  unfold ofRoot
  refine Decides.cons (test_degree n) fun hdegree => Decides.cons (test_range q 62) fun hq => ?_
  have hnarrow := isNarrowest_forModulus hq.2
  have hrange : (Check.modulus q ((Precision.forModulus q).bits - 2)).Holds := ⟨hq.1, hnarrow.1.2⟩
  refine (Decides.cons_iff_of_holds hrange).1
    (decides_modulus hexact fun _ hcongr hprime => ?_)
  have : Fact q.toNat.Prime := ⟨hprime⟩
  have hroot : (rootCheck n q root).Holds ↔ _ := rootCheck_iff hdegree hcongr
  dsimp only
  split_ifs with hbad
  · exact Decides.refuse (fun h => hroot.1 h hbad) (fun _ => Iff.rfl) []
  · have hcheck := hroot.2 hbad
    obtain ⟨T, hT, hfits, hprecision, hrootEq⟩ :=
      exists_ofTables hdegree hcongr hrange.2 hcheck.2
    rw [hT]
    exact (Decides.cons_iff_of_holds hcheck).2
      (Decides.nil ⟨hfits, hprecision ▸ hnarrow, hrootEq⟩)

/-- The construction at a precision looks at the precision first and at the modulus against its
range. -/
theorem ofPrecision_decides (n bits : ℕ) :
    Decides (ofPrecision isPrime n q bits)
      [precisionCheck bits, degreeCheck n, .modulus q (bits - 2), congruenceCheck n q,
        primeCheck q]
      fun T => T.Fits n q ∧ T.precision.bits = bits ∧ IsLeastRoot q (2 * n) T.root := by
  unfold ofPrecision
  rcases hbits : Precision.ofBits? bits with _ | p
  · refine Decides.refuse (fun h => ?_) (fun _ => Iff.rfl) _
    obtain ⟨p, hp⟩ := precisionCheck_iff.1 h
    rw [hp] at hbits
    cases hbits
  · rw [Decides.cons_iff_of_holds (precisionCheck_iff.2 ⟨p, hbits⟩)]
    obtain rfl := Precision.bits_of_ofBits? hbits
    refine Decides.cons (test_degree n) fun hdegree =>
      decides_modulus hexact fun hrange hcongr hprime => ?_
    have : Fact q.toNat.Prime := ⟨hprime⟩
    obtain ⟨root, hroot, hleast⟩ := exists_leastRoot hdegree hcongr
    obtain ⟨T, hT, hfits, rfl, rfl⟩ := exists_ofTables hdegree hcongr hrange.2 hleast.1.2
    rw [hroot]
    change Decides (ofTables _ _ _ _) _ _
    rw [hT]
    exact Decides.nil ⟨hfits, rfl, hleast⟩

/-- The three constructions. Each has the fault of the first of its checks that does not hold, and
if all hold the transform that it is asked for; a missing root or inverse is never reported. -/
theorem constructions_exact (n : ℕ) (root : Word) (bits : ℕ) :
    Decides (ofModulus isPrime n q)
      [degreeCheck n, .modulus q 62, congruenceCheck n q, primeCheck q]
      (fun T => T.Fits n q ∧ IsNarrowest q T.precision ∧ IsLeastRoot q (2 * n) T.root) ∧
    Decides (ofRoot isPrime n q root)
      [degreeCheck n, .modulus q 62, congruenceCheck n q, primeCheck q, rootCheck n q root]
      (fun T => T.Fits n q ∧ IsNarrowest q T.precision ∧ T.root = root) ∧
    Decides (ofPrecision isPrime n q bits)
      [precisionCheck bits, degreeCheck n, .modulus q (bits - 2), congruenceCheck n q,
        primeCheck q]
      (fun T => T.Fits n q ∧ T.precision.bits = bits ∧ IsLeastRoot q (2 * n) T.root) ∧
    ∀ f, ofModulus isPrime n q = .error f ∨ ofRoot isPrime n q root = .error f ∨
        ofPrecision isPrime n q bits = .error f →
      (∀ order m, f ≠ .noPrimitiveRoot order m) ∧ ∀ x m, f ≠ .notInvertible x m := by
  have hmodulus := ofModulus_decides hexact n
  have hroot := ofRoot_decides hexact n root
  have hprecision := ofPrecision_decides hexact n bits
  refine ⟨hmodulus, hroot, hprecision, ?_⟩
  rintro f (hf | hf | hf)
  · obtain ⟨c, hc, hreport⟩ := ((hmodulus.error_iff f).1 hf).exists_reports
    simp only [List.mem_cons, List.not_mem_nil, or_false] at hc
    rcases hc with rfl | rfl | rfl | rfl <;> cases hreport <;> exact ⟨nofun, nofun⟩
  · obtain ⟨c, hc, hreport⟩ := ((hroot.error_iff f).1 hf).exists_reports
    simp only [List.mem_cons, List.not_mem_nil, or_false] at hc
    rcases hc with rfl | rfl | rfl | rfl | rfl <;> cases hreport <;> exact ⟨nofun, nofun⟩
  · obtain ⟨c, hc, hreport⟩ := ((hprecision.error_iff f).1 hf).exists_reports
    simp only [List.mem_cons, List.not_mem_nil, or_false] at hc
    rcases hc with rfl | rfl | rfl | rfl | rfl <;> cases hreport <;> exact ⟨nofun, nofun⟩

end exact

/-- A modulus that passes every check, a root that is a residue of the right order but not reduced,
and a precision that there is none of. -/
theorem constructions_exact_five :
    (Prime.exactTest 5 = true ↔ (5 : Word).toNat.Prime) ∧
      (∃ T, ofModulus Prime.exactTest 2 5 = .ok T ∧ IsLeastRoot 5 4 T.root) ∧
      ofRoot Prime.exactTest 2 5 7 = .error (.notPrimitiveRoot 7 4 5) ∧
      ofPrecision Prime.exactTest 2 5 33 = .error (.unsupportedPrecision 33) := by
  have hprime : (primeCheck 5).Holds := Nat.prime_five
  have hexact : Prime.exactTest 5 = true ↔ (5 : Word).toNat.Prime := Prime.exactTest_iff
  have hdegree : (degreeCheck 2).Holds := ⟨by decide, by decide, 1, rfl⟩
  have hrange : (Check.modulus 5 62).Holds := ⟨by decide, by decide⟩
  have hcongr : (congruenceCheck 2 5).Holds := by
    change 5 % (2 * 2) = 1
    decide
  obtain ⟨hmodulus, hroot, hprecision, -⟩ := constructions_exact hexact 2 7 33
  obtain ⟨T, hT, -, -, hleast⟩ := hmodulus.ok (by
    simpa only [List.forall_mem_cons, List.not_mem_nil, false_imp_iff, implies_true, and_true]
      using ⟨hdegree, hrange, hcongr, hprime⟩)
  refine ⟨hexact, ⟨T, hT, hleast⟩, ?_, ?_⟩
  · refine (hroot.error_iff _).2
      (.later hdegree (.later hrange (.later hcongr (.later hprime (.here ?_ rfl)))))
    rintro ⟨hlt, -⟩
    exact absurd hlt (by decide)
  · refine (hprecision.error_iff _).2 (.here ?_ rfl)
    rintro (h | h | h) <;> exact absurd h (by decide)

end Negacyclic.Transform
