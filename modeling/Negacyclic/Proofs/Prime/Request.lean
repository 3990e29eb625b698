import Negacyclic.Proofs.Prime.Progression
import Negacyclic.Proofs.Transform.Exact
import Negacyclic.Proofs.Transform.Validity

/-!
# Requests for primes

What a request for primes comes to (`generatePrimes_exact`): the first primes of the progression
that lie in the interval, from the end asked for, and a refusal exactly where the arguments are not
valid or the interval has too few. The test for primality is any function on words; all that is
taken for granted is that it is right about the candidates, and that the array can be had.

The scans of `generatePrimes` are on numbers. `RunsTo` says how words run them, with every sum,
difference and remainder defined, and `runsTo_scanned` that they do so to the end. In particular
the downward scan never comes to a difference below zero, neither at its start nor at its end.
-/

namespace Negacyclic

namespace Prime

variable {isPrime : Word → Bool} {count bitSize : ℕ} {preferSmall : Bool} {size : Word}
  {found : Array Word}

/-! ### The run on words -/

/-- The first candidate upward, as words compute it. -/
def firstUpward? (step lower : Word) : Option Word := do
  let rem ← Word.rem? lower step
  let below ← Word.sub? lower rem
  let c ← Word.add? below 1
  if c < lower then Word.add? c step else some c

/-- The first candidate downward, as words compute it. -/
def firstDownward? (step upper : Word) : Option Word := do
  let last ← Word.sub? upper 1
  let rem ← Word.rem? last step
  let below ← Word.sub? last rem
  let c ← Word.add? below 1
  if upper ≤ c then Word.sub? c step else some c

/-- From the candidate `c`, with `found` so far, a scan ends with `result`. It goes on while
candidates are `inside` and primes are missing, and each turn needs the `next` candidate, also the
last one. -/
inductive Scan (isPrime : Word → Bool) (inside : Word → Prop) (next : Word → Option Word)
    (count : ℕ) :
    Word → Array Word → Array Word → Prop
  | done {c : Word} {found : Array Word} (h : ¬(inside c ∧ found.size < count)) :
      Scan isPrime inside next count c found found
  | turn {c c' : Word} {found result : Array Word} (h : inside c ∧ found.size < count)
      (hnext : next c = some c')
      (rest : Scan isPrime inside next count c' (keepPrime isPrime found c.toNat) result) :
      Scan isPrime inside next count c found result

/-- A scan has one end. -/
theorem Scan.unique {inside : Word → Prop} {next : Word → Option Word} {c : Word}
    {result other : Array Word} (h : Scan isPrime inside next count c found result)
    (h' : Scan isPrime inside next count c found other) : result = other := by
  induction h generalizing other with
  | done hstop =>
      cases h' with
      | done => rfl
      | turn hgo => exact absurd hgo hstop
  | turn hgo hnext _ ih =>
      cases h' with
      | done hstop => exact absurd hgo hstop
      | turn _ hnext' rest =>
          obtain rfl := Option.some_inj.1 (hnext.symm.trans hnext')
          exact ih rest

/-- A request with valid arguments runs on words to the end and has found `found`. -/
def RunsTo (isPrime : Word → Bool) (count bitSize : ℕ) (preferSmall : Bool) (size : Word)
    (found : Array Word) : Prop :=
  let step := 2 * size
  let lower : Word := .ofNat (2 ^ (bitSize - 1))
  let upper : Word := .ofNat (2 ^ bitSize)
  if preferSmall then
    ∃ c, firstUpward? step lower = some c ∧
      Scan isPrime (· < upper) (Word.add? · step) count c #[] found
  else
    ∃ c, firstDownward? step upper = some c ∧
      Scan isPrime (lower ≤ ·) (Word.sub? · step) count c #[] found

section words

variable {step lower upper : Word}

/-- The first candidate upward is there, as the numbers have it. -/
theorem exists_firstUpward? (step lower : Word) (hstep : 0 < step.toNat)
    (hroom : lower.toNat + step.toNat < 2 ^ 64) :
    ∃ c, firstUpward? step lower = some c ∧
      c.toNat = firstUpward step.toNat lower.toNat := by
  obtain ⟨rem, hrem, hremValue⟩ := Word.rem?_of_pos (x := lower) hstep
  have hle := Nat.mod_le lower.toNat step.toNat
  obtain ⟨below, hbelow, hbelowValue⟩ := Word.sub?_of_le (x := lower) (y := rem) (by omega)
  have hone : (1 : Word).toNat = 1 := rfl
  obtain ⟨c, hc, hcValue⟩ := Word.add?_of_lt (x := below) (y := 1) (by omega)
  rw [hbelowValue, hremValue, hone] at hcValue
  simp only [firstUpward?, hrem, hbelow, hc, Option.bind_eq_bind, Option.bind_some,
    UInt64.lt_iff_toNat_lt]
  unfold firstUpward
  dsimp only
  rw [← hcValue]
  split_ifs
  · exact Word.add?_of_lt (by omega)
  · exact ⟨c, rfl, rfl⟩

/-- The first candidate downward is there, as the numbers have it. The interval starts above 1, so
rounding down does not go below zero. -/
theorem exists_firstDownward? (hstep : 0 < step.toNat) (hupper : 1 < upper.toNat) :
    ∃ c, firstDownward? step upper = some c ∧
      c.toNat = firstDownward step.toNat upper.toNat := by
  have hone : (1 : Word).toNat = 1 := rfl
  have hword := upper.toNat_lt
  obtain ⟨last, hlast, hlastValue⟩ := Word.sub?_of_le (x := upper) (y := 1) (by omega)
  obtain ⟨rem, hrem, hremValue⟩ := Word.rem?_of_pos (x := last) hstep
  have hle := Nat.mod_le last.toNat step.toNat
  obtain ⟨below, hbelow, hbelowValue⟩ := Word.sub?_of_le (x := last) (y := rem) (by omega)
  obtain ⟨c, hc, hcValue⟩ := Word.add?_of_lt (x := below) (y := 1) (by omega)
  rw [hbelowValue, hremValue, hlastValue, hone] at hcValue
  simp only [firstDownward?, hlast, hrem, hbelow, hc, Option.bind_eq_bind, Option.bind_some,
    UInt64.le_iff_toNat_le]
  unfold firstDownward
  dsimp only
  rw [← hcValue]
  split_ifs with hend
  · have := step_le_of_le_rounded hupper (hcValue ▸ hend)
    exact Word.sub?_of_le (by omega)
  · exact ⟨c, rfl, rfl⟩

/-- Words run the scan upward as numbers do. -/
theorem scan_collectUpward (hstep : 0 < step.toNat) (hroom : upper.toNat + step.toNat ≤ 2 ^ 64)
    (count : ℕ) (c : Word) (found : Array Word) :
    Scan isPrime (· < upper) (Word.add? · step) count c found
      (collectUpward isPrime step.toNat upper.toNat count c.toNat found) := by
  generalize hn : c.toNat = n
  induction n, found using collectUpward.induct isPrime step.toNat upper.toNat count
      generalizing c with
  | case1 n found hgo ih =>
      subst hn
      obtain ⟨next, hnext, hvalue⟩ := Word.add?_of_lt (x := c) (y := step) (by omega)
      rw [collectUpward, if_pos hgo]
      exact .turn ⟨UInt64.lt_iff_toNat_lt.2 hgo.1, hgo.2.1⟩ hnext (ih next hvalue)
  | case2 n found hstop =>
      subst hn
      rw [collectUpward, if_neg hstop]
      exact .done fun h => hstop ⟨UInt64.lt_iff_toNat_lt.1 h.1, h.2, hstep⟩

/-- Words run the scan downward as numbers do: above 1 there is a whole step below a number of the
progression. -/
theorem scan_collectDownward (hstep : 0 < step.toNat) (hlower : 1 < lower.toNat) (count : ℕ)
    (c : Word) (found : Array Word) (hc : c.toNat % step.toNat = 1) :
    Scan isPrime (lower ≤ ·) (Word.sub? · step) count c found
      (collectDownward isPrime step.toNat lower.toNat count c.toNat found) := by
  generalize hn : c.toNat = n
  induction n, found using collectDownward.induct isPrime step.toNat lower.toNat count
      generalizing c with
  | case1 n found hgo hle ih =>
      subst hn
      obtain ⟨next, hnext, hvalue⟩ := Word.sub?_of_le (x := c) (y := step) hle.1
      rw [collectDownward, if_pos hgo, if_pos hle]
      refine .turn ⟨UInt64.le_iff_toNat_le.2 hgo.1, hgo.2⟩ hnext (ih next ?_ hvalue)
      rw [hvalue, ← Nat.mod_eq_sub_mod hle.1, hc]
  | case2 n found hgo hle =>
      subst hn
      exact absurd ⟨step_le_of_mod (by omega) hc, hstep⟩ hle
  | case3 n found hstop =>
      subst hn
      rw [collectDownward, if_neg hstop]
      exact .done fun h => hstop ⟨UInt64.le_iff_toNat_le.1 h.1, h.2⟩

/-- The whole run upward. -/
theorem exists_scan_firstUpward? (hstep : 0 < step.toNat)
    (hroom : upper.toNat + step.toNat < 2 ^ 64) (hle : lower.toNat ≤ upper.toNat) (count : ℕ) :
    ∃ c, firstUpward? step lower = some c ∧
      Scan isPrime (· < upper) (Word.add? · step) count c #[]
        (collectUpward isPrime step.toNat upper.toNat count
          (firstUpward step.toNat lower.toNat) #[]) := by
  obtain ⟨c, hc, hvalue⟩ := exists_firstUpward? step lower hstep (by omega)
  rw [← hvalue]
  exact ⟨c, hc, scan_collectUpward hstep hroom.le count c #[]⟩

/-- The whole run downward. -/
theorem exists_scan_firstDownward? (hstep : 1 < step.toNat) (hlower : 1 < lower.toNat)
    (hupper : 1 < upper.toNat) (count : ℕ) :
    ∃ c, firstDownward? step upper = some c ∧
      Scan isPrime (lower ≤ ·) (Word.sub? · step) count c #[]
        (collectDownward isPrime step.toNat lower.toNat count
          (firstDownward step.toNat upper.toNat) #[]) := by
  have hpos := Nat.zero_lt_of_lt hstep
  obtain ⟨c, hc, hvalue⟩ := exists_firstDownward? hpos hupper
  have hmod := (firstDownward_spec hstep hupper).1
  rw [← hvalue] at hmod ⊢
  exact ⟨c, hc, scan_collectDownward hpos hlower count c #[] hmod⟩

end words

/-! ### Requests -/

/-- The primes of `bitSize` bits that a transform of the given size can use. -/
def eligible (bitSize size : ℕ) : List ℕ :=
  primesBetween (2 * size) (2 ^ (bitSize - 1)) (2 ^ bitSize)

/-- The first `count` of them, from the least or from the greatest on. -/
def firstEligible (count bitSize : ℕ) (preferSmall : Bool) (size : ℕ) : List ℕ :=
  if preferSmall then (eligible bitSize size).take count
  else (eligible bitSize size).reverse.take count

/-- There are as many as asked for, or all there are. -/
theorem length_firstEligible (size : ℕ) :
    (firstEligible count bitSize preferSmall size).length =
      min count (eligible bitSize size).length := by
  unfold firstEligible
  split <;> simp

/-- What comes first is eligible. -/
theorem mem_eligible_of_mem_firstEligible {p size : ℕ}
    (h : p ∈ firstEligible count bitSize preferSmall size) : p ∈ eligible bitSize size := by
  unfold firstEligible at h
  split at h
  · exact List.mem_of_mem_take h
  · exact List.mem_reverse.1 (List.mem_of_mem_take h)

/-- The arguments that are accepted. -/
structure Valid (count bitSize size : ℕ) : Prop where
  count_pos : 1 ≤ count
  two_le : 2 ≤ bitSize
  le_sixtyTwo : bitSize ≤ 62
  power : ∃ k, size = 2 ^ k

/-- What the scan of a request finds. -/
def scanned (isPrime : Word → Bool) (count bitSize : ℕ) (preferSmall : Bool) (size : ℕ) :
    Array Word :=
  if preferSmall then
    collectUpward isPrime (2 * size) (2 ^ bitSize) count
      (firstUpward (2 * size) (2 ^ (bitSize - 1))) #[]
  else
    collectDownward isPrime (2 * size) (2 ^ (bitSize - 1)) count
      (firstDownward (2 * size) (2 ^ bitSize)) #[]

/-- The arguments are valid exactly if none of the four refusals applies. -/
theorem valid_iff {size : ℕ} : Valid count bitSize size ↔
    ¬(count = 0 ∨ bitSize < 2 ∨ 62 < bitSize ∨ (!isPowerOfTwo size) = true) := by
  rw [not_or, not_or, not_or, Nat.not_lt, Nat.not_lt, Bool.not_eq_true', Bool.not_eq_false,
    isPowerOfTwo_iff]
  exact ⟨fun h => ⟨Nat.ne_zero_of_lt h.count_pos, h.two_le, h.le_sixtyTwo, h.power⟩,
    fun ⟨hcount, htwo, hle, hpower⟩ => ⟨Nat.pos_of_ne_zero hcount, htwo, hle, hpower⟩⟩

/-- A request whose arguments are not accepted is refused. -/
theorem generatePrimes_of_not_valid {size : ℕ} (h : ¬Valid count bitSize size) :
    generatePrimes isPrime count bitSize preferSmall size =
      .error (.refused (.tooFewPrimes count bitSize size)) :=
  if_pos (Classical.not_not.1 (mt valid_iff.2 h))

namespace Valid

/-- The interval starts above 1, is not empty and ends below the greatest words, and the step is
above 1. -/
theorem bounds {size : ℕ} (h : Valid count bitSize size) :
    1 < 2 ^ (bitSize - 1) ∧ 2 ^ (bitSize - 1) < 2 ^ bitSize ∧ 2 ^ bitSize ≤ 2 ^ 62 ∧
      1 < 2 * size := by
  obtain ⟨k, rfl⟩ := h.power
  have hpos := Nat.two_pow_pos k
  have htwo := h.two_le
  exact ⟨Nat.one_lt_two_pow (by omega), Nat.pow_lt_pow_right Nat.one_lt_two (by omega),
    Nat.pow_le_pow_right Nat.two_pos h.le_sixtyTwo, by omega⟩

/-- Of the words that are accepted as sizes only the greatest has a double that is not a word. -/
theorem two_mul_le (h : Valid count bitSize size.toNat) (hne : size.toNat ≠ 2 ^ 63) :
    2 * size.toNat ≤ 2 ^ 63 := by
  obtain ⟨k, hk⟩ := h.power
  have hword := size.toNat_lt
  rw [hk] at hne hword ⊢
  have hlt : k < 64 := (Nat.pow_lt_pow_iff_right Nat.one_lt_two).1 hword
  have hne : k ≠ 63 := fun h => hne (h ▸ rfl)
  rw [← Nat.pow_succ']
  exact Nat.pow_le_pow_right Nat.two_pos (by omega)

/-- The scan finds the first primes that there are. -/
theorem values_scanned {size : ℕ} (h : Valid count bitSize size)
    (hexact : ExactBetween isPrime (2 * size) (2 ^ (bitSize - 1)) (2 ^ bitSize))
    (preferSmall : Bool) :
    values (scanned isPrime count bitSize preferSmall size) =
      firstEligible count bitSize preferSmall size := by
  obtain ⟨hlower, hlt, hupper, hstep⟩ := h.bounds
  have hword : 2 ^ bitSize < 2 ^ 64 := hupper.trans_lt (by decide)
  unfold scanned firstEligible eligible
  cases preferSmall with
  | true =>
      obtain ⟨hmod, hle, heq⟩ := firstUpward_spec hstep (2 ^ (bitSize - 1))
      simp only [if_true]
      rw [values_collectUpward hstep hexact hword count _ _ hle hmod, heq]
      rfl
  | false =>
      obtain ⟨hmod, hbelow, heq⟩ := firstDownward_spec hstep (hlower.trans hlt)
      simp only [Bool.false_eq_true, if_false]
      rw [values_collectDownward hstep hexact hword hlower count _ _ hbelow hmod, heq]
      rfl

end Valid

/-- Words run the scan of a request that is accepted to its end. -/
theorem runsTo_scanned (isPrime : Word → Bool) (h : Valid count bitSize size.toNat)
    (hne : size.toNat ≠ 2 ^ 63) (preferSmall : Bool) :
    RunsTo isPrime count bitSize preferSmall size
      (scanned isPrime count bitSize preferSmall size.toNat) := by
  obtain ⟨hlower, hlt, hupper, hstep⟩ := h.bounds
  have htwice := h.two_mul_le hne
  have hstepValue : (2 * size).toNat = 2 * size.toNat := toNat_twice (by omega)
  have hlowerValue : (UInt64.ofNat (2 ^ (bitSize - 1))).toNat = 2 ^ (bitSize - 1) :=
    UInt64.toNat_ofNat_of_lt' ((hlt.trans_le hupper).trans (by decide))
  have hupperValue : (UInt64.ofNat (2 ^ bitSize)).toNat = 2 ^ bitSize :=
    UInt64.toNat_ofNat_of_lt' (hupper.trans_lt (by decide))
  unfold RunsTo scanned
  generalize 2 * size = step at hstepValue ⊢
  generalize UInt64.ofNat (2 ^ (bitSize - 1)) = lower at hlowerValue ⊢
  generalize UInt64.ofNat (2 ^ bitSize) = upper at hupperValue ⊢
  rw [← hstepValue, ← hlowerValue, ← hupperValue]
  cases preferSmall with
  | true => exact exists_scan_firstUpward? (by omega) (by omega) (by omega) count
  | false => exact exists_scan_firstDownward? (by omega) (by omega) (by omega) count

/-- A request has one run, so one list that it ends with. -/
theorem RunsTo.unique {result other : Array Word}
    (h : RunsTo isPrime count bitSize preferSmall size result)
    (h' : RunsTo isPrime count bitSize preferSmall size other) : result = other := by
  unfold RunsTo at h h'
  cases preferSmall <;>
  · obtain ⟨c, hc, hscan⟩ := h
    obtain ⟨c', hc', hscan'⟩ := h'
    obtain rfl := Option.some_inj.1 (hc.symm.trans hc')
    exact hscan.unique hscan'

/-- Nothing has a remainder by a step that wraps to zero, so no scan starts. -/
theorem not_runsTo_of_wide (hsize : size.toNat = 2 ^ 63) (result : Array Word) :
    ¬RunsTo isPrime count bitSize preferSmall size result := by
  have hstep : 2 * size = 0 := by
    obtain rfl : size = 9223372036854775808 := UInt64.toNat_inj.1 hsize
    decide
  have hrem (x : Word) : Word.rem? x 0 = none := if_pos rfl
  unfold RunsTo
  rw [hstep]
  cases preferSmall with
  | true =>
      rintro ⟨c, hc, -⟩
      simp only [firstUpward?, hrem, Option.bind_eq_bind, Option.bind_none] at hc
      cases hc
  | false =>
      rintro ⟨c, hc, -⟩
      simp only [firstDownward?, hrem, Option.bind_eq_bind, Option.bind_none,
        Option.bind_fun_none] at hc
      cases hc

/-- With a step that is a word, and room for the primes, the scan decides. -/
theorem generatePrimes_of_valid (h : Valid count bitSize size.toNat) (hne : size.toNat ≠ 2 ^ 63)
    (hroom : count ≤ maxWords) :
    generatePrimes isPrime count bitSize preferSmall size.toNat =
      if (scanned isPrime count bitSize preferSmall size.toNat).size < count then
        .error (.refused (.tooFewPrimes count bitSize size.toNat))
      else .ok (scanned isPrime count bitSize preferSmall size.toNat) := by
  have hstep := h.two_mul_le hne
  exact (if_neg (valid_iff.1 h)).trans
    (if_neg (not_or.2 ⟨by omega, Nat.not_lt.2 hroom⟩))

/-- A request succeeds where it is accepted and the interval has primes enough. -/
theorem generatePrimes_eq_ok_iff (hne : size.toNat ≠ 2 ^ 63) (hroom : count ≤ maxWords)
    (hexact : ExactBetween isPrime (2 * size.toNat) (2 ^ (bitSize - 1)) (2 ^ bitSize))
    (found : Array Word) :
    generatePrimes isPrime count bitSize preferSmall size.toNat = .ok found ↔
      (Valid count bitSize size.toNat ∧ count ≤ (eligible bitSize size.toNat).length) ∧
        found = scanned isPrime count bitSize preferSmall size.toNat := by
  by_cases h : Valid count bitSize size.toNat
  · have hsize : (scanned isPrime count bitSize preferSmall size.toNat).size =
        min count (eligible bitSize size.toNat).length := by
      rw [← length_values, h.values_scanned hexact, length_firstEligible]
    rw [generatePrimes_of_valid h hne hroom, hsize, and_iff_right h]
    split_ifs with hfew
    · exact iff_of_false nofun fun hyes => by omega
    · rw [Except.ok.injEq, eq_comm, and_iff_right (by omega)]
  · rw [generatePrimes_of_not_valid h]
    exact iff_of_false nofun fun hyes => h hyes.1.1

/-- A request that does not succeed is refused. -/
theorem generatePrimes_eq_refused (hne : size.toNat ≠ 2 ^ 63) (hroom : count ≤ maxWords)
    (hnone : ¬∃ found, generatePrimes isPrime count bitSize preferSmall size.toNat = .ok found) :
    generatePrimes isPrime count bitSize preferSmall size.toNat =
      .error (.refused (.tooFewPrimes count bitSize size.toNat)) := by
  by_cases h : Valid count bitSize size.toNat
  · rw [generatePrimes_of_valid h hne hroom] at hnone ⊢
    split_ifs at hnone ⊢ with hfew
    · rfl
    · exact absurd ⟨_, rfl⟩ hnone
  · exact generatePrimes_of_not_valid h

/-- With the greatest size the run breaks once the arguments are known to be valid. -/
theorem generatePrimes_eq_broken_iff (hwide : size.toNat = 2 ^ 63) :
    generatePrimes isPrime count bitSize preferSmall size.toNat = .error .broken ↔
      1 ≤ count ∧ 2 ≤ bitSize ∧ bitSize ≤ 62 := by
  constructor
  · intro hbroken
    by_contra hno
    have hinvalid : ¬Valid count bitSize size.toNat := fun h =>
      hno ⟨h.count_pos, h.two_le, h.le_sixtyTwo⟩
    rw [generatePrimes_of_not_valid hinvalid] at hbroken
    cases hbroken
  · rintro ⟨hcount, htwo, hle⟩
    have h : Valid count bitSize size.toNat := ⟨hcount, htwo, hle, 63, hwide⟩
    exact (if_neg (valid_iff.1 h)).trans (if_pos (.inl (by omega)))

/-- What is found can be the modulus of a transform. -/
theorem exists_ofModulus {p : Word}
    (hexact : ExactBetween isPrime (2 * size.toNat) (2 ^ (bitSize - 1)) (2 ^ bitSize))
    (h : Valid count bitSize size.toNat) (hp : p.toNat ∈ eligible bitSize size.toNat)
    (htwo : 2 ≤ size.toNat) (hle : size.toNat ≤ 2 ^ 20) :
    ∃ T, Transform.ofModulus isPrime size.toNat p = .ok T := by
  obtain ⟨⟨hlower, hupper⟩, hmod, hprime⟩ := mem_primesBetween.1 hp
  obtain ⟨T, hT, -⟩ := (Transform.ofModulus_decides (hexact p hlower hupper hmod) _).ok (by
    simpa only [List.forall_mem_cons, List.not_mem_nil, false_imp_iff, implies_true, and_true]
      using ⟨⟨htwo, hle, h.power⟩, ⟨hprime.one_lt, hupper.trans_le h.bounds.2.2.1⟩, hmod, hprime⟩)
  exact ⟨T, hT⟩

/-- Requests for primes. A request succeeds exactly where its arguments are valid and the interval
has primes enough, with the first of them from the end asked for, and is refused otherwise. Words
run the scan to its end with every sum, difference and remainder defined. The one size that breaks
the run is the one with a double that is not a word. What is found can be the modulus of a transform
of that size. -/
theorem generatePrimes_exact (preferSmall : Bool) (hroom : count ≤ maxWords)
    (hexact : ExactBetween isPrime (2 * size.toNat) (2 ^ (bitSize - 1)) (2 ^ bitSize)) :
    let r := generatePrimes isPrime count bitSize preferSmall size.toNat
    let refusal := Stop.refused (.tooFewPrimes count bitSize size.toNat)
    (size.toNat ≠ 2 ^ 63 →
      ((∃ found, r = .ok found) ↔
        Valid count bitSize size.toNat ∧ count ≤ (eligible bitSize size.toNat).length) ∧
      (∀ found, r = .ok found →
        values found = firstEligible count bitSize preferSmall size.toNat) ∧
      ((¬∃ found, r = .ok found) → r = .error refusal) ∧
      (Valid count bitSize size.toNat → ∃ found,
        (∀ result, RunsTo isPrime count bitSize preferSmall size result ↔ result = found) ∧
          r = if found.size < count then .error refusal else .ok found)) ∧
    (size.toNat = 2 ^ 63 →
      (r = .error .broken ↔ 1 ≤ count ∧ 2 ≤ bitSize ∧ bitSize ≤ 62) ∧
        ∀ result, ¬RunsTo isPrime count bitSize preferSmall size result) ∧
    ∀ found, r = .ok found → ∀ p ∈ found, 2 ≤ size.toNat → size.toNat ≤ 2 ^ 20 →
      ∃ T, Transform.ofModulus isPrime size.toNat p = .ok T := by
  intro r refusal
  have hok (hne : size.toNat ≠ 2 ^ 63) (found : Array Word) : r = .ok found ↔ _ :=
    generatePrimes_eq_ok_iff hne hroom hexact found
  refine ⟨fun hne => ⟨?_, ?_, generatePrimes_eq_refused hne hroom, ?_⟩,
    fun hwide => ⟨generatePrimes_eq_broken_iff hwide, not_runsTo_of_wide hwide⟩, ?_⟩
  · simp only [hok hne, exists_and_left, exists_eq, and_true]
  · intro found hfound
    obtain ⟨⟨h, -⟩, rfl⟩ := (hok hne found).1 hfound
    exact h.values_scanned hexact preferSmall
  · intro h
    have hruns := runsTo_scanned isPrime h hne preferSmall
    refine ⟨_, fun result => ⟨fun hresult => hresult.unique hruns, ?_⟩,
      generatePrimes_of_valid h hne hroom⟩
    rintro rfl
    exact hruns
  · intro found hfound p hp htwo hle
    obtain ⟨⟨h, -⟩, rfl⟩ := (hok (by omega) found).1 hfound
    refine exists_ofModulus hexact h ?_ htwo hle
    apply mem_eligible_of_mem_firstEligible
    rw [← h.values_scanned hexact preferSmall]
    exact List.mem_map_of_mem (Array.mem_toList_iff.2 hp)

/-- The primes of five bits that are 1 modulo 4 are 17 and 29. -/
theorem generatePrimes_exact_five :
    ExactBetween exactTest (2 * (2 : Word).toNat) (2 ^ (5 - 1)) (2 ^ 5) ∧
      (∃ found, generatePrimes exactTest 2 5 false (2 : Word).toNat = .ok found ∧
        values found = [29, 17] ∧ ∀ p ∈ found, ∃ T, Transform.ofModulus exactTest 2 p = .ok T) ∧
      (∃ found, RunsTo exactTest 2 5 false 2 found) ∧
      generatePrimes exactTest 3 5 true (2 : Word).toNat =
        .error (.refused (.tooFewPrimes 3 5 2)) := by
  have hexact : ExactBetween exactTest (2 * (2 : Word).toNat) (2 ^ (5 - 1)) (2 ^ 5) :=
    fun _ _ _ _ => exactTest_iff
  have hvalid (count : ℕ) (h : 1 ≤ count) : Valid count 5 (2 : Word).toNat :=
    ⟨h, by decide, by decide, 1, rfl⟩
  have hlist : eligible 5 (2 : Word).toNat = [17, 29] := by decide
  have hroom : 3 ≤ maxWords := by decide
  obtain ⟨htwo, -, hmodulus⟩ := generatePrimes_exact false (Nat.le_of_succ_le hroom) hexact
  obtain ⟨hok, hvalues, -, hruns⟩ := htwo (by decide)
  obtain ⟨found, hfound⟩ := hok.2 ⟨hvalid 2 (by decide), by rw [hlist]; decide⟩
  obtain ⟨result, hresult, -⟩ := hruns (hvalid 2 (by decide))
  obtain ⟨hok, -, hrefused, -⟩ := (generatePrimes_exact true hroom hexact).1 (by decide)
  have hfew : ¬∃ found, generatePrimes exactTest 3 5 true (2 : Word).toNat = .ok found := by
    rw [hok, hlist]
    exact fun h => absurd h.2 (by decide)
  refine ⟨hexact, ⟨found, hfound, ?_, fun p hp => ?_⟩, ⟨result, (hresult result).2 rfl⟩,
    hrefused hfew⟩
  · rw [hvalues found hfound, firstEligible, hlist]
    decide
  · exact hmodulus found hfound p hp (by decide) (by decide)

end Prime

end Negacyclic
