import Mathlib.Data.Int.ModEq
import Mathlib.Data.List.Intervals
import Mathlib.Data.Nat.Prime.Basic
import Negacyclic.Prime.Progression

/-!
# The primes of a progression

What the two scans of an interval find, if the test for primality is right about the candidates: the
first primes of the progression from their end of the interval, with none left out.

Two numbers of the progression in a row have none between them. So what a scan has found so far and
the primes from its candidate on are together the same list all the way (`values_collectUpward`,
`values_collectDownward`), and the first candidate leaves out nothing at its end of the interval,
whether or not the step is larger than the interval (`firstUpward_spec`, `firstDownward_spec`).
-/

namespace Negacyclic.Prime

variable {isPrime : Word → Bool} {step lower upper count c : ℕ} {found : Array Word}

/-! ### The primes between two ends -/

/-- The primes from `l` on and below `u` that are 1 modulo `step`, in increasing order. -/
def primesBetween (step l u : ℕ) : List ℕ :=
  (List.Ico l u).filter fun p => p % step = 1 ∧ p.Prime

/-- The list holds the primes of the progression in the half-open interval, and no others. -/
theorem mem_primesBetween {p l u : ℕ} :
    p ∈ primesBetween step l u ↔ (l ≤ p ∧ p < u) ∧ p % step = 1 ∧ p.Prime := by
  unfold primesBetween
  rw [List.mem_filter, List.Ico.mem, decide_eq_true_iff]

/-- An interval can be cut anywhere. -/
theorem primesBetween_append {l m u : ℕ} (hlm : l ≤ m) (hmu : m ≤ u) :
    primesBetween step l m ++ primesBetween step m u = primesBetween step l u := by
  unfold primesBetween
  rw [← List.filter_append, List.Ico.append_consecutive hlm hmu]

/-- An interval without numbers of the progression has no primes of it. -/
theorem primesBetween_eq_nil {l u : ℕ} (h : ∀ p, l ≤ p → p < u → p % step ≠ 1) :
    primesBetween step l u = [] :=
  List.eq_nil_iff_forall_not_mem.2 fun p hp => by
    obtain ⟨⟨hlp, hpu⟩, hmod, -⟩ := mem_primesBetween.1 hp
    exact h p hlp hpu hmod

/-- An interval of one number of the progression. -/
theorem primesBetween_singleton (hc : c % step = 1) :
    primesBetween step c (c + 1) = if c.Prime then [c] else [] := by
  unfold primesBetween
  rw [List.Ico.succ_singleton, List.filter_singleton]
  simp [hc]

/-- An interval may as well start behind numbers that are not of the progression. -/
theorem primesBetween_skip {m n u : ℕ} (hmn : m ≤ n)
    (hgap : ∀ p, m ≤ p → p < n → p % step ≠ 1) :
    primesBetween step m u = primesBetween step n u := by
  obtain hu | hu := Nat.le_total n u
  · rw [← primesBetween_append hmn hu, primesBetween_eq_nil hgap, List.nil_append]
  · rw [primesBetween_eq_nil fun p hmp hpu => hgap p hmp (hpu.trans_le hu),
      primesBetween_eq_nil fun p _ _ => by omega]

/-- It may as well end before them. -/
theorem primesBetween_drop {l m n : ℕ} (hmn : m ≤ n)
    (hgap : ∀ p, m ≤ p → p < n → p % step ≠ 1) :
    primesBetween step l n = primesBetween step l m := by
  obtain hl | hl := Nat.le_total l m
  · rw [← primesBetween_append hl hmn, primesBetween_eq_nil hgap, List.append_nil]
  · rw [primesBetween_eq_nil fun p hlp hpn => hgap p (hl.trans hlp) hpn,
      primesBetween_eq_nil fun p _ _ => by omega]

/-- Between two numbers of the progression in a row there is no other. -/
theorem mod_ne_one_of_lt {p : ℕ} (hc : c % step = 1) (hcp : c < p) (hp : p < c + step) :
    p % step ≠ 1 := by
  intro h
  have hdvd : step ∣ p - c := (Nat.modEq_iff_dvd' hcp.le).1 (hc.trans h.symm)
  have := Nat.le_of_dvd (by omega) hdvd
  omega

/-- From a number of the progression on: this number, if it is prime, and what follows one step
later. The scan upward does the same. -/
theorem primesBetween_cons {u : ℕ} (hstep : 0 < step) (hc : c % step = 1) (hcu : c < u) :
    primesBetween step c u =
      (if c.Prime then [c] else []) ++ primesBetween step (c + step) u := by
  rw [← primesBetween_append (Nat.le_succ c) hcu, primesBetween_singleton hc,
    primesBetween_skip (by omega) fun p hcp hp => mod_ne_one_of_lt hc hcp hp]

/-- Up to a number of the progression: what ends one step earlier, and this number, if it is prime.
The scan downward does the same. -/
theorem primesBetween_concat {l : ℕ} (hstep : 0 < step) (hc : c % step = 1) (hle : step ≤ c)
    (hlc : l ≤ c) :
    primesBetween step l (c + 1) =
      primesBetween step l (c - step + 1) ++ if c.Prime then [c] else [] := by
  have hprev : (c - step) % step = 1 := by rw [← Nat.mod_eq_sub_mod hle, hc]
  rw [← primesBetween_append hlc (Nat.le_succ c), primesBetween_singleton hc,
    primesBetween_drop (by omega) fun p hcp hp => mod_ne_one_of_lt hprev hcp (by omega)]

/-! ### The first candidates -/

/-- Rounding down to a multiple of the step and adding one gives a number of the progression. -/
theorem rounded_mod (hstep : 1 < step) (m : ℕ) : (m - m % step + 1) % step = 1 := by
  rw [← Nat.mul_div_self_eq_mod_sub_self, Nat.mul_add_mod, Nat.mod_eq_of_lt hstep]

/-- Upward the scan starts in the progression and leaves out no prime of the interval. -/
theorem firstUpward_spec (hstep : 1 < step) (lower : ℕ) :
    firstUpward step lower % step = 1 ∧ lower ≤ firstUpward step lower ∧
      ∀ u, primesBetween step lower u = primesBetween step (firstUpward step lower) u := by
  have hc := rounded_mod hstep lower
  have hrem := Nat.mod_lt lower (Nat.zero_lt_of_lt hstep)
  have hle := Nat.mod_le lower step
  unfold firstUpward
  dsimp only
  split_ifs with hbelow
  · refine ⟨by rw [Nat.add_mod_right, hc], by omega, fun u => ?_⟩
    exact primesBetween_skip (by omega) fun p hp hpc => mod_ne_one_of_lt hc (by omega) hpc
  · refine ⟨hc, by omega, fun u => primesBetween_skip (by omega) fun p hp hpc => ?_⟩
    -- all that can be left out is the end itself, where it is a multiple of the step
    obtain rfl : p = lower := by omega
    omega

/-- If rounding gives the end of the interval itself, a step leads back into the interval. -/
theorem step_le_of_le_rounded (hupper : 1 < upper)
    (hend : upper ≤ upper - 1 - (upper - 1) % step + 1) : step ≤ upper - 1 :=
  Nat.le_of_dvd (by omega) (Nat.dvd_of_mod_eq_zero (by omega))

/-- Downward as well. -/
theorem firstDownward_spec (hstep : 1 < step) (hupper : 1 < upper) :
    firstDownward step upper % step = 1 ∧ firstDownward step upper < upper ∧
      ∀ l, primesBetween step l upper =
        primesBetween step l (firstDownward step upper + 1) := by
  have hc := rounded_mod hstep (upper - 1)
  have hrem := Nat.mod_lt (upper - 1) (Nat.zero_lt_of_lt hstep)
  have hle := Nat.mod_le (upper - 1) step
  unfold firstDownward
  dsimp only
  split_ifs with hend
  · have hstepLe := step_le_of_le_rounded hupper hend
    have hprev := hc
    rw [Nat.mod_eq_sub_mod (by omega)] at hprev
    refine ⟨hprev, by omega, fun l => ?_⟩
    exact primesBetween_drop (by omega) fun p hcp hp => mod_ne_one_of_lt hprev hcp (by omega)
  · refine ⟨hc, by omega, fun l => ?_⟩
    exact primesBetween_drop (by omega) fun p hcp hp => mod_ne_one_of_lt hc hcp (by omega)

/-! ### What the scans find

Both inductions are on the recursion of the scan. What is carried along is that the candidate is in
the progression; a turn then moves a prime from the list of what is left to the end of what has been
found.
-/

/-- A test for primality is right about the numbers of a progression in an interval. -/
def ExactBetween (isPrime : Word → Bool) (step lower upper : ℕ) : Prop :=
  ∀ x : Word, lower ≤ x.toNat → x.toNat < upper → x.toNat % step = 1 →
    (isPrime x = true ↔ x.toNat.Prime)

/-- The values of the words of an array. -/
def values (found : Array Word) : List ℕ :=
  found.toList.map UInt64.toNat

/-- Each word found is one value. -/
theorem length_values (found : Array Word) : (values found).length = found.size := by
  unfold values
  rw [List.length_map, Array.length_toList]

/-- A candidate is kept if it is prime. -/
theorem values_keepPrime (hexact : ExactBetween isPrime step lower upper) (hupper : upper < 2 ^ 64)
    (found : Array Word) (hlower : lower ≤ c) (hlt : c < upper) (hc : c % step = 1) :
    values (keepPrime isPrime found c) = values found ++ if c.Prime then [c] else [] := by
  have hvalue : (UInt64.ofNat c).toNat = c := UInt64.toNat_ofNat_of_lt' (hlt.trans hupper)
  have hiff := hexact (.ofNat c) (by rwa [hvalue]) (by rwa [hvalue]) (by rwa [hvalue])
  rw [hvalue] at hiff
  unfold keepPrime values
  by_cases hprime : c.Prime
  · rw [if_pos (hiff.2 hprime), if_pos hprime, Array.toList_push, List.map_append]
    simp [hvalue]
  · rw [if_neg fun h => hprime (hiff.1 h), if_neg hprime, List.append_nil]

/-- What one turn of a scan keeps: the list that is found in the end. -/
theorem values_keepPrime_append_take {rest : List ℕ}
    (hkeep : values (keepPrime isPrime found c) = values found ++ if c.Prime then [c] else [])
    (hroom : found.size < count) :
    values (keepPrime isPrime found c) ++ rest.take (count - (keepPrime isPrime found c).size) =
      values found ++ ((if c.Prime then [c] else []) ++ rest).take (count - found.size) := by
  have hsize : (keepPrime isPrime found c).size =
      found.size + (if c.Prime then [c] else []).length := by
    rw [← length_values, hkeep, List.length_append, length_values]
  have hshort : (if c.Prime then [c] else []).length ≤ count - found.size := by
    split_ifs
    · rw [List.length_singleton]
      omega
    · exact Nat.zero_le _
  rw [hkeep, hsize, List.append_assoc, List.take_append, List.take_of_length_le hshort,
    Nat.sub_sub]

/-- The scan upward adds the primes from its candidate to the upper end, in order, as many as are
missing. -/
theorem values_collectUpward (hstep : 1 < step) (hexact : ExactBetween isPrime step lower upper)
    (hupper : upper < 2 ^ 64) (count c : ℕ) (found : Array Word) (hlower : lower ≤ c)
    (hc : c % step = 1) :
    values (collectUpward isPrime step upper count c found) =
      values found ++ (primesBetween step c upper).take (count - found.size) := by
  induction c, found using collectUpward.induct isPrime step upper count with
  | case1 c found hgo ih =>
      have hkeep := values_keepPrime hexact hupper found hlower hgo.1 hc
      rw [collectUpward, if_pos hgo, ih (by omega) (by rw [Nat.add_mod_right, hc]),
        values_keepPrime_append_take hkeep hgo.2.1, ← primesBetween_cons hgo.2.2 hc hgo.1]
  | case2 c found hstop =>
      have hnil : (primesBetween step c upper).take (count - found.size) = [] := by
        by_cases hlt : c < upper
        · rw [show count - found.size = 0 by omega, List.take_zero]
        · rw [primesBetween_eq_nil fun p _ _ => by omega, List.take_nil]
      rw [collectUpward, if_neg hstop, hnil, List.append_nil]

/-- A candidate of the progression that is above 1 leaves room for a step. -/
theorem step_le_of_mod (hone : 1 < c) (hc : c % step = 1) : step ≤ c := by
  by_contra hlt
  rw [Nat.mod_eq_of_lt (Nat.lt_of_not_le hlt)] at hc
  omega

/-- The scan downward adds the primes from its candidate down to the lower end, in order, as many as
are missing. With the lower end above 1 it ends before a step would go below zero. -/
theorem values_collectDownward (hstep : 1 < step) (hexact : ExactBetween isPrime step lower upper)
    (hupper : upper < 2 ^ 64) (hlower : 1 < lower) (count c : ℕ) (found : Array Word)
    (hlt : c < upper) (hc : c % step = 1) :
    values (collectDownward isPrime step lower count c found) =
      values found ++ (primesBetween step lower (c + 1)).reverse.take (count - found.size) := by
  induction c, found using collectDownward.induct isPrime step lower count with
  | case1 c found hgo hle ih =>
      have hkeep := values_keepPrime hexact hupper found hgo.1 hlt hc
      have hreverse : (if c.Prime then [c] else []).reverse = if c.Prime then [c] else [] := by
        split_ifs <;> rfl
      rw [collectDownward, if_pos hgo, if_pos hle,
        ih (by omega) (by rw [← Nat.mod_eq_sub_mod hle.1, hc]),
        values_keepPrime_append_take hkeep hgo.2, primesBetween_concat hle.2 hc hle.1 hgo.1,
        List.reverse_append, hreverse]
  | case2 c found hgo hle =>
      exact absurd ⟨step_le_of_mod (by omega) hc, Nat.zero_lt_of_lt hstep⟩ hle
  | case3 c found hstop =>
      have hnil : (primesBetween step lower (c + 1)).reverse.take (count - found.size) = [] := by
        by_cases hle : lower ≤ c
        · rw [show count - found.size = 0 by omega, List.take_zero]
        · rw [primesBetween_eq_nil fun p _ _ => by omega, List.reverse_nil, List.take_nil]
      rw [collectDownward, if_neg hstop, hnil, List.append_nil]

end Negacyclic.Prime
