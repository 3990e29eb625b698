import Mathlib.Order.Bounds.Basic
import Negacyclic.Sampler.Bounded

/-!
# What a source has ahead

A source of any generator is a stream of words (`Source.ahead`). A draw below a bound cuts the
words to a mask and keeps those that are then below the bound; `accepted` is what the first `m`
words leave of it.

`Takes` says what it means to take `n` words: they are what the fewest words leave that leave `n`,
and the source is left after those. Two descriptions of it are shown.

* Word by word (`takes_succ_iff`): the first word taken is the one at which `Draws` ends, which
  passes over words as long as they are not kept. It looks at no more words than it must, and has
  no bound on how many these are.
* Part by part (`takes_add_iff`): what is taken in one go can be taken in two.
-/

namespace Negacyclic.Source

variable {G : Generator} {limit mask : Word} {s rest : Source G} {n : ℕ} {taken : List Word}

/-! ### The words ahead -/

/-- The source after `m` words are read. -/
def after (s : Source G) : ℕ → Source G
  | 0 => s
  | m + 1 => after s.next64.2 m

/-- Word `j` of those that a source will give, from 0 on. -/
def ahead (s : Source G) (j : ℕ) : Word :=
  (s.after j).next64.1

/-- What the first `m` words ahead leave, in order: each is cut to the mask, and kept if it is then
below `limit`. -/
def accepted (limit mask : Word) (s : Source G) (m : ℕ) : List Word :=
  ((List.range m).map fun j => s.ahead j &&& mask).filter (· < limit)

/-- Where the first word ahead is kept, it comes first. -/
theorem accepted_succ_of_lt (h : s.ahead 0 &&& mask < limit) (m : ℕ) :
    accepted limit mask s (m + 1) = (s.ahead 0 &&& mask) :: accepted limit mask s.next64.2 m := by
  rw [accepted, List.range_succ_eq_map, List.map_cons, List.filter_cons_of_pos (by simpa using h),
    List.map_map]
  rfl

/-- Where the first word ahead is not kept, only the others count. -/
theorem accepted_succ_of_not_lt (h : ¬s.ahead 0 &&& mask < limit) (m : ℕ) :
    accepted limit mask s (m + 1) = accepted limit mask s.next64.2 m := by
  rw [accepted, List.range_succ_eq_map, List.map_cons, List.filter_cons_of_neg (by simpa using h),
    List.map_map]
  rfl

/-! ### Taking words -/

/-- `taken` is what the fewest words ahead leave that leave `n`, and `rest` the source right after
them. -/
def Takes (limit mask : Word) (n : ℕ) (s : Source G) (taken : List Word) (rest : Source G) :
    Prop :=
  ∃ m, IsLeast {m | (accepted limit mask s m).length = n} m ∧
    taken = accepted limit mask s m ∧ rest = s.after m

/-- To take no words is to read none. -/
@[simp] theorem takes_zero_iff : Takes limit mask 0 s taken rest ↔ taken = [] ∧ rest = s := by
  constructor
  · rintro ⟨m, ⟨-, hleast⟩, rfl, rfl⟩
    obtain rfl : m = 0 := Nat.le_zero.1 (hleast rfl)
    exact ⟨rfl, rfl⟩
  · rintro ⟨rfl, rfl⟩
    exact ⟨0, ⟨rfl, fun m _ => Nat.zero_le m⟩, rfl, rfl⟩

/-- Where 0 does not have a property, the least number that has it is one above the least whose
successor has it. -/
theorem isLeast_succ_iff {P : ℕ → Prop} (hzero : ¬P 0) {m : ℕ} :
    IsLeast {m | P m} (m + 1) ↔ IsLeast {m | P (m + 1)} m := by
  constructor
  · rintro ⟨hm, hleast⟩
    exact ⟨hm, fun k hk => Nat.le_of_succ_le_succ (hleast hk)⟩
  · rintro ⟨hm, hleast⟩
    refine ⟨hm, fun k hk => ?_⟩
    cases k with
    | zero => exact absurd hk hzero
    | succ k => exact Nat.succ_le_succ (hleast hk)

/-- No words leave none. -/
theorem length_accepted_zero_ne (limit mask : Word) (s : Source G) (n : ℕ) :
    ¬(accepted limit mask s 0).length = n + 1 :=
  (Nat.succ_ne_zero n).symm

/-- Where a word is asked for, the first one ahead is read. -/
theorem takes_succ_iff_next : Takes limit mask (n + 1) s taken rest ↔
    ∃ m, IsLeast {m | (accepted limit mask s (m + 1)).length = n + 1} m ∧
      taken = accepted limit mask s (m + 1) ∧ rest = s.next64.2.after m := by
  have hzero := length_accepted_zero_ne limit mask s n
  constructor
  · rintro ⟨m, hleast, htaken, hrest⟩
    cases m with
    | zero => exact absurd hleast.1 hzero
    | succ m => exact ⟨m, (isLeast_succ_iff hzero).1 hleast, htaken, hrest⟩
  · rintro ⟨m, hleast, htaken, hrest⟩
    exact ⟨m + 1, (isLeast_succ_iff hzero).2 hleast, htaken, hrest⟩

/-- A word that is kept is the first of those taken. -/
theorem takes_succ_of_lt (h : s.ahead 0 &&& mask < limit) :
    Takes limit mask (n + 1) s taken rest ↔
      ∃ taken', Takes limit mask n s.next64.2 taken' rest ∧
        taken = (s.ahead 0 &&& mask) :: taken' := by
  simp only [takes_succ_iff_next, accepted_succ_of_lt h, List.length_cons, Nat.succ_inj]
  constructor
  · rintro ⟨m, hleast, htaken, hrest⟩
    exact ⟨_, ⟨m, hleast, rfl, hrest⟩, htaken⟩
  · rintro ⟨_, ⟨m, hleast, rfl, hrest⟩, htaken⟩
    exact ⟨m, hleast, htaken, hrest⟩

/-- A word that is not kept is passed over. -/
theorem takes_succ_of_not_lt (h : ¬s.ahead 0 &&& mask < limit) :
    Takes limit mask (n + 1) s taken rest ↔ Takes limit mask (n + 1) s.next64.2 taken rest := by
  simp only [takes_succ_iff_next (s := s), accepted_succ_of_not_lt h]
  rfl

/-- From a source the words that are not kept are passed over, `x` is what the first one that is
kept leaves, and the last source is the one after it. -/
inductive Draws (limit mask : Word) : Source G → Word → Source G → Prop
  | here {s : Source G} (h : s.ahead 0 &&& mask < limit) :
      Draws limit mask s (s.ahead 0 &&& mask) s.next64.2
  | later {s rest : Source G} {x : Word} (h : ¬s.ahead 0 &&& mask < limit)
      (next : Draws limit mask s.next64.2 x rest) : Draws limit mask s x rest

/-- Words are taken one draw after the other. -/
theorem takes_succ_iff : Takes limit mask (n + 1) s taken rest ↔
    ∃ x mid taken', Draws limit mask s x mid ∧ Takes limit mask n mid taken' rest ∧
      taken = x :: taken' := by
  constructor
  · rintro ⟨m, hleast, htaken, hrest⟩
    -- The induction is on the number of words read, which each word passed over brings down.
    induction m generalizing s with
    | zero => exact absurd hleast.1 (length_accepted_zero_ne limit mask s n)
    | succ m ih =>
        by_cases h : s.ahead 0 &&& mask < limit
        · obtain ⟨taken', htaken', rfl⟩ := (takes_succ_of_lt h).1 ⟨_, hleast, htaken, hrest⟩
          exact ⟨_, _, taken', .here h, htaken', rfl⟩
        · have hnext := (isLeast_succ_iff (length_accepted_zero_ne limit mask s n)).1 hleast
          simp only [accepted_succ_of_not_lt h] at hnext htaken
          obtain ⟨x, mid, taken', hdraws, hrest'⟩ := ih hnext htaken hrest
          exact ⟨x, mid, taken', .later h hdraws, hrest'⟩
  · rintro ⟨x, mid, taken', hdraws, htaken', rfl⟩
    induction hdraws with
    | here h => exact (takes_succ_of_lt h).2 ⟨taken', htaken', rfl⟩
    | later h _ ih => exact (takes_succ_of_not_lt h).2 (ih htaken')

/-- What is taken in one go is taken in two parts. -/
theorem takes_add_iff {m : ℕ} : Takes limit mask (m + n) s taken rest ↔
    ∃ first mid second, Takes limit mask m s first mid ∧ Takes limit mask n mid second rest ∧
      taken = first ++ second := by
  induction m generalizing s taken with
  | zero => simp
  | succ m ih =>
      rw [Nat.add_right_comm, takes_succ_iff]
      constructor
      · rintro ⟨x, mid, _, hdraws, htakes, rfl⟩
        obtain ⟨first, mid', second, hfirst, hsecond, rfl⟩ := ih.1 htakes
        exact ⟨_, mid', second, takes_succ_iff.2 ⟨x, mid, first, hdraws, hfirst, rfl⟩, hsecond, rfl⟩
      · rintro ⟨_, mid', second, hfirst, hsecond, rfl⟩
        obtain ⟨x, mid, first, hdraws, htakes, rfl⟩ := takes_succ_iff.1 hfirst
        exact ⟨x, mid, _, hdraws, ih.2 ⟨first, mid', second, htakes, hsecond, rfl⟩, rfl⟩

/-- Nothing is below 0, so where a word is kept there is a bound. -/
theorem Draws.ne_zero {x : Word} (h : Draws limit mask s x rest) : limit ≠ 0 := by
  induction h with
  | here h =>
      rintro rfl
      exact UInt64.not_lt_zero h
  | later _ _ ih => exact ih

end Negacyclic.Source
