import Mathlib
import Negacyclic.Proofs.Sampler.Mask
import Negacyclic.Proofs.Sampler.Stream

/-!
# Draws below a bound

Filling a buffer takes the first words of the stream that the mask leaves below the bound, and so
does drawing an array, if there is room for it (`draws_exact`). This holds for every generator and
from each of its states.

A draw has a budget, and no budget is certain to be enough. What a draw comes to when it may read
on is what it comes to with some budget (`Returns`). Any answer, whatever the budget, is one that
`Draws` has (`draws_of_drawMasked`), and what `Draws` has is the answer with every budget that is
large enough (`Draws.exists_drawMasked`); for the words of a buffer the least budgets add up.

A bound of zero is refused before anything is read. `Draw` cannot show this, since it forgets the
source of a draw without an answer. The draws are therefore also run in `KeptDraw`, which does not.
-/

namespace Negacyclic.Source

variable {G : Generator} {limit mask bound : Word} {s rest : Source G} {n : ℕ} {taken : List Word}

/-! ### One word -/

/-- A draw in two steps has an answer where the first step has one and the second has one from
there. -/
theorem bind_eq_ok_iff {α β : Type} {x : Draw G α} {f : α → Draw G β} {b : β} :
    (x >>= f) s = .ok (b, rest) ↔ ∃ a mid, x s = .ok (a, mid) ∧ f a mid = .ok (b, rest) := by
  change (x s >>= fun p => f p.1 p.2) = _ ↔ _
  cases x s with
  | error e => simp [bind, Except.bind]
  | ok p =>
      obtain ⟨a, mid⟩ := p
      simp [bind, Except.bind]

/-- One turn of a draw: the word ahead is the answer, or it is passed over. -/
theorem drawMasked_succ (budget : ℕ) (s : Source G) :
    (drawMasked limit mask (budget + 1) : Draw G Word) s =
      if s.ahead 0 &&& mask < limit then .ok (s.ahead 0 &&& mask, s.next64.2)
      else (drawMasked limit mask budget : Draw G Word) s.next64.2 := by
  rw [drawMasked]
  change (if s.ahead 0 &&& mask < limit then (pure (s.ahead 0 &&& mask) : Draw G Word)
    else drawMasked limit mask budget) s.next64.2 = _
  split_ifs <;> rfl

/-- An answer is that of the draw without a budget. -/
theorem draws_of_drawMasked {budget : ℕ} {x : Word}
    (h : (drawMasked limit mask budget : Draw G Word) s = .ok (x, rest)) :
    Draws limit mask s x rest := by
  induction budget generalizing s with
  | zero => cases h
  | succ budget ih =>
      rw [drawMasked_succ] at h
      split_ifs at h with hlt
      · cases h
        exact .here hlt
      · exact .later hlt (ih h)

/-- Every large enough budget is enough. -/
theorem Draws.exists_drawMasked {x : Word} (h : Draws limit mask s x rest) :
    ∃ least, ∀ budget ≥ least,
      (drawMasked limit mask budget : Draw G Word) s = .ok (x, rest) := by
  induction h with
  | here h =>
      refine ⟨1, fun budget hbudget => ?_⟩
      obtain ⟨budget, rfl⟩ := Nat.exists_eq_add_of_le' hbudget
      rw [drawMasked_succ, if_pos h]
  | later h _ ih =>
      obtain ⟨least, hleast⟩ := ih
      refine ⟨least + 1, fun budget hbudget => ?_⟩
      obtain ⟨budget, rfl⟩ := Nat.exists_eq_add_of_le' (Nat.le_of_add_left_le hbudget)
      rw [drawMasked_succ, if_neg h]
      exact hleast budget (by omega)

/-- A bound that is not zero has a mask. -/
theorem drawBelow_of_ne_zero (h : bound ≠ 0) (budget : ℕ) :
    (drawBelow budget bound : Draw G Word) = drawMasked bound (maskFor bound) budget :=
  if_neg h

/-- A draw below a bound that has an answer is one with the mask of the bound. -/
theorem draws_of_drawBelow {budget : ℕ} {x : Word}
    (h : (drawBelow budget bound : Draw G Word) s = .ok (x, rest)) :
    Draws bound (maskFor bound) s x rest := by
  by_cases hbound : bound = 0
  · rw [drawBelow, if_pos hbound] at h
    cases h
  · rw [drawBelow_of_ne_zero hbound] at h
    exact draws_of_drawMasked h

/-! ### A list of words -/

/-- Words drawn one after the other are taken from the stream. -/
theorem takes_of_mapM {budget : ℕ} {buffer : List Word}
    (h : (buffer.mapM fun _ => drawBelow budget bound : Draw G (List Word)) s = .ok (taken, rest)) :
    Takes bound (maskFor bound) buffer.length s taken rest := by
  induction buffer generalizing s taken with
  | nil =>
      cases h
      exact takes_zero_iff.2 ⟨rfl, rfl⟩
  | cons _ buffer ih =>
      rw [List.mapM_cons, bind_eq_ok_iff] at h
      obtain ⟨x, mid, hx, h⟩ := h
      obtain ⟨taken', rest', htaken', h⟩ := bind_eq_ok_iff.1 h
      cases h
      exact takes_succ_iff.2 ⟨x, mid, taken', draws_of_drawBelow hx, ih htaken', rfl⟩

/-- Words that can be taken are drawn one after the other with every large enough budget; the least
budgets of the draws add up to one. -/
theorem Takes.exists_mapM (buffer : List Word)
    (h : Takes bound (maskFor bound) buffer.length s taken rest) :
    ∃ least, ∀ budget ≥ least,
      (buffer.mapM fun _ => drawBelow budget bound : Draw G (List Word)) s = .ok (taken, rest) := by
  induction buffer generalizing s taken with
  | nil =>
      obtain ⟨rfl, rfl⟩ := takes_zero_iff.1 h
      exact ⟨0, fun _ _ => rfl⟩
  | cons _ buffer ih =>
      obtain ⟨x, mid, taken', hdraws, htaken', rfl⟩ := takes_succ_iff.1 h
      obtain ⟨least, hleast⟩ := hdraws.exists_drawMasked
      obtain ⟨least', hleast'⟩ := ih htaken'
      refine ⟨least + least', fun budget hbudget => ?_⟩
      have hx : (drawBelow budget bound : Draw G Word) s = .ok (x, mid) := by
        rw [drawBelow_of_ne_zero hdraws.ne_zero]
        exact hleast budget (by omega)
      have hrest := hleast' budget (by omega)
      rw [List.mapM_cons, bind_eq_ok_iff]
      exact ⟨x, mid, hx, bind_eq_ok_iff.2 ⟨taken', rest, hrest, rfl⟩⟩

/-! ### Buffers and arrays -/

/-- With some budget the draw comes to `a` and leaves the source at `rest`. -/
def Returns {α : Type} (draw : ℕ → Draw G α) (s : Source G) (a : α) (rest : Source G) : Prop :=
  ∃ budget, draw budget s = .ok (a, rest)

/-- To fill a buffer is to draw a list of words of its size. -/
theorem fillBelow_eq_ok_iff {budget : ℕ} {buffer out : Array Word} :
    (fillBelow budget bound buffer : Draw G (Array Word)) s = .ok (out, rest) ↔
      (buffer.toList.mapM fun _ => drawBelow budget bound : Draw G (List Word)) s =
        .ok (out.toList, rest) := by
  rw [fillBelow, Array.mapM_eq_mapM_toList, map_eq_pure_bind, bind_eq_ok_iff]
  constructor
  · rintro ⟨taken, mid, htaken, h⟩
    cases h
    exact htaken
  · exact fun h => ⟨_, _, h, rfl⟩

/-- What fills a buffer does not depend on what it held. -/
theorem returns_fillBelow_iff {buffer out : Array Word} :
    Returns (fillBelow · bound buffer) s out rest ↔
      Takes bound (maskFor bound) buffer.size s out.toList rest := by
  constructor
  · rintro ⟨budget, h⟩
    exact takes_of_mapM (fillBelow_eq_ok_iff.1 h)
  · intro h
    obtain ⟨least, hleast⟩ := Takes.exists_mapM buffer.toList h
    exact ⟨least, fillBelow_eq_ok_iff.2 (hleast least le_rfl)⟩

/-- Where there is room for an array, it is a buffer of zeros that is filled. -/
theorem drawArray_of_le {M : Type → Type} [Monad M] [LawfulMonad M] [MonadExceptOf DrawFault M]
    [MonadState (Source G) M] (hn : n ≤ maxWords) (budget : ℕ) :
    (drawArray budget bound n : M (Array Word)) =
      fillBelow budget bound (Array.replicate n 0) := by
  rw [drawArray, freshBuffer, zeros?, if_pos hn, pure_bind]

/-- An array is drawn where there is room for it and the stream has the words. -/
theorem returns_drawArray_iff {out : Array Word} :
    Returns (drawArray · bound n) s out rest ↔
      n ≤ maxWords ∧ Takes bound (maskFor bound) n s out.toList rest := by
  by_cases hn : n ≤ maxWords
  · simp only [drawArray_of_le hn, returns_fillBelow_iff, Array.size_replicate, hn, true_and]
  · have hnot : ¬Returns (drawArray · bound n) s out rest := by
      rintro ⟨budget, h⟩
      dsimp only at h
      rw [drawArray, freshBuffer, zeros?, if_neg hn] at h
      cases h
    simp only [hn, false_and, hnot]

/-- An array is drawn in one go if there is room for it and it can be drawn in two parts. -/
theorem returns_drawArray_add_iff {m : ℕ} {out : Array Word} :
    Returns (drawArray · bound (m + n)) s out rest ↔
      m + n ≤ maxWords ∧ ∃ first mid second, Returns (drawArray · bound m) s first mid ∧
        Returns (drawArray · bound n) mid second rest ∧ out = first ++ second := by
  simp only [returns_drawArray_iff, takes_add_iff]
  constructor
  · rintro ⟨hle, first, mid, second, hfirst, hsecond, hout⟩
    refine ⟨hle, first.toArray, mid, second.toArray, ⟨by omega, hfirst⟩, ⟨by omega, hsecond⟩, ?_⟩
    rw [← Array.toList_inj, hout, Array.toList_append]
  · rintro ⟨hle, first, mid, second, ⟨-, hfirst⟩, ⟨-, hsecond⟩, rfl⟩
    exact ⟨hle, first.toList, mid, second.toList, hfirst, hsecond, Array.toList_append⟩

/-! ### A bound of zero -/

section zero

variable {M : Type → Type} [Monad M] [LawfulMonad M] [MonadExceptOf DrawFault M]
  [MonadState (Source G) M]

/-- Nothing that follows a fault is done. -/
def FaultsEnd (M : Type → Type) [Monad M] [MonadExceptOf DrawFault M] : Prop :=
  ∀ {α β : Type} (e : DrawFault) (f : α → M β), (throw e >>= f) = throw e

/-- With a bound of zero the first word that is asked for is refused, and nothing is done before. -/
theorem fillBelow_zero (hfaults : FaultsEnd M) (budget : ℕ) (buffer : Array Word) :
    (fillBelow budget 0 buffer : M (Array Word)) =
      if buffer.size = 0 then pure #[] else throw .zeroBound := by
  obtain ⟨buffer⟩ := buffer
  rw [fillBelow, Array.mapM_eq_mapM_toList]
  cases buffer with
  | nil => simp
  | cons v buffer =>
      rw [List.mapM_cons, drawBelow, if_pos rfl, hfaults, map_eq_pure_bind, hfaults]
      exact (if_neg (Nat.succ_ne_zero _)).symm

/-- With a bound of zero an array of no words is drawn and every other is refused, for want of room
before for want of a bound. -/
theorem drawArray_zero (hfaults : FaultsEnd M) (budget n : ℕ) :
    (drawArray budget 0 n : M (Array Word)) =
      if n = 0 then pure #[] else throw (if n ≤ maxWords then .zeroBound else .tooLong) := by
  by_cases hn : n ≤ maxWords
  · rw [drawArray_of_le hn, fillBelow_zero hfaults, Array.size_replicate, if_pos hn]
  · have hne : n ≠ 0 := by
      rintro rfl
      exact hn (Nat.zero_le _)
    rw [drawArray, freshBuffer, zeros?, if_neg hn, if_neg hne, if_neg hn]
    exact hfaults _ _

end zero

/-- A computation that reads from a source, with the source that it leaves also where it has no
answer. -/
abbrev KeptDraw (G : Generator) := ExceptT DrawFault (StateM (Source G))

/-- The answer or the fault of a computation, and the source that it leaves. -/
def KeptDraw.outcome {α : Type} (x : KeptDraw G α) (s : Source G) :
    Except DrawFault α × Source G :=
  x.run s

/-- Faults end a draw that forgets its source. -/
theorem faultsEnd_draw : FaultsEnd (Draw G) := fun _ _ => rfl

/-- Faults end a draw that keeps its source. -/
theorem faultsEnd_kept : FaultsEnd (KeptDraw G) := fun _ _ => rfl

/-! ### Exactness -/

/-- Draws below a bound from any state of any generator, with the mask of the bits of the greatest
word below the bound. Where a buffer is filled or an array drawn, the words are the first of the
stream that are below the bound when cut to the mask, in order, and the source is left right after
the last of them; this happens wherever the stream has as many, and nowhere else. Two arrays drawn
one after the other are the two parts of one. With a bound of zero nothing is read: a draw of no
words has its answer, any other is refused. -/
theorem draws_exact (bound mask : Word) (hbound : 1 ≤ bound.toNat)
    (hmask : mask.toNat = 2 ^ max 1 (bound.toNat - 1).size - 1) (s : Source G) :
    (∀ buffer out rest, Returns (fillBelow · bound buffer) s out rest ↔
        Takes bound mask buffer.size s out.toList rest) ∧
      (∀ n out rest, Returns (drawArray · bound n) s out rest ↔
        n ≤ maxWords ∧ Takes bound mask n s out.toList rest) ∧
      (∀ m n out rest, Returns (drawArray · bound (m + n)) s out rest ↔
        m + n ≤ maxWords ∧ ∃ first mid second, Returns (drawArray · bound m) s first mid ∧
          Returns (drawArray · bound n) mid second rest ∧ out = first ++ second) ∧
      (∀ budget buffer, KeptDraw.outcome (fillBelow budget 0 buffer) s =
        (if buffer.size = 0 then .ok #[] else .error .zeroBound, s)) ∧
      (∀ budget n, KeptDraw.outcome (drawArray budget 0 n) s =
        (if n = 0 then .ok #[] else .error (if n ≤ maxWords then .zeroBound else .tooLong), s)) ∧
      ∀ budget n, (drawArray budget 0 n : Draw G (Array Word)).run s =
        if n = 0 then .ok (#[], s)
        else .error (if n ≤ maxWords then .zeroBound else .tooLong) := by
  obtain rfl : mask = maskFor bound :=
    UInt64.toNat_inj.1 (hmask.trans (toNat_maskFor hbound).symm)
  refine ⟨fun _ _ _ => returns_fillBelow_iff, fun _ _ _ => returns_drawArray_iff,
    fun _ _ _ _ => returns_drawArray_add_iff, fun budget buffer => ?_, fun budget n => ?_,
    fun budget n => ?_⟩
  · rw [fillBelow_zero faultsEnd_kept]
    split_ifs <;> rfl
  · rw [drawArray_zero faultsEnd_kept]
    split_ifs <;> rfl
  · rw [drawArray_zero faultsEnd_draw]
    split_ifs <;> rfl

/-! ### A stream with known words -/

/-- The generator that reads a list of 32-bit words, then zeros, whatever its seed. A word is two of
them, low half first; bytes are taken from whole ones, least byte first. -/
def listed (ws : List UInt32) : Generator where
  State := List UInt32
  ofBytes _ := ws
  ofWord _ := ws
  next32 ahead := (ahead.headD 0, ahead.tail)
  next64 ahead :=
    ((ahead.getD 0 0).toUInt64 ||| ((ahead.getD 1 0).toUInt64 <<< 32), ahead.drop 2)
  nextBytes n ahead :=
    (Vector.ofFn fun i => (ahead.getD (i.val / 4) 0 >>> (8 * (i.val % 4)).toUInt32).toUInt8,
      ahead.drop ((n + 3) / 4))

/-- The first fourteen words of the keystream of ChaCha with eight rounds for the seed 7. -/
def chachaWords : List UInt32 :=
  [601310139, 677729076, 781920570, 721508819, 1160025393, 3024842937, 155073251, 3121330102,
    305650568, 2582387807, 3482975782, 1543458211, 1039513755, 356737951]

/-- Six words below 5: of the first seven ahead, cut to three bits, all but the sixth. -/
theorem draws_exact_five :
    let s : Source (listed chachaWords) := ofWord 7
    Takes 5 7 6 s [3, 2, 1, 3, 0, 3] ⟨[]⟩ ∧
      ∃ first mid second, Returns (drawArray · 5 4) s first mid ∧
        Returns (drawArray · 5 2) mid second ⟨[]⟩ ∧ #[3, 2, 1, 3, 0, 3] = first ++ second := by
  intro s
  have hdraw : Returns (drawArray · 5 6) s #[3, 2, 1, 3, 0, 3] ⟨[]⟩ := ⟨2, by cbv⟩
  obtain ⟨-, htakes, hsplit, -⟩ := draws_exact 5 7 (by decide) (by decide) s
  exact ⟨((htakes 6 _ _).1 hdraw).2, ((hsplit 4 2 _ _).1 hdraw).2⟩

end Negacyclic.Source
