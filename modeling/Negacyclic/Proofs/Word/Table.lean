import Mathlib.Data.List.Forall2
import Mathlib.Data.Nat.Notation
import Negacyclic.Word.Basic

/-!
# Arrays read with a default

The layers read words and table entries with a default for positions past the end. These lemmas
say what such a read gives on the arrays that the transforms build; none of them needs a proof that
the position exists where the two sides agree without one. Read so, an array is also what a step
that can fail makes of another one (`mapM_eq_ok`).
-/

namespace Negacyclic

variable {α β : Type}

/-- Arrays of one size that are read alike are equal. -/
theorem ext_getD {x y : Array α} (d : α) (hsize : x.size = y.size)
    (h : ∀ i < x.size, x.getD i d = y.getD i d) : x = y := by
  apply Array.ext hsize
  intro i h₁ h₂
  have := h i h₁
  rwa [Array.getD_eq_getD_getElem?, Array.getD_eq_getD_getElem?, Array.getElem?_eq_getElem h₁,
    Array.getElem?_eq_getElem h₂] at this

/-- Arrays of `n` words that hold the same numbers. -/
theorem ext_toNat {x y : Array Word} {n : ℕ} (hx : x.size = n) (hy : y.size = n)
    (h : ∀ i < n, (x.getD i 0).toNat = (y.getD i 0).toNat) : x = y :=
  ext_getD 0 (hx.trans hy.symm) fun i hi => UInt64.toNat_inj.1 (h i (hx ▸ hi))

/-- A repeated entry is read at every position. -/
theorem getD_replicate {n : ℕ} (v d : α) {i : ℕ} (h : i < n) :
    (Array.replicate n v).getD i d = v := by
  rw [Array.getD_eq_getD_getElem?, Array.getElem?_replicate, if_pos h, Option.getD_some]

/-- An array made position by position is read so. -/
theorem getD_ofFn {n : ℕ} (g : Fin n → α) (d : α) {i : ℕ} (h : i < n) :
    (Array.ofFn g).getD i d = g ⟨i, h⟩ := by
  rw [Array.getD_eq_getD_getElem?, Array.getElem?_ofFn, dif_pos h, Option.getD_some]

/-- Before the seam the first array is read. -/
theorem getD_append_left (x y : Array α) (d : α) {i : ℕ} (h : i < x.size) :
    (x ++ y).getD i d = x.getD i d := by
  rw [Array.getD_eq_getD_getElem?, Array.getElem?_append_left h, ← Array.getD_eq_getD_getElem?]

/-- From the seam on the second array is read. -/
theorem getD_append_right (x y : Array α) (d : α) (i : ℕ) :
    (x ++ y).getD (x.size + i) d = y.getD i d := by
  rw [Array.getD_eq_getD_getElem?, Array.getElem?_append_right (Nat.le_add_right _ _),
    Nat.add_sub_cancel_left, ← Array.getD_eq_getD_getElem?]

/-- A part is read at the positions moved down. -/
theorem getD_extract (x : Array α) (d : α) {start stop i : ℕ} (h : i < stop - start)
    (hstop : stop ≤ x.size) : (x.extract start stop).getD i d = x.getD (start + i) d := by
  rw [Array.getD_eq_getD_getElem?, Array.getElem?_extract, Nat.min_eq_left hstop, if_pos h,
    ← Array.getD_eq_getD_getElem?]

/-- The entries of a part are entries. -/
theorem mem_of_mem_extract {x : Array α} {start stop : ℕ} {v : α} (h : v ∈ x.extract start stop) :
    v ∈ x := by
  obtain ⟨i, hi, rfl⟩ := Array.mem_extract_iff_getElem.1 h
  exact Array.getElem_mem _

/-- A position that exists is read as an entry. -/
theorem getD_mem {x : Array α} {i : ℕ} (h : i < x.size) (d : α) : x.getD i d ∈ x := by
  rw [Array.getD_eq_getD_getElem?, Array.getElem?_eq_getElem h]
  exact Array.getElem_mem h

/-- What holds of every entry of an array and of the default holds of every read. -/
theorem getD_of_forall {P : α → Prop} {x : Array α} {d : α} (h : ∀ v ∈ x, P v) (hd : P d)
    (i : ℕ) : P (x.getD i d) := by
  by_cases hi : i < x.size
  · exact h _ (getD_mem hi d)
  · rw [Array.getD_eq_getD_getElem?, Array.getElem?_eq_none (by omega)]
    exact hd

/-- What holds of every value and of the default holds of every read. -/
theorem getD_ofFn_of_forall {P : α → Prop} {n : ℕ} {g : Fin n → α} {d : α} (h : ∀ i, P (g i))
    (hd : P d) (i : ℕ) : P ((Array.ofFn g).getD i d) := by
  refine getD_of_forall ?_ hd i
  intro v hv
  obtain ⟨j, rfl⟩ := Array.mem_ofFn.1 hv
  exact h j

/-- What holds of every read of an array holds of every entry. -/
theorem forall_mem_of_getD {P : α → Prop} {x : Array α} {d : α}
    (h : ∀ i < x.size, P (x.getD i d)) : ∀ v ∈ x, P v := by
  intro v hv
  obtain ⟨i, hi, rfl⟩ := Array.mem_iff_getElem.1 hv
  have := h i hi
  rwa [Array.getD_eq_getD_getElem?, Array.getElem?_eq_getElem hi, Option.getD_some] at this

/-- A mapped array is read mapped. -/
theorem getD_map (f : α → β) {x : Array α} (d : α) (e : β) {i : ℕ} (h : i < x.size) :
    (x.map f).getD i e = f (x.getD i d) := by
  rw [Array.getD_eq_getD_getElem?, Array.getElem?_map, Array.getD_eq_getD_getElem?,
    Array.getElem?_eq_getElem h, Option.map_some, Option.getD_some, Option.getD_some]

/-! ### One position written -/

/-- The position that is written is read as written. -/
theorem getD_setIfInBounds_self (x : Array α) (d v : α) {i : ℕ} (h : i < x.size) :
    (x.setIfInBounds i v).getD i d = v := by
  rw [Array.getD_eq_getD_getElem?, Array.getElem?_setIfInBounds_self_of_lt h, Option.getD_some]

/-- Any other position is read as before. -/
theorem getD_setIfInBounds_ne (x : Array α) (d v : α) {i j : ℕ} (h : i ≠ j) :
    (x.setIfInBounds i v).getD j d = x.getD j d := by
  rw [Array.getD_eq_getD_getElem?, Array.getElem?_setIfInBounds_ne h,
    ← Array.getD_eq_getD_getElem?]

/-! ### A step that can fail -/

/-- A step that succeeds on the entries of a list one by one succeeds on the list. -/
theorem mapM_eq_ok_of_forall₂ {ε : Type} {f : α → Except ε β} {l : List α} {l' : List β}
    (h : List.Forall₂ (fun v w => f v = .ok w) l l') : l.mapM f = .ok l' := by
  induction h with
  | nil => rfl
  | cons hv _ ih =>
      rw [List.mapM_cons, hv, ih]
      rfl

/-- A step that succeeds on every entry of an array succeeds on the array. -/
theorem mapM_eq_ok {ε : Type} {f : α → Except ε β} {x : Array α} {y : Array β} (d : α) (e : β)
    (hsize : x.size = y.size) (h : ∀ i < x.size, f (x.getD i d) = .ok (y.getD i e)) :
    x.mapM f = .ok y := by
  have hlist : x.toList.mapM f = .ok y.toList := by
    apply mapM_eq_ok_of_forall₂
    rw [List.forall₂_iff_get]
    refine ⟨hsize, fun i hx hy => ?_⟩
    have hi := h i hx
    rwa [Array.getD_eq_getD_getElem?, Array.getD_eq_getD_getElem?, Array.getElem?_eq_getElem hx,
      Array.getElem?_eq_getElem hy] at hi
  rw [Array.mapM_eq_mapM_toList, hlist]
  rfl

end Negacyclic
