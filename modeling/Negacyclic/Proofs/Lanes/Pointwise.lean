import Negacyclic.Lanes.Chunked
import Negacyclic.Lanes.Eight
import Negacyclic.Proofs.Word.Halves

/-!
# The value at a position

The machine with eight lanes is lawful: the sums by which it puts a high product together from
halves are exact, so that each lane holds the high product of its words
(`Lanes.eight_mulHigh_exact`).

On every lawful machine a term that is run over arrays leaves at each position the value on the
words that the operands hold there (`Term.mapInto_eq_ofFn`). How the array is cut into a head and
full registers does not show, nor what the buffer held before, nor the width of the registers
(`Term.maps_pointwise`).

The proof follows the two loops. `getElem?_fold_setIfInBounds` is one loop of writes to
consecutive positions: a position that is passed holds the value written to it, any other what it
held before. A register is such a loop, and so are the head and the sequence of registers.

A buffer may be the first operand itself. Every position is then read before the loops have come to
it, so the words left are those of a buffer beside the operand (`Term.mapInPlace_eq_mapInto`).
-/

namespace Negacyclic

/-! ### The machine with eight lanes -/

/-- The machine with eight lanes differs from the portable one in its high product alone, which is
the exact one lane by lane. -/
theorem Lanes.eight_lawful : Lanes.eight.Lawful :=
  { portable_lawful 8 with
    getElem_mulHigh := fun p x y i h => by
      simp [eight, Word.mulHighByHalves_eq] }

/-- The high product of eight lanes is that of the portable machine: in every lane the product
shifted down, cut to a word. None of the products and sums it is put together from wraps. -/
theorem Lanes.eight_mulHigh_exact (p : Precision) (x y : Register 8) :
    eight.mulHigh p x y = (portable 8).mulHigh p x y ∧
      ∀ i : Fin 8,
        (eight.mulHigh p x y).get i = Word.mulHighByHalves p (x.get i) (y.get i) ∧
        ((eight.mulHigh p x y).get i).toNat =
          (x.get i).toNat * (y.get i).toNat / 2 ^ p.bits % 2 ^ 64 ∧
        Word.HalfProducts.Exact (x.get i) (y.get i) := by
  constructor
  · apply Vector.ext
    intro i hi
    rw [eight_lawful.getElem_mulHigh, (portable_lawful 8).getElem_mulHigh]
  · intro i
    have hlane : (eight.mulHigh p x y).get i = Word.mulHighByHalves p (x.get i) (y.get i) :=
      Vector.getElem_zipWith i.isLt
    refine ⟨hlane, ?_, Word.HalfProducts.exact _ _⟩
    rw [hlane, Word.toNat_mulHighByHalves]

/-! ### Loops of writes -/

/-- Writing to positions keeps the size. -/
@[simp] theorem size_fold_setIfInBounds (pos n : ℕ) (f : (j : ℕ) → j < n → Word)
    (a : Array Word) :
    (Nat.fold n (fun j h a => a.setIfInBounds (pos + j) (f j h)) a).size = a.size := by
  induction n with
  | zero => rfl
  | succ n ih => simp [ih fun j h => f j (by omega)]

/-- Writing to the positions from `pos` to `pos + n`. -/
theorem getElem?_fold_setIfInBounds (pos n : ℕ) (f : (j : ℕ) → j < n → Word) (a : Array Word)
    {i : ℕ} (hi : i < a.size) :
    (Nat.fold n (fun j h a => a.setIfInBounds (pos + j) (f j h)) a)[i]? =
      if h : pos ≤ i ∧ i < pos + n then some (f (i - pos) (by omega)) else a[i]? := by
  induction n with
  | zero =>
      rw [dif_neg (by omega)]
      rfl
  | succ n ih =>
      rw [Nat.fold_succ, Array.getElem?_setIfInBounds, ih fun j h => f j (by omega),
        size_fold_setIfInBounds pos n fun j h => f j (by omega)]
      by_cases hn : pos + n = i
      · subst hn
        rw [if_pos rfl, if_pos hi, dif_pos (by omega)]
        simp
      · rw [if_neg hn]
        by_cases hb : pos ≤ i ∧ i < pos + n
        · rw [dif_pos hb, dif_pos (by omega)]
        · rw [dif_neg hb, dif_neg (by omega)]

/-- A position that the writes have not come to holds what it held. -/
theorem getD_fold_setIfInBounds_of_le {n i : ℕ} (f : (j : ℕ) → j < n → Word) (a : Array Word)
    (hi : n ≤ i) :
    (Nat.fold n (fun j h a => a.setIfInBounds j (f j h)) a).getD i 0 = a.getD i 0 := by
  have hsize := size_fold_setIfInBounds 0 n f a
  have hget := fun h => getElem?_fold_setIfInBounds 0 n f a (i := i) h
  simp only [Nat.zero_add] at hsize hget
  rw [Array.getD_eq_getD_getElem?, Array.getD_eq_getD_getElem?]
  by_cases h : i < a.size
  · rw [hget h, dif_neg (by omega)]
  · rw [Array.getElem?_eq_none (by omega), Array.getElem?_eq_none (by omega)]

namespace Lanes

variable {L : ℕ}

/-- Storing a register keeps the size. -/
@[simp] theorem size_store (a : Array Word) (pos : ℕ) (x : Register L) :
    (store a pos x).size = a.size :=
  size_fold_setIfInBounds pos L (fun j h => x[j]) a

/-- A stored register is found in its place, and the words around it are as they were. -/
theorem getElem?_store (a : Array Word) (pos : ℕ) (x : Register L) {i : ℕ} (hi : i < a.size) :
    (store a pos x)[i]? =
      if h : pos ≤ i ∧ i < pos + L then some x[i - pos] else a[i]? :=
  getElem?_fold_setIfInBounds pos L (fun j h => x[j]) a hi

/-- A lane of a register that is loaded is the word at its place. -/
@[simp] theorem getElem_load (a : Array Word) (pos : ℕ) {i : ℕ} (h : i < L) :
    (load L a pos)[i] = a.getD (pos + i) 0 := by
  simp [load]

end Lanes

/-! ### Terms over arrays -/

namespace Term

variable {L n : ℕ} {R : Lanes L}

/-- A lane of the value on the registers from `pos` on is the value on the words at its place. -/
theorem getElem_eval_load (law : R.Lawful) (t : Term n) (xs : Vector (Array Word) n) (pos : ℕ)
    {j : ℕ} (h : j < L) :
    (t.eval R (xs.map fun x => Lanes.load L x pos))[j] =
      t.evalWord (xs.map fun x => x.getD (pos + j) 0) := by
  rw [t.getElem_eval law _ j h, Vector.map_map]
  congr 2
  funext x
  exact Lanes.getElem_load x pos h

/-- Writing the values on one register keeps the size. -/
@[simp] theorem size_writeRegister (t : Term n) (xs : Vector (Array Word) n) (pos : ℕ)
    (out : Array Word) : (t.writeRegister R xs pos out).size = out.size :=
  Lanes.size_store _ _ _

/-- Writing the values on all registers keeps the size. -/
@[simp] theorem size_writeRegisters (t : Term n) (xs : Vector (Array Word) n) (head k : ℕ)
    (out : Array Word) :
    (Nat.fold k (fun c _ out => t.writeRegister R xs (head + c * L) out) out).size =
      out.size := by
  induction k with
  | zero => rfl
  | succ k ih => simp [ih]

/-- The full registers write the positions from `head` on. -/
theorem getElem?_writeRegisters (law : R.Lawful) (t : Term n) (xs : Vector (Array Word) n)
    (head k : ℕ) (out : Array Word) {i : ℕ} (hi : i < out.size) :
    (Nat.fold k (fun c _ out => t.writeRegister R xs (head + c * L) out) out)[i]? =
      if head ≤ i ∧ i < head + k * L then some (t.evalWord (xs.map fun x => x.getD i 0))
      else out[i]? := by
  induction k with
  | zero =>
      rw [if_neg (by omega)]
      rfl
  | succ k ih =>
      rw [Nat.fold_succ, writeRegister, Lanes.getElem?_store _ _ _ (by simpa using hi), ih]
      by_cases hlast : head + k * L ≤ i ∧ i < head + k * L + L
      · rw [dif_pos hlast, if_pos (by rw [Nat.succ_mul]; omega), getElem_eval_load law,
          Nat.add_sub_cancel' hlast.1]
      · rw [dif_neg hlast]
        congr 1
        rw [Nat.succ_mul]
        exact propext (by omega)

/-- On a lawful machine every position receives the value on the words at it. -/
theorem mapInto_eq_ofFn (law : R.Lawful) (t : Term n) (xs : Vector (Array Word) n)
    (out : Array Word) :
    t.mapInto R xs out =
      Array.ofFn fun i : Fin out.size => t.evalWord (xs.map fun x => x.getD i 0) := by
  have hhead := size_fold_setIfInBounds 0 (out.size % L)
    (fun i _ => t.evalWord (xs.map fun x => x.getD i 0)) out
  have hget {i : ℕ} (hi : i < out.size) :=
    getElem?_fold_setIfInBounds 0 (out.size % L)
      (fun i _ => t.evalWord (xs.map fun x => x.getD i 0)) out hi
  simp only [Nat.zero_add] at hhead hget
  apply Array.ext_getElem?
  intro i
  by_cases hi : i < out.size
  · simp only [mapInto, writeWord]
    rw [getElem?_writeRegisters law _ _ _ _ _ (by rw [hhead]; exact hi), hget hi]
    have hdiv := Nat.mod_add_div' out.size L
    rw [Array.getElem?_ofFn, dif_pos hi]
    split_ifs with h₁ h₂
    · rfl
    · rfl
    · exact absurd hi (by omega)
  · rw [Array.getElem?_eq_none, Array.getElem?_eq_none]
    · simpa using hi
    · simp only [mapInto, size_writeRegisters, writeWord]
      rw [hhead]
      omega

end Term

/-! ### The first operand in the buffer -/

/-- A value taken of each of some operands, the first of which stands apart. -/
theorem map_insertIdx_zero {α β : Type} {n : ℕ} (g : α → β) (xs : Vector α n) (x : α) :
    (xs.insertIdx 0 x n.zero_le).map g = (xs.map g).insertIdx 0 (g x) n.zero_le := by
  apply Vector.ext
  intro i hi
  rw [Vector.getElem_map, Vector.getElem_insertIdx, Vector.getElem_insertIdx]
  split_ifs with h₁ h₂
  · exact absurd h₁ (Nat.not_lt_zero i)
  · rfl
  · exact (Vector.getElem_map _ _).symm

/-- Where the first operand is the buffer that is written, each position still holds its word when
it is read. -/
theorem fold_update_eq_fold_write {n : ℕ} (f : Vector Word (n + 1) → Word)
    (rest : Vector (Array Word) n) (out : Array Word) (m : ℕ) :
    Nat.fold m (fun i _ a => a.setIfInBounds i
        (f ((rest.map fun x => x.getD i 0).insertIdx 0 (a.getD i 0) n.zero_le))) out =
      Nat.fold m (fun i _ a => a.setIfInBounds i
        (f ((rest.insertIdx 0 out n.zero_le).map fun x => x.getD i 0))) out := by
  induction m with
  | zero => rfl
  | succ m ih =>
      rw [Nat.fold_succ, Nat.fold_succ, ih, map_insertIdx_zero,
        getD_fold_setIfInBounds_of_le _ out le_rfl]

namespace Term

variable {L n : ℕ} {R : Lanes L}

/-- A position that the registers have not come to holds what it held. -/
theorem getD_writeRegisters_of_le (law : R.Lawful) (t : Term n) (xs : Vector (Array Word) n)
    {head k i : ℕ} (out : Array Word) (hi : head + k * L ≤ i) :
    (Nat.fold k (fun c _ out => t.writeRegister R xs (head + c * L) out) out).getD i 0 =
      out.getD i 0 := by
  have hsize := t.size_writeRegisters (R := R) xs head k out
  rw [Array.getD_eq_getD_getElem?, Array.getD_eq_getD_getElem?]
  by_cases h : i < out.size
  · rw [getElem?_writeRegisters law t xs head k out h, if_neg (by omega)]
  · rw [Array.getElem?_eq_none (by omega), Array.getElem?_eq_none (by omega)]

/-- In place the words that are overwritten are those of the first operand. -/
theorem mapInPlace_eq_mapInto (law : R.Lawful) (t : Term (n + 1)) (rest : Vector (Array Word) n)
    (out : Array Word) :
    t.mapInPlace R rest out = t.mapInto R (rest.insertIdx 0 out n.zero_le) out := by
  have hhead := fold_update_eq_fold_write t.evalWord rest out (out.size % L)
  simp only [mapInPlace, mapInto, updateWord, writeWord, hhead]
  generalize out.size / L = k
  generalize hbody : Nat.fold (out.size % L) (fun i _ a => a.setIfInBounds i (t.evalWord
    ((rest.insertIdx 0 out n.zero_le).map fun x => x.getD i 0))) out = body
  induction k with
  | zero => rfl
  | succ k ih =>
      rw [Nat.fold_succ, Nat.fold_succ, ih, updateRegister, writeRegister, map_insertIdx_zero]
      congr 3
      -- a register that is read holds the words of the operand, the loops being behind it
      apply Vector.ext
      intro j hj
      rw [Lanes.getElem_load, Lanes.getElem_load, getD_writeRegisters_of_le law t _ _ (by omega),
        ← hbody, getD_fold_setIfInBounds_of_le _ out (by omega)]

/-! ### One operand and two -/

/-- The values at the positions of one operand. -/
def values (t : Term 1) (a : Array Word) : Array Word :=
  Array.ofFn fun i : Fin a.size => t.evalWord #v[a[i]]

/-- The values at the positions of two operands of one size. -/
def valuesPair (t : Term 2) (a b : Array Word) (h : b.size = a.size) : Array Word :=
  Array.ofFn fun i : Fin a.size => t.evalWord #v[a[i], b[i]]

/-- With one operand the words read by default are its elements. -/
theorem ofFn_eq_values (t : Term 1) {a : Array Word} {m : ℕ} (hm : m = a.size) :
    (Array.ofFn fun i : Fin m => t.evalWord (#v[a].map fun x => x.getD i 0)) = t.values a := by
  subst hm
  unfold values
  congr 1
  funext i
  simp [Array.getD_eq_getD_getElem?]

/-- With two operands of one size the words read by default are their elements. -/
theorem ofFn_eq_valuesPair (t : Term 2) {a b : Array Word} (hb : b.size = a.size) {m : ℕ}
    (hm : m = a.size) :
    (Array.ofFn fun i : Fin m => t.evalWord (#v[a, b].map fun x => x.getD i 0)) =
      t.valuesPair a b hb := by
  subst hm
  unfold valuesPair
  congr 1
  funext i
  have hi : (i : ℕ) < b.size := by omega
  simp [Array.getD_eq_getD_getElem?, Array.getElem?_eq_getElem hi]

/-- The loop over one operand beside the buffer leaves the values at its positions. -/
theorem mapInto_sole (law : R.Lawful) (t : Term 1) {a out : Array Word}
    (hout : out.size = a.size) : t.mapInto R #v[a] out = t.values a := by
  rw [mapInto_eq_ofFn law, t.ofFn_eq_values hout]

/-- The loop over one operand in the buffer leaves the values at its positions. -/
theorem mapInPlace_sole (law : R.Lawful) (t : Term 1) (a : Array Word) :
    t.mapInPlace R #v[] a = t.values a := by
  have hxs : (#v[] : Vector (Array Word) 0).insertIdx 0 a (Nat.zero_le 0) = #v[a] := by simp
  rw [mapInPlace_eq_mapInto law, hxs, mapInto_sole law t rfl]

/-- The loop over two operands beside the buffer leaves the values at their positions. -/
theorem mapInto_pair (law : R.Lawful) (t : Term 2) {a b out : Array Word}
    (hb : b.size = a.size) (hout : out.size = a.size) :
    t.mapInto R #v[a, b] out = t.valuesPair a b hb := by
  rw [mapInto_eq_ofFn law, t.ofFn_eq_valuesPair hb hout]

/-- The loop over two operands, the first in the buffer, leaves the values at their positions. -/
theorem mapInPlace_pair (law : R.Lawful) (t : Term 2) {a b : Array Word}
    (hb : b.size = a.size) : t.mapInPlace R #v[b] a = t.valuesPair a b hb := by
  have hxs : #v[b].insertIdx 0 a (Nat.zero_le 1) = #v[a, b] := by simp
  rw [mapInPlace_eq_mapInto law, hxs, mapInto_pair law t hb rfl]

/-- The four loops over arrays leave the values at the positions, each computed from the words of
the operands there, whatever the buffer held. The values do not mention the machine: on a second
one, with registers of any width, all four leave the same words. -/
theorem maps_pointwise (law : R.Lawful) (unary : Term 1) (binary : Term 2)
    (a b out : Array Word) (hb : b.size = a.size) (hout : out.size = a.size) :
    unary.mapInto R #v[a] out = unary.values a ∧
      unary.mapInPlace R #v[] a = unary.values a ∧
      binary.mapInto R #v[a, b] out = binary.valuesPair a b hb ∧
      binary.mapInPlace R #v[b] a = binary.valuesPair a b hb ∧
      ∀ {K : ℕ} {S : Lanes K}, S.Lawful → ∀ out' : Array Word, out'.size = a.size →
        unary.mapInto S #v[a] out' = unary.mapInto R #v[a] out ∧
          unary.mapInPlace S #v[] a = unary.mapInto R #v[a] out ∧
          binary.mapInto S #v[a, b] out' = binary.mapInto R #v[a, b] out ∧
          binary.mapInPlace S #v[b] a = binary.mapInto R #v[a, b] out := by
  have hunary := mapInto_sole law unary hout
  have hbinary := mapInto_pair law binary hb hout
  refine ⟨hunary, mapInPlace_sole law unary a, hbinary, mapInPlace_pair law binary hb, ?_⟩
  intro K S hS out' hout'
  rw [hunary, hbinary]
  exact ⟨mapInto_sole hS unary hout', mapInPlace_sole hS unary a, mapInto_pair hS binary hb hout',
    mapInPlace_pair hS binary hb⟩

/-- Eleven words on the machine with eight lanes: a head of three and one full register. -/
theorem maps_pointwise_eleven :
    Lanes.eight.Lawful ∧ (Lanes.portable 1).Lawful ∧
      (reduceOnce (.input 0) (.word 7) : Term 1).mapInPlace Lanes.eight #v[]
          #[3, 5, 7, 9, 11, 13, 15, 17, 19, 21, 23] = #[3, 5, 0, 2, 4, 6, 8, 10, 12, 14, 16] ∧
      (sub (.input 0) (.input 1) : Term 2).mapInto (Lanes.portable 1)
          #v[#[3, 5, 7, 9, 11, 13, 15, 17, 19, 21, 23], #[0, 1, 2, 3, 4, 5, 6, 7, 8, 9, 10]]
          (Array.replicate 11 1) = #[3, 4, 5, 6, 7, 8, 9, 10, 11, 12, 13] := by
  obtain ⟨-, hunary, hbinary, -, hsame⟩ := maps_pointwise Lanes.eight_lawful
    (reduceOnce (.input 0) (.word 7)) (sub (.input 0) (.input 1))
    #[3, 5, 7, 9, 11, 13, 15, 17, 19, 21, 23] #[0, 1, 2, 3, 4, 5, 6, 7, 8, 9, 10]
    (Array.replicate 11 0) rfl rfl
  have hportable := Lanes.portable_lawful 1
  obtain ⟨-, -, hbinary', -⟩ := hsame hportable (Array.replicate 11 1) rfl
  refine ⟨Lanes.eight_lawful, hportable, hunary.trans (by decide), ?_⟩
  exact (hbinary'.trans hbinary).trans (by decide)

end Term

end Negacyclic
