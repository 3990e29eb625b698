import Mathlib.Order.Nat
import Mathlib.Tactic.SplitIfs
import Negacyclic.Proofs.Word.Table
import Negacyclic.Transform.Replicated
import Negacyclic.Word.Bits

/-!
# Where the copies of an entry stand

`expand` writes segment after segment, so the copies of an entry stand behind those of all entries
before it. For any segments that cut the table without a gap (`Cuts`), `place` and `count` read off
them where the copies of an entry start and how many there are; the next entry starts where they
end (`place_succ`). By induction along the segments the table with copies consists of just these
runs (`Cuts.laidOut`): every place of it belongs to one entry, and the entries keep their order.

`forwardIndex` and `inverseIndex` are the closed forms of `place` for the two lists of segments.
`layout_exact` puts this together for both tables of a transform.
-/

namespace Negacyclic

/-! ### Repeated entries -/

/-- Entry `i` is repeated at the places `c * i` to `c * i + c`. -/
theorem getElem?_flatMap_replicate {α : Type} (l : List α) (c i : ℕ) {r : ℕ} (hr : r < c) :
    (l.flatMap (List.replicate c))[c * i + r]? = l[i]? := by
  induction l generalizing i with
  | nil => simp
  | cons x l ih =>
      rw [List.flatMap_cons]
      cases i with
      | zero =>
          rw [List.getElem?_append_left (by simpa using hr)]
          simp [hr]
      | succ i =>
          rw [List.getElem?_append_right (by rw [List.length_replicate, Nat.mul_succ]; omega),
            List.length_replicate, List.getElem?_cons_succ, ← ih i]
          congr 1
          rw [Nat.mul_succ]
          omega

/-- The copies of the entries of a segment. -/
def Segment.entries (table : Array Multiplier) (s : Segment) : Array Multiplier :=
  (table.extract s.first s.stop).flatMap fun w => Array.replicate s.copies w

namespace Segment

variable {table : Array Multiplier} {s : Segment}

/-- The copies of a segment as a list. -/
theorem toList_entries : (s.entries table).toList =
    (table.extract s.first s.stop).toList.flatMap (List.replicate s.copies) := by
  simp [entries, Array.toList_flatMap]

/-- A segment has as many copies for each of its entries. -/
theorem size_entries (h : s.stop ≤ table.size) :
    (s.entries table).size = (s.stop - s.first) * s.copies := by
  rw [← Array.length_toList, toList_entries, List.length_flatMap]
  simp only [List.length_replicate, List.map_const', List.sum_replicate_nat, Array.length_toList,
    Array.size_extract, Nat.min_eq_left h]

/-- The copies of entry `i` within its segment. -/
theorem getElem?_entries (h : s.stop ≤ table.size) {i r : ℕ} (hi : s.first ≤ i) (hi' : i < s.stop)
    (hr : r < s.copies) :
    (s.entries table)[(i - s.first) * s.copies + r]? = table[i]? := by
  rw [← Array.getElem?_toList, toList_entries, Nat.mul_comm, getElem?_flatMap_replicate _ _ _ hr,
    Array.getElem?_toList, Array.getElem?_extract, Nat.min_eq_left h, if_pos (by omega),
    Nat.add_sub_cancel' hi]

end Segment

namespace Replicated

variable {table : Array Multiplier} {segments : List Segment}

/-- Segments are put behind whatever is there. -/
theorem foldl_append_entries (out : Array Multiplier) (segments : List Segment) :
    segments.foldl (fun out s => out ++ s.entries table) out =
      out ++ expand table segments := by
  unfold expand
  change _ = out ++ segments.foldl (fun out s => out ++ s.entries table) #[]
  induction segments generalizing out with
  | nil => simp
  | cons s segments ih =>
      rw [List.foldl_cons, List.foldl_cons, ih, ih (#[] ++ _), Array.empty_append,
        Array.append_assoc]

/-- The copies of the first segment come first. -/
theorem expand_cons (s : Segment) (segments : List Segment) :
    expand table (s :: segments) = s.entries table ++ expand table segments := by
  rw [← foldl_append_entries, expand, List.foldl_cons, Array.empty_append]
  rfl

/-- Without segments there are no copies. -/
@[simp] theorem expand_nil : expand table [] = #[] := rfl

/-- An entry of a table with copies is an entry of the table. -/
theorem mem_of_mem_expand {w : Multiplier} (h : w ∈ expand table segments) : w ∈ table := by
  induction segments with
  | nil => simp at h
  | cons s segments ih =>
      rw [expand_cons] at h
      rcases Array.mem_append.1 h with h | h
      · obtain ⟨v, hv, hw⟩ := Array.mem_flatMap.1 h
        obtain ⟨-, rfl⟩ := Array.mem_replicate.1 hw
        exact mem_of_mem_extract hv
      · exact ih h

/-! ### Segments that cut a table -/

/-- The segments take the entries from `a` to `b`, each from where the one before it stops. -/
def Cuts : ℕ → List Segment → ℕ → Prop
  | a, [], b => a = b
  | a, s :: segments, b => s.first = a ∧ a ≤ s.stop ∧ Cuts s.stop segments b

/-- Where the copies of entry `i` start. -/
def place : List Segment → ℕ → ℕ
  | [], _ => 0
  | s :: segments, i =>
      if i < s.stop then (i - s.first) * s.copies
      else (s.stop - s.first) * s.copies + place segments i

/-- The number of copies of entry `i`. -/
def count : List Segment → ℕ → ℕ
  | [], _ => 0
  | s :: segments, i => if i < s.stop then s.copies else count segments i

namespace Cuts

variable {a b i : ℕ}

/-- Segments that cut a table go up. -/
theorem le (h : Cuts a segments b) : a ≤ b := by
  induction segments generalizing a with
  | nil => exact h.le
  | cons s segments ih => exact h.2.1.trans (ih h.2.2)

/-- No segment reaches outside. -/
theorem inside (h : Cuts a segments b) {s : Segment} (hs : s ∈ segments) :
    s.first ≤ s.stop ∧ s.stop ≤ b := by
  induction segments generalizing a with
  | nil => exact absurd hs List.not_mem_nil
  | cons u segments ih =>
      obtain ⟨hfirst, hstop, hrest⟩ := h
      rcases List.mem_cons.1 hs with rfl | hs
      · exact ⟨hfirst.trans_le hstop, hrest.le⟩
      · exact ih hrest hs

/-- The copies of the first entry stand at the start. -/
theorem place_start (h : Cuts a segments b) : place segments a = 0 := by
  induction segments generalizing a with
  | nil => rfl
  | cons s segments ih =>
      obtain ⟨rfl, hstop, hrest⟩ := h
      unfold place
      rw [Nat.sub_self, Nat.zero_mul]
      split_ifs with hlt
      · rfl
      · have heq : s.first = s.stop := by omega
        rw [heq, Nat.sub_self, Nat.zero_mul, ih hrest]

/-- Behind the last entry the table ends. -/
theorem place_stop (h : Cuts a segments b) (hb : b ≤ table.size) :
    place segments b = (expand table segments).size := by
  induction segments generalizing a with
  | nil => rfl
  | cons s segments ih =>
      obtain ⟨-, -, hrest⟩ := h
      have hle := hrest.le
      rw [expand_cons, Array.size_append, Segment.size_entries (hle.trans hb), ← ih hrest, place,
        if_neg (by omega)]

/-- The next entry starts where the copies of an entry end. -/
theorem place_succ (h : Cuts a segments b) (hi : a ≤ i) (hi' : i < b) :
    place segments (i + 1) = place segments i + count segments i := by
  induction segments generalizing a with
  | nil => exact absurd (hi.trans_lt hi') (h ▸ Nat.lt_irrefl a)
  | cons s segments ih =>
      obtain ⟨rfl, hstop, hrest⟩ := h
      unfold place count
      rcases Nat.lt_or_ge i s.stop with hlt | hge
      · have hcopies : (i + 1 - s.first) * s.copies = (i - s.first) * s.copies + s.copies := by
          rw [Nat.sub_add_comm hi, Nat.succ_mul]
        rw [if_pos hlt, if_pos hlt, ← hcopies]
        split_ifs with hnext
        · rfl
        -- `i` is the last entry of its segment, and the next one opens the segments behind it
        · have hstart : s.stop = i + 1 := by omega
          rw [← hstart, hrest.place_start, Nat.add_zero]
      · rw [if_neg (by omega), if_neg (by omega), if_neg (by omega), ih hrest hge, Nat.add_assoc]

/-- From its place on the table holds the copies of an entry. -/
theorem getElem?_expand (h : Cuts a segments b) (hb : b ≤ table.size) (hi : a ≤ i) (hi' : i < b)
    {r : ℕ} (hr : r < count segments i) :
    (expand table segments)[place segments i + r]? = table[i]? := by
  induction segments generalizing a with
  | nil => exact absurd (hi.trans_lt hi') (h ▸ Nat.lt_irrefl a)
  | cons s segments ih =>
      obtain ⟨rfl, hstop, hrest⟩ := h
      have hsize := Segment.size_entries (s := s) (hrest.le.trans hb)
      unfold place
      unfold count at hr
      rw [expand_cons]
      rcases Nat.lt_or_ge i s.stop with hlt | hge
      · rw [if_pos hlt] at hr ⊢
        -- the copies of the entry lie in the part that its segment makes
        have hentry : i - s.first + 1 ≤ s.stop - s.first := by omega
        have hroom := Nat.mul_le_mul_right s.copies hentry
        rw [Nat.succ_mul] at hroom
        rw [Array.getElem?_append_left (by omega),
          Segment.getElem?_entries (hrest.le.trans hb) hi hlt hr]
      · rw [if_neg (by omega)] at hr ⊢
        rw [Array.getElem?_append_right (by omega), hsize, Nat.add_assoc, Nat.add_sub_cancel_left,
          ih hrest hge hr]

end Cuts

/-! ### Runs of copies -/

/-- `copied` holds the entries of `table` in their order, entry `i` as often as `count i` says from
the place `start i` on, and nothing else. -/
structure LaidOut (start count : ℕ → ℕ) (table copied : Array Multiplier) : Prop where
  getElem?_eq : ∀ i < table.size, ∀ r < count i, copied[start i + r]? = table[i]?
  ordered : ∀ i j, i < j → j < table.size → start i + count i ≤ start j
  covered : ∀ k < copied.size, ∃! i, i < table.size ∧ start i ≤ k ∧ k < start i + count i

namespace Cuts

/-- The copies of an entry stand before those of all later ones. -/
theorem place_add_count_le {n i j : ℕ} (h : Cuts 0 segments n) (hij : i < j) (hj : j ≤ n) :
    place segments i + count segments i ≤ place segments j := by
  induction j, hij using Nat.le_induction with
  | base => exact (h.place_succ (Nat.zero_le i) hj).ge
  | succ j _ ih =>
      rw [h.place_succ (Nat.zero_le j) hj]
      exact (ih (Nat.le_of_succ_le hj)).trans (Nat.le_add_right _ _)

/-- A place before the copies of entry `m` is among those of an entry before it. -/
theorem exists_run {n m k : ℕ} (h : Cuts 0 segments n) (hm : m ≤ n) (hk : k < place segments m) :
    ∃ i < m, place segments i ≤ k ∧ k < place segments i + count segments i := by
  induction m with
  | zero =>
      rw [h.place_start] at hk
      exact absurd hk (Nat.not_lt_zero k)
  | succ m ih =>
      rcases Nat.lt_or_ge k (place segments m) with hlt | hge
      · obtain ⟨i, hi, hrun⟩ := ih (Nat.le_of_succ_le hm) hlt
        exact ⟨i, hi.trans m.lt_succ_self, hrun⟩
      · rw [h.place_succ (Nat.zero_le m) hm] at hk
        exact ⟨m, m.lt_succ_self, hge, hk⟩

/-- A table that is cut from end to end. -/
theorem laidOut (h : Cuts 0 segments table.size) :
    LaidOut (place segments) (count segments) table (expand table segments) where
  getElem?_eq i hi r hr := h.getElem?_expand le_rfl (Nat.zero_le i) hi hr
  ordered i j hij hj := h.place_add_count_le hij hj.le
  covered k hk := by
    rw [← h.place_stop le_rfl] at hk
    obtain ⟨i, hi, hrun⟩ := h.exists_run le_rfl hk
    refine ⟨i, ⟨hi, hrun⟩, ?_⟩
    rintro j ⟨hj, hrun'⟩
    rcases Nat.lt_trichotomy i j with hlt | heq | hlt
    · have := h.place_add_count_le hlt hj.le
      omega
    · exact heq.symm
    · have := h.place_add_count_le hlt hi.le
      omega

end Cuts

/-- A table with copies is read as the entry at the place of one of its copies. -/
theorem LaidOut.getD {start count : ℕ → ℕ} {copied : Array Multiplier}
    (h : LaidOut start count table copied) {i r : ℕ} (hi : i < table.size) (hr : r < count i) :
    copied.getD (start i + r) default = table.getD i default := by
  rw [Array.getD_eq_getD_getElem?, h.getElem?_eq i hi r hr, ← Array.getD_eq_getD_getElem?]

/-- Only the entries of the table matter. -/
theorem LaidOut.congr {start start' count count' : ℕ → ℕ} {copied : Array Multiplier}
    (h : LaidOut start count table copied) (hstart : ∀ i < table.size, start' i = start i)
    (hcount : ∀ i < table.size, count' i = count i) : LaidOut start' count' table copied where
  getElem?_eq i hi r hr := by
    rw [hstart i hi]
    exact h.getElem?_eq i hi r (hcount i hi ▸ hr)
  ordered i j hij hj := by
    rw [hstart i (hij.trans hj), hcount i (hij.trans hj), hstart j hj]
    exact h.ordered i j hij hj
  covered k hk := by
    obtain ⟨i, ⟨hi, hrun⟩, honly⟩ := h.covered k hk
    refine ⟨i, ⟨hi, by rwa [hstart i hi, hcount i hi]⟩, ?_⟩
    rintro j ⟨hj, hrun'⟩
    rw [hstart j hj, hcount j hj] at hrun'
    exact honly j ⟨hj, hrun'⟩

/-! ### The two tables -/

/-- The number of copies of entry `i` of the forward table of a transform of size `n`. -/
def forwardCopies (n i : ℕ) : ℕ :=
  if n / 8 ≤ i ∧ i < n / 4 then 4 else if n / 4 ≤ i ∧ i < n / 2 then 2 else 1

/-- The number of copies of entry `i` of the inverse table of a transform of size `n`. -/
def inverseCopies (n i : ℕ) : ℕ :=
  if n / 2 < i ∧ i ≤ 3 * n / 4 then 2 else if 3 * n / 4 < i ∧ i ≤ 7 * n / 8 then 4 else 1

section

variable {h : ℕ}

/-- The segments of the forward table cut it without a gap. -/
theorem forward_cuts (h : ℕ) : Cuts 0 (forwardSegments (8 * h)) (8 * h) := by
  simp only [forwardSegments, Cuts, true_and, and_true]
  omega

/-- The segments of the inverse table cut it without a gap. -/
theorem inverse_cuts (hh : 0 < h) : Cuts 0 (inverseSegments (8 * h)) (8 * h) := by
  simp only [inverseSegments, Cuts, true_and, and_true]
  omega

/-- The forward table with copies has thirteen entries for each eight. -/
theorem size_forward (htable : table.size = 8 * h) :
    (expand table (forwardSegments (8 * h))).size = 13 * h := by
  rw [← (forward_cuts h).place_stop htable.ge]
  simp only [forwardSegments, place]
  split_ifs <;> omega

/-- The inverse table with copies has thirteen entries for each eight. -/
theorem size_inverse (hh : 0 < h) (htable : table.size = 8 * h) :
    (expand table (inverseSegments (8 * h))).size = 13 * h := by
  rw [← (inverse_cuts hh).place_stop htable.ge]
  simp only [inverseSegments, place]
  split_ifs <;> omega

/-- The copies of an entry of the forward table stand from `forwardIndex` on. -/
theorem forward_laidOut (htable : table.size = 8 * h) :
    LaidOut (forwardIndex (8 * h)) (forwardCopies (8 * h)) table
      (expand table (forwardSegments (8 * h))) := by
  have hcuts : Cuts 0 (forwardSegments (8 * h)) table.size := htable ▸ forward_cuts h
  apply hcuts.laidOut.congr
  · intro i hi
    simp only [forwardIndex, forwardSegments, place]
    split_ifs <;> omega
  · intro i hi
    simp only [forwardCopies, forwardSegments, count]
    split_ifs <;> omega

/-- The copies of an entry of the inverse table stand from `inverseIndex` on. -/
theorem inverse_laidOut (hh : 0 < h) (htable : table.size = 8 * h) :
    LaidOut (inverseIndex (8 * h)) (inverseCopies (8 * h)) table
      (expand table (inverseSegments (8 * h))) := by
  have hcuts : Cuts 0 (inverseSegments (8 * h)) table.size := htable ▸ inverse_cuts hh
  apply hcuts.laidOut.congr
  · intro i hi
    simp only [inverseIndex, inverseSegments, place]
    split_ifs <;> omega
  · intro i hi
    simp only [inverseCopies, inverseSegments, count]
    split_ifs <;> omega

end

/-! ### The entries of one layer

A layer of stride `t` reads the last half of the first `n / t` entries of the forward table. For
the strides 4, 2 and 1 each of these has `t` copies. -/

/-- The entries of a narrow layer have one copy for each butterfly of their group. -/
theorem forwardIndex_add {h t s i : ℕ} (ht : t = 4 ∨ t = 2 ∨ t = 1) (hs : 4 * h ≤ t * s)
    (hi : t * (s + i) < 8 * h) :
    forwardIndex (8 * h) (s + i) = forwardIndex (8 * h) s + t * i ∧
      forwardCopies (8 * h) (s + i) = t := by
  unfold forwardIndex forwardCopies
  rcases ht with rfl | rfl | rfl <;> constructor <;> split_ifs <;> omega

/-- The copies of the entries of a narrow layer are all there. -/
theorem forwardIndex_add_le {h t s m : ℕ} (ht : t = 4 ∨ t = 2 ∨ t = 1) (hs : 4 * h ≤ t * s)
    (hm : t * (s + m) ≤ 8 * h) (htable : table.size = 8 * h) :
    forwardIndex (8 * h) s + t * m ≤ (expand table (forwardSegments (8 * h))).size := by
  rw [size_forward htable]
  unfold forwardIndex
  rcases ht with rfl | rfl | rfl <;> split_ifs <;> omega

/-- In the inverse table a layer of stride `t` reads the entries behind `n - n / t`. -/
theorem inverseIndex_add {h t s i : ℕ} (ht : t = 4 ∨ t = 2 ∨ t = 1)
    (hs : t * (8 * h) < t * s + 8 * h) (hi : t * (s + i) + 4 * h ≤ t * (8 * h)) :
    inverseIndex (8 * h) (s + i) = inverseIndex (8 * h) s + t * i ∧
      inverseCopies (8 * h) (s + i) = t := by
  unfold inverseIndex inverseCopies
  rcases ht with rfl | rfl | rfl <;> constructor <;> split_ifs <;> omega

/-- The copies that a narrow inverse layer reads lie inside the table. -/
theorem inverseIndex_add_le {h t s m : ℕ} (ht : t = 4 ∨ t = 2 ∨ t = 1) (hh : 0 < h)
    (hs : t * (8 * h) < t * s + 8 * h) (hm : t * (s + m) + 4 * h ≤ t * (8 * h) + t)
    (htable : table.size = 8 * h) :
    inverseIndex (8 * h) s + t * m ≤ (expand table (inverseSegments (8 * h))).size := by
  rw [size_inverse hh htable]
  unfold inverseIndex
  rcases ht with rfl | rfl | rfl <;> split_ifs <;> omega

/-! ### The tables of a transform -/

/-- A power of two from the least degree on is a multiple of eight. -/
theorem exists_eq_eight_mul {n : ℕ} (hn : isPowerOfTwo n = true) (hmin : minDegree ≤ n) :
    ∃ h, 0 < h ∧ n = 8 * h := by
  obtain ⟨k, rfl⟩ := isPowerOfTwo_iff.1 hn
  have hk : 4 ≤ k := (Nat.pow_le_pow_iff_right Nat.one_lt_two).1 hmin
  refine ⟨2 ^ (k - 3), Nat.two_pow_pos _, ?_⟩
  rw [show 8 = 2 ^ 3 from rfl, ← Nat.pow_add, Nat.add_sub_cancel' (by omega)]

/-- The tables with copies of a transform of size `n`, a power of two of at least 16. Each has five
eighths more entries than the table it is made of. It is made of segments that lie inside that
table, and it consists of runs of copies, one for each entry: disjoint, in the order of the entries,
with no place left over, and starting where `forwardIndex` and `inverseIndex` say. -/
theorem layout_exact {n : ℕ} (hn : isPowerOfTwo n = true) (hmin : 16 ≤ n)
    {roots inverseRoots : Array Multiplier} (hroots : roots.size = n)
    (hinverse : inverseRoots.size = n) :
    (∀ s ∈ forwardSegments n ++ inverseSegments n, s.first ≤ s.stop ∧ s.stop ≤ n) ∧
      (ofTables n roots inverseRoots).roots.size = 13 * n / 8 ∧
      (ofTables n roots inverseRoots).inverseRoots.size = 13 * n / 8 ∧
      LaidOut (forwardIndex n) (forwardCopies n) roots (ofTables n roots inverseRoots).roots ∧
      LaidOut (inverseIndex n) (inverseCopies n) inverseRoots
        (ofTables n roots inverseRoots).inverseRoots := by
  obtain ⟨h, hh, rfl⟩ := exists_eq_eight_mul hn hmin
  have htables : ofTables (8 * h) roots inverseRoots =
      ⟨expand roots (forwardSegments (8 * h)), expand inverseRoots (inverseSegments (8 * h))⟩ :=
    if_pos hmin
  have hwords : 13 * (8 * h) / 8 = 13 * h := by omega
  rw [htables, hwords]
  refine ⟨fun s hs => ?_, size_forward hroots, size_inverse hh hinverse, forward_laidOut hroots,
    inverse_laidOut hh hinverse⟩
  rcases List.mem_append.1 hs with hs | hs
  · exact (forward_cuts h).inside hs
  · exact (inverse_cuts hh).inside hs

/-- Sixteen entries, no two of them the same. -/
def distinct : Array Multiplier :=
  Array.ofFn fun i : Fin 16 => ⟨.ofNat i.val, .ofNat (16 * i.val)⟩

/-- At the least size, the last copy of an entry of either table that is copied four times. -/
theorem layout_exact_least :
    isPowerOfTwo 16 = true ∧ distinct.size = 16 ∧
      (ofTables 16 distinct distinct).roots[9]? = distinct[3]? ∧
      (ofTables 16 distinct distinct).inverseRoots[24]? = distinct[14]? := by
  have hpower : isPowerOfTwo 16 = true := by decide
  have hsize : distinct.size = 16 := Array.size_ofFn
  obtain ⟨-, -, -, hforward, hinverse⟩ := layout_exact hpower le_rfl hsize hsize
  exact ⟨hpower, hsize, hforward.getElem?_eq 3 (by decide) 3 (by decide),
    hinverse.getElem?_eq 14 (by decide) 3 (by decide)⟩

end Replicated

end Negacyclic
