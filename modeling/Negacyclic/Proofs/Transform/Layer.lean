import Negacyclic.Proofs.Lanes.Pointwise
import Negacyclic.Proofs.Transform.Butterfly
import Negacyclic.Proofs.Word.Table
import Negacyclic.Transform.Layer

/-!
# The word at a position of a layer

Whichever way a layer is run, position `i` receives one word of the butterfly that it takes part
in: `wordAt` says which butterfly, on which two words and with which root. The three forms agree
with it (`onWords_eq_ofFn`, `onRegisters_eq_ofFn`, `onChunks_eq_ofFn`), so they agree with each
other wherever they run on the same words and roots.

* A layer over a concatenation is the concatenation of two layers, each with its part of the
  roots (`onWords_append`). That is what the recursion on blocks rests on.
* A chunk of sixteen words is shuffled so that lane `l` computes butterfly `l` of the chunk. For
  each of the strides 4, 2 and 1 this is a finite check (`Shuffle.Fits`).
-/

namespace Negacyclic.Layer

variable {f : Multiplier → Word → Word → Word × Word} {t : ℕ} {roots : Array Multiplier}
  {a : Array Word}

/-! ### Positions -/

/-- The group of the butterfly at a position is the group of the position. -/
theorem butterflyAt_div (ht : 0 < t) (i : ℕ) : butterflyAt t i / t = i / (2 * t) := by
  unfold butterflyAt
  rw [Nat.mul_comm, Nat.mul_add_div ht, Nat.div_eq_of_lt (Nat.mod_lt i ht),
    Nat.add_zero]

/-- The place of the butterfly in its group is that of the position in its half. -/
theorem butterflyAt_mod (t i : ℕ) : butterflyAt t i % t = i % t := by
  unfold butterflyAt
  rw [Nat.mul_comm, Nat.mul_add_mod, Nat.mod_mod]

/-- The lower word of the butterfly at a position stands in the lower half of its group. -/
theorem lowerOf_butterflyAt (ht : 0 < t) (i : ℕ) :
    lowerOf t (butterflyAt t i) = i / (2 * t) * (2 * t) + i % t := by
  unfold lowerOf
  rw [butterflyAt_div ht, butterflyAt_mod]

/-- The butterflies of an array that falls into complete groups. -/
theorem butterflyAt_lt (ht : 0 < t) {n i : ℕ} (hn : 2 * t ∣ n) (hi : i < n) :
    butterflyAt t i < n / 2 := by
  obtain ⟨g, rfl⟩ := hn
  have hg : i / (2 * t) < g := Nat.div_lt_of_lt_mul hi
  have hmod := Nat.mod_lt i ht
  have hle : (i / (2 * t) + 1) * t ≤ g * t := Nat.mul_le_mul_right t hg
  rw [Nat.mul_assoc, Nat.mul_div_cancel_left _ (by omega), Nat.mul_comm t g, butterflyAt]
  rw [Nat.add_mul] at hle
  omega

/-! ### The word at a position -/

/-- The two words of the butterfly that position `i` takes part in. -/
def pairAt (f : Multiplier → Word → Word → Word × Word) (t : ℕ) (roots : Array Multiplier)
    (a : Array Word) (i : ℕ) : Word × Word :=
  let low := i / (2 * t) * (2 * t) + i % t
  f (roots.getD (i / (2 * t)) default) (a.getD low 0) (a.getD (low + t) 0)

/-- The word that position `i` receives. -/
def wordAt (f : Multiplier → Word → Word → Word × Word) (t : ℕ) (roots : Array Multiplier)
    (a : Array Word) (i : ℕ) : Word :=
  if isLower t i then (pairAt f t roots a i).1 else (pairAt f t roots a i).2

/-- A position in the lower half of group `g`. -/
theorem wordAt_lower {g r : ℕ} (hr : r < t) :
    wordAt f t roots a (g * (2 * t) + r) =
      (f (roots.getD g default) (a.getD (g * (2 * t) + r) 0)
        (a.getD (g * (2 * t) + r + t) 0)).1 := by
  have hdiv : (g * (2 * t) + r) / (2 * t) = g := by
    rw [Nat.mul_comm, Nat.mul_add_div (by omega), Nat.div_eq_of_lt (by omega), Nat.add_zero]
  have hmod : (g * (2 * t) + r) % (2 * t) = r := by
    rw [Nat.mul_comm, Nat.mul_add_mod, Nat.mod_eq_of_lt (by omega)]
  have hmod' : (g * (2 * t) + r) % t = r := by
    rw [← Nat.mul_assoc, Nat.mul_comm, Nat.mul_add_mod, Nat.mod_eq_of_lt hr]
  unfold wordAt
  rw [if_pos (by simpa [isLower, hmod] using hr)]
  simp only [pairAt, hdiv, hmod']

/-- A position in the upper half of group `g`. -/
theorem wordAt_upper {g r : ℕ} (hr : r < t) :
    wordAt f t roots a (g * (2 * t) + r + t) =
      (f (roots.getD g default) (a.getD (g * (2 * t) + r) 0)
        (a.getD (g * (2 * t) + r + t) 0)).2 := by
  have hdiv : (g * (2 * t) + r + t) / (2 * t) = g := by
    rw [Nat.add_assoc, Nat.mul_comm, Nat.mul_add_div (by omega), Nat.div_eq_of_lt (by omega),
      Nat.add_zero]
  have hmod : (g * (2 * t) + r + t) % (2 * t) = r + t := by
    rw [Nat.add_assoc, Nat.mul_comm, Nat.mul_add_mod, Nat.mod_eq_of_lt (by omega)]
  have hmod' : (g * (2 * t) + r + t) % t = r := by
    rw [Nat.add_mod_right, ← Nat.mul_assoc, Nat.mul_comm, Nat.mul_add_mod, Nat.mod_eq_of_lt hr]
  unfold wordAt
  rw [if_neg (by simp [isLower, hmod])]
  simp only [pairAt, hdiv, hmod']

/-! ### Layers on words -/

/-- A layer on words, position by position. -/
theorem onWords_eq_ofFn (ht : 0 < t) (ha : 2 * t ∣ a.size) :
    onWords f t roots a = Array.ofFn fun i : Fin a.size => wordAt f t roots a i := by
  simp only [onWords]
  congr 1
  funext i
  rw [getD_ofFn _ _ (butterflyAt_lt ht ha i.isLt)]
  simp only [wordAt, pairAt, butterflyAt_div ht, lowerOf_butterflyAt ht]

/-- A layer on words keeps the size. -/
@[simp] theorem size_onWords : (onWords f t roots a).size = a.size := by
  simp [onWords]

/-- The word that a layer leaves at a position. -/
theorem getD_onWords (ht : 0 < t) (ha : 2 * t ∣ a.size) {i : ℕ} (hi : i < a.size) :
    (onWords f t roots a).getD i 0 = wordAt f t roots a i := by
  rw [onWords_eq_ofFn ht ha, getD_ofFn _ _ hi]

/-! ### Concatenations -/

/-- The butterflies of the first part of a concatenation. -/
theorem wordAt_append_left (ht : 0 < t) (ha : a.size = 2 * t * roots.size)
    (roots' : Array Multiplier) (b : Array Word) {i : ℕ} (hi : i < a.size) :
    wordAt f t (roots ++ roots') (a ++ b) i = wordAt f t roots a i := by
  have hg : i / (2 * t) < roots.size := Nat.div_lt_of_lt_mul (ha ▸ hi)
  have hle : (i / (2 * t) + 1) * (2 * t) ≤ roots.size * (2 * t) := Nat.mul_le_mul_right _ hg
  have hmod := Nat.mod_lt i ht
  rw [Nat.add_mul, Nat.mul_comm roots.size, ← ha] at hle
  simp only [wordAt, pairAt]
  rw [getD_append_left _ _ _ hg, getD_append_left _ _ _ (by omega),
    getD_append_left _ _ _ (by omega)]

/-- The butterflies of the second part of a concatenation. -/
theorem wordAt_append_right (ht : 0 < t) (ha : a.size = 2 * t * roots.size)
    (roots' : Array Multiplier) (b : Array Word) (i : ℕ) :
    wordAt f t (roots ++ roots') (a ++ b) (a.size + i) = wordAt f t roots' b i := by
  have hdiv : (a.size + i) / (2 * t) = roots.size + i / (2 * t) := by
    rw [ha, Nat.mul_add_div (by omega)]
  have hmod : (a.size + i) % t = i % t := by
    rw [ha, Nat.mul_comm 2 t, Nat.mul_assoc, Nat.mul_add_mod]
  have hlower : isLower t (a.size + i) = isLower t i := by
    unfold isLower
    rw [ha, Nat.mul_add_mod]
  have hlow : (a.size + i) / (2 * t) * (2 * t) + (a.size + i) % t =
      a.size + (i / (2 * t) * (2 * t) + i % t) := by
    rw [hdiv, hmod, ha]
    ring
  simp only [wordAt, pairAt, hlower, hlow]
  rw [hdiv, Nat.add_assoc a.size, getD_append_right, getD_append_right, getD_append_right]

/-- A layer over a concatenation of complete groups. -/
theorem onWords_append (ht : 0 < t) {roots' : Array Multiplier} {b : Array Word}
    (ha : a.size = 2 * t * roots.size) (hb : b.size = 2 * t * roots'.size) :
    onWords f t (roots ++ roots') (a ++ b) = onWords f t roots a ++ onWords f t roots' b := by
  have hda : 2 * t ∣ a.size := ha ▸ Nat.dvd_mul_right _ _
  have hdb : 2 * t ∣ b.size := hb ▸ Nat.dvd_mul_right _ _
  apply ext_getD 0 (by simp)
  intro i hi
  rw [size_onWords, Array.size_append] at hi
  rw [getD_onWords ht (by rw [Array.size_append]; exact Nat.dvd_add hda hdb) (by simpa using hi)]
  by_cases hia : i < a.size
  · rw [wordAt_append_left ht ha _ _ hia, getD_append_left _ _ _ (by simpa using hia),
      getD_onWords ht hda hia]
  · obtain ⟨j, rfl⟩ := Nat.exists_eq_add_of_le (Nat.le_of_not_lt hia)
    have hj : (onWords f t roots a ++ onWords f t roots' b).getD (a.size + j) 0 =
        (onWords f t roots' b).getD j 0 := by
      have hsize : (onWords f t roots a).size = a.size := size_onWords
      rw [← hsize, getD_append_right]
    rw [wordAt_append_right ht ha, hj, getD_onWords ht hdb (by omega)]

/-! ### Layers on registers -/

section registers

variable {L : ℕ} {R : Lanes L}
  {F : Butterfly.Multipliers L → Register L → Register L → Register L × Register L}

/-- The butterflies `c * L` to `c * L + L` lie in one group, next to each other. -/
theorem lowerOf_add (hL : L ∣ t) (c : ℕ) {j : ℕ} (hj : j < L) :
    lowerOf t (c * L) + j = lowerOf t (c * L + j) ∧ c * L / t = (c * L + j) / t := by
  obtain ⟨s, rfl⟩ := hL
  have hpos : 0 < L := by omega
  have hmod : (c * L + j) % (L * s) = c * L % (L * s) + j := by
    rw [Nat.mod_mul, Nat.mod_mul, Nat.mul_mod_left, Nat.mul_comm c, Nat.mul_add_mod,
      Nat.mod_eq_of_lt hj, Nat.mul_add_div hpos, Nat.mul_div_cancel_left _ hpos,
      Nat.div_eq_of_lt hj, Nat.add_zero, Nat.zero_add, Nat.add_comm]
  have hdiv : (c * L + j) / (L * s) = c * L / (L * s) := by
    rw [← Nat.div_div_eq_div_mul, ← Nat.div_div_eq_div_mul, Nat.mul_comm c,
      Nat.mul_add_div hpos, Nat.mul_div_cancel_left _ hpos, Nat.div_eq_of_lt hj, Nat.add_zero]
  unfold lowerOf
  rw [hmod, hdiv]
  exact ⟨by omega, rfl⟩

/-- On a lawful machine a layer on registers does what the layer on words does. -/
theorem onRegisters_eq_ofFn (law : R.Lawful) (hF : Butterfly.Lanewise F f) (hpos : 0 < L)
    (ht : 0 < t) (hL : L ∣ t) (ha : 2 * t ∣ a.size) :
    onRegisters R F t roots a = Array.ofFn fun i : Fin a.size => wordAt f t roots a i := by
  simp only [onRegisters]
  congr 1
  funext i
  have hk := butterflyAt_lt ht ha i.isLt
  have hc : butterflyAt t i / L < a.size / 2 / L := by
    have hdvd : L ∣ a.size / 2 := by
      obtain ⟨g, hg⟩ := ha
      rw [hg, Nat.mul_assoc, Nat.mul_div_cancel_left _ (by omega)]
      exact hL.mul_right g
    exact Nat.div_lt_div_of_lt_of_dvd hdvd hk
  have hj := Nat.mod_lt (butterflyAt t i) hpos
  have hsplit := Nat.div_add_mod' (butterflyAt t i) L
  obtain ⟨hlow, hgroup⟩ := lowerOf_add hL (butterflyAt t i / L) hj
  rw [hsplit, lowerOf_butterflyAt ht] at hlow
  rw [hsplit, butterflyAt_div ht] at hgroup
  rw [getD_ofFn _ _ hc]
  have hpair := hF (Butterfly.splat R (roots.getD (i / (2 * t)) default))
    (Lanes.load L a (lowerOf t (butterflyAt t i / L * L)))
    (Lanes.load L a (lowerOf t (butterflyAt t i / L * L) + t)) _ hj
  rw [Butterfly.lane_splat law, Lanes.getElem_load, Lanes.getElem_load, hlow,
    Nat.add_right_comm, hlow] at hpair
  simp only [hgroup, wordAt, pairAt, ← hpair]
  split_ifs <;> simp [hj]

/-- A function on registers over full registers is the function on words over the words. -/
theorem mapRegisters_eq_map {G : Register L → Register L} {g : Word → Word}
    (hG : ∀ (x : Register L) (i : ℕ) (h : i < L), (G x)[i] = g x[i]) (hpos : 0 < L)
    (ha : L ∣ a.size) : mapRegisters R G a = a.map g := by
  apply Array.ext (by simp [mapRegisters])
  intro i h₁ h₂
  rw [Array.size_map] at h₂
  have hj := Nat.mod_lt i hpos
  simp only [mapRegisters, Array.getElem_ofFn, Array.getElem_map]
  rw [getD_ofFn _ _ (Nat.div_lt_div_of_lt_of_dvd ha h₂)]
  have hword := hG (Lanes.load L a (i / L * L)) _ hj
  rw [Lanes.getElem_load, Nat.div_add_mod'] at hword
  simpa [hj, h₂] using hword

end registers

/-! ### Layers on chunks -/

/-- Lane `l` of a chunk gets the operands of butterfly `l`, and each of the sixteen positions the
word of the butterfly that it takes part in: the lower words are the first eight outputs. -/
structure Shuffle.Fits (s : Shuffle) (t : ℕ) : Prop where
  lower (l : ℕ) (h : l < 8) : (s.lower[l] : ℕ) = lowerOf t l
  upper (l : ℕ) (h : l < 8) : (s.upper[l] : ℕ) = lowerOf t l + t
  place (r : ℕ) (h : r < 8 + 8) : ((s.first ++ s.second)[r] : ℕ) =
    butterflyAt t r + if isLower t r then 0 else 8

/-- The shuffle of stride 4 brings the words of each butterfly into one lane. -/
theorem stride4_fits : stride4.Fits 4 := by
  constructor <;> decide

/-- The shuffle of stride 2 brings the words of each butterfly into one lane. -/
theorem stride2_fits : stride2.Fits 2 := by
  constructor <;> decide

/-- The shuffle of stride 1 brings the words of each butterfly into one lane. -/
theorem stride1_fits : stride1.Fits 1 := by
  constructor <;> decide

section chunks

variable {F : Butterfly.Multipliers 8 → Register 8 → Register 8 → Register 8 × Register 8}
  {s : Shuffle} {copies : Array Multiplier}

/-- Two consecutive registers hold sixteen consecutive words. -/
theorem getElem_load_append (a : Array Word) (pos : ℕ) {m : ℕ} (h : m < 8 + 8) :
    (Lanes.load 8 a pos ++ Lanes.load 8 a (pos + 8))[m] = a.getD (pos + m) 0 := by
  rw [Vector.getElem_append]
  split_ifs with hm
  · rw [Lanes.getElem_load]
  · rw [Lanes.getElem_load]
    congr 1
    omega

/-- The lower and upper operand of lane `l`. -/
theorem getElem_pick_load (hs : s.Fits t) (a : Array Word) (pos : ℕ) {l : ℕ} (h : l < 8) :
    (Lanes.pick s.lower (Lanes.load 8 a pos) (Lanes.load 8 a (pos + 8)))[l] =
        a.getD (pos + lowerOf t l) 0 ∧
      (Lanes.pick s.upper (Lanes.load 8 a pos) (Lanes.load 8 a (pos + 8)))[l] =
        a.getD (pos + lowerOf t l + t) 0 := by
  simp only [Lanes.pick, Vector.getElem_ofFn, Fin.getElem_fin]
  rw [getElem_load_append _ _ (Fin.isLt _), getElem_load_append _ _ (Fin.isLt _),
    hs.lower l h, hs.upper l h, Nat.add_assoc]
  exact ⟨rfl, rfl⟩

/-- The output that place `r` of a chunk receives. -/
theorem getD_pick_append (hs : s.Fits t) (x y : Register 8) {r : ℕ} (hr : r < 8 + 8)
    (hl : butterflyAt t r < 8) :
    (Lanes.pick s.first x y ++ Lanes.pick s.second x y).toArray.getD r 0 =
      if isLower t r then x[butterflyAt t r] else y[butterflyAt t r] := by
  have hpick : (Lanes.pick s.first x y ++ Lanes.pick s.second x y)[r] =
      (x ++ y)[((s.first ++ s.second)[r] : ℕ)] := by
    rcases Nat.lt_or_ge r 8 with h | h
    · simp only [Lanes.pick, Vector.getElem_append_left h, Vector.getElem_ofFn, Fin.getElem_fin]
    · simp only [Lanes.pick, Vector.getElem_append_right hr h, Vector.getElem_ofFn,
        Fin.getElem_fin]
  have hget : (Lanes.pick s.first x y ++ Lanes.pick s.second x y).toArray.getD r 0 =
      (Lanes.pick s.first x y ++ Lanes.pick s.second x y)[r] := by
    simp [hr]
  rw [hget, hpick]
  simp only [hs.place r hr]
  split_ifs with h
  · rw [Vector.getElem_append, dif_pos (by omega)]
    rfl
  · rw [Vector.getElem_append, dif_neg (by omega)]
    congr 1

/-- Position `r` of chunk `c`, for a stride that divides a chunk into complete groups. -/
theorem chunk_position (ht : 2 * t ∣ 16) (c r : ℕ) :
    butterflyAt t (16 * c + r) = 8 * c + butterflyAt t r ∧
      isLower t (16 * c + r) = isLower t r ∧
      (16 * c + r) / (2 * t) * (2 * t) + (16 * c + r) % t =
        16 * c + (r / (2 * t) * (2 * t) + r % t) := by
  obtain ⟨g, hg⟩ := ht
  have ht : 0 < t := Nat.pos_of_ne_zero fun h => by simp [h] at hg
  have hgt : t * g = 8 := by
    rw [Nat.mul_assoc] at hg
    omega
  have hdiv : (16 * c + r) / (2 * t) = g * c + r / (2 * t) := by
    rw [hg, Nat.mul_assoc, Nat.mul_add_div (by omega)]
  have hmod : (16 * c + r) % t = r % t := by
    rw [hg, Nat.mul_comm 2 t, Nat.mul_assoc, Nat.mul_assoc, Nat.mul_add_mod]
  have hmod' : (16 * c + r) % (2 * t) = r % (2 * t) := by
    rw [hg, Nat.mul_assoc, Nat.mul_add_mod]
  refine ⟨?_, by rw [isLower, isLower, hmod'], ?_⟩
  · unfold butterflyAt
    rw [hdiv, hmod, ← hgt]
    ring
  · rw [hdiv, hmod, hg]
    ring

/-- Layers of small stride: the words of a chunk are shuffled into place, and the table with
copies holds one entry for each butterfly. -/
theorem onChunks_eq_ofFn (hs : s.Fits t) (ht : 2 * t ∣ 16) (hF : Butterfly.Lanewise F f)
    (ha : 16 ∣ a.size)
    (hcopies : ∀ k < a.size / 2, copies.getD k default = roots.getD (k / t) default) :
    onChunks s F copies a = Array.ofFn fun i : Fin a.size => wordAt f t roots a i := by
  have htpos : 0 < t := Nat.pos_of_ne_zero fun h => by simp [h] at ht
  simp only [onChunks]
  congr 1
  funext i
  have hi := i.isLt
  rw [getD_ofFn _ _ (Nat.div_lt_div_of_lt_of_dvd ha hi)]
  obtain ⟨c, r, hr, hcr⟩ : ∃ c r, r < 16 ∧ (i : ℕ) = 16 * c + r :=
    ⟨i / 16, i % 16, Nat.mod_lt _ (by omega), by omega⟩
  obtain ⟨hat, hlower, hlow⟩ := chunk_position ht c r
  have hl : butterflyAt t r < 8 := butterflyAt_lt htpos ht hr
  have hk : 8 * c + butterflyAt t r < a.size / 2 := by
    rw [← hat, ← hcr]
    exact butterflyAt_lt htpos (ht.trans ha) hi
  have hdiv16 : (i : ℕ) / 16 = c := by omega
  have hmod16 : (i : ℕ) % 16 = r := by omega
  have hgroup : (8 * c + butterflyAt t r) / t = i / (2 * t) := by
    rw [← hat, ← hcr, butterflyAt_div htpos]
  have hpair := hF (Butterfly.loadMultipliers 8 copies (8 * c))
    (Lanes.pick s.lower (Lanes.load 8 a (16 * c)) (Lanes.load 8 a (16 * c + 8)))
    (Lanes.pick s.upper (Lanes.load 8 a (16 * c)) (Lanes.load 8 a (16 * c + 8))) _ hl
  rw [Butterfly.lane_loadMultipliers, hcopies _ hk, hgroup, (getElem_pick_load hs a _ hl).1,
    (getElem_pick_load hs a _ hl).2, lowerOf_butterflyAt htpos, ← hlow, ← hcr] at hpair
  simp only [hdiv16, hmod16]
  rw [getD_pick_append hs _ _ hr hl]
  rw [← hcr] at hlower
  simp only [wordAt, pairAt, ← hpair, hlower]

end chunks

end Negacyclic.Layer
