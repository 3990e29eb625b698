import Mathlib.Tactic.Ring
import Mathlib.Tactic.SplitIfs
import Negacyclic.Proofs.Transform.Block
import Negacyclic.Proofs.Transform.Layer
import Negacyclic.Proofs.Word.Bits
import Negacyclic.Transform.Network

/-!
# Depth first and layer by layer

A block may run all its layers in a row, or its first layer and then each of its halves. For the
portable engine both orders leave the same words, so the greatest block that runs layer by layer
does not show in the result (`forwardBlock_portable`, `inverseBlock_portable`).

The step is one layer: layer `j + 1` of a block is layer `j` of each of its halves
(`forwardLayer_append`, `inverseLayer_append`), with the roots that the halves read from their
own place in the table. All statements are about runs that may fail, on words of any size of
class: nothing is taken modulo `q`.
-/

namespace Negacyclic

/-! ### Slices -/

/-- A slice that lies inside the table is there. -/
theorem slice?_of_le {table : Array Multiplier} {start count : ℕ} (h : start + count ≤ table.size) :
    slice? table start count = some (table.extract start (start + count)) :=
  if_pos h

/-- The two halves of an array and what they make together. -/
theorem size_halves {α : Type} {a : Array α} {k : ℕ} (ha : a.size = 2 ^ (k + 1)) :
    (a.extract 0 (2 ^ k)).size = 2 ^ k ∧ (a.extract (2 ^ k) a.size).size = 2 ^ k ∧
      a.extract 0 (2 ^ k) ++ a.extract (2 ^ k) a.size = a := by
  rw [Nat.two_pow_succ] at ha
  refine ⟨?_, ?_, ?_⟩
  · rw [Array.size_extract]
    omega
  · rw [Array.size_extract]
    omega
  · rw [Array.extract_append_extract, Nat.zero_min, Nat.max_eq_right (by omega),
      Array.extract_size]

namespace Transform

variable {T : Transform} {B : Block} {k : ℕ} {a : Array Word}

/-! ### Layers of the portable engine -/

/-- A layer on words whose `m` roots stand in a table from `start` on. -/
def onGroups (f : Multiplier → Word → Word → Word × Word) (table : Array Multiplier)
    (start m : ℕ) (a : Array Word) : Option (Array Word) := do
  let roots ← slice? table start m
  if Engine.fits 1 (a.size / (2 * m)) roots a then
    some (Layer.onWords f (a.size / (2 * m)) roots a)
  else
    none

section onGroups

variable {f : Multiplier → Word → Word → Word × Word} {table : Array Multiplier} {start m : ℕ}

/-- A layer that runs keeps the number of words. -/
theorem size_of_onGroups {b : Array Word} (h : onGroups f table start m a = some b) :
    b.size = a.size := by
  obtain ⟨roots, -, hrun⟩ := Option.bind_eq_some_iff.1 h
  split_ifs at hrun
  · cases hrun
    exact Layer.size_onWords

/-- The stride of a layer of `m` groups. -/
theorem size_div_groups {t : ℕ} (hm : 0 < m) (ha : a.size = 2 * t * m) :
    a.size / (2 * m) = t := by
  rw [ha, Nat.mul_right_comm, Nat.mul_div_cancel_left _ (by omega)]

/-- A layer runs if its table is long enough and the words fall into `m` groups. -/
theorem onGroups_of_le {t : ℕ} (ht : 0 < t) (hm : 0 < m) (ha : a.size = 2 * t * m)
    (htable : start + m ≤ table.size) :
    onGroups f table start m a =
      some (Layer.onWords f t (table.extract start (start + m)) a) := by
  have hsize : (table.extract start (start + m)).size = m := by
    rw [Array.size_extract]
    omega
  have hfits : Engine.fits 1 t (table.extract start (start + m)) a = true := by
    simp only [Engine.fits, hsize, ha, Bool.and_eq_true, decide_eq_true_eq, beq_iff_eq, and_true]
    omega
  unfold onGroups
  rw [slice?_of_le htable, Option.bind_eq_bind, Option.bind_some,
    size_div_groups hm ha, if_pos hfits]

/-- A layer on two arrays one after the other is a layer on each, and the second reads its roots
behind those of the first. -/
theorem onGroups_append {t : ℕ} (ht : 0 < t) (hm : 0 < m) {x y : Array Word}
    (hx : x.size = 2 * t * m) (hy : y.size = 2 * t * m) :
    onGroups f table start (2 * m) (x ++ y) = do
      let low ← onGroups f table start m x
      let high ← onGroups f table (start + m) m y
      return low ++ high := by
  have hxy : (x ++ y).size = 2 * t * (2 * m) := by
    rw [Array.size_append, hx, hy]
    ring
  by_cases hlow : start + m ≤ table.size
  · by_cases hhigh : start + m + m ≤ table.size
    · have hsplit : table.extract start (start + 2 * m) =
          table.extract start (start + m) ++ table.extract (start + m) (start + m + m) := by
        rw [Array.extract_append_extract]
        congr 1 <;> omega
      have hsize (s : ℕ) (h : s + m ≤ table.size) : (table.extract s (s + m)).size = m := by
        rw [Array.size_extract]
        omega
      rw [onGroups_of_le ht (by omega) hxy (by omega), onGroups_of_le ht hm hx hlow,
        onGroups_of_le ht hm hy hhigh, hsplit,
        Layer.onWords_append ht (by rw [hx, hsize _ hlow]) (by rw [hy, hsize _ hhigh])]
      rfl
    · have hnone : slice? table start (2 * m) = none := if_neg (by omega)
      have hnone' : slice? table (start + m) m = none := if_neg hhigh
      simp only [onGroups, hnone, hnone', Option.bind_eq_bind, Option.bind_none,
        Option.bind_fun_none]
  · have hnone : slice? table start (2 * m) = none := if_neg (by omega)
    have hnone' : slice? table start m = none := if_neg hlow
    simp only [onGroups, hnone, hnone', Option.bind_eq_bind, Option.bind_none]

end onGroups

/-! ### Runs of layers -/

section runs

variable {step step' : Array Word → ℕ → Option (Array Word)} {n : ℕ} {js : List ℕ}

/-- A run of steps that keep the number of words. -/
theorem size_of_foldlM (hsize : ∀ a j b, step a j = some b → b.size = a.size) {b : Array Word}
    (h : js.foldlM step a = some b) : b.size = a.size := by
  induction js generalizing a with
  | nil =>
      cases h
      rfl
  | cons j js ih =>
      rw [List.foldlM_cons] at h
      obtain ⟨c, hc, hb⟩ := Option.bind_eq_some_iff.1 h
      exact (ih hb).trans (hsize a j c hc)

/-- A run of steps each of which takes `n` words to as many. -/
theorem exists_foldlM (hstep : ∀ j ∈ js, ∀ a : Array Word, a.size = n →
    ∃ b, step a j = some b ∧ b.size = n) (ha : a.size = n) :
    ∃ b, js.foldlM step a = some b ∧ b.size = n := by
  induction js generalizing a with
  | nil => exact ⟨a, rfl, ha⟩
  | cons j js ih =>
      obtain ⟨b, hb, hbsize⟩ := hstep j List.mem_cons_self a ha
      rw [List.foldlM_cons, hb]
      exact ih (fun i hi => hstep i (List.mem_cons_of_mem j hi)) hbsize

/-- Two runs of steps that agree on `n` words. -/
theorem foldlM_congr_of_size (hstep : ∀ j ∈ js, ∀ a : Array Word, a.size = n → step a j = step' a j)
    (hsize : ∀ a j b, step' a j = some b → b.size = a.size) (ha : a.size = n) :
    js.foldlM step a = js.foldlM step' a := by
  induction js generalizing a with
  | nil => rfl
  | cons j js ih =>
      rw [List.foldlM_cons, List.foldlM_cons, hstep j List.mem_cons_self a ha]
      rcases hb : step' a j with _ | b
      · rfl
      · exact ih (fun i hi => hstep i (List.mem_cons_of_mem j hi)) ((hsize a j b hb).trans ha)

/-- A run of steps on two arrays one after the other, each step of which falls into one on the
first and one on the second. -/
theorem foldlM_append_arrays {low high : Array Word → ℕ → Option (Array Word)}
    (hsplit : ∀ j ∈ js, ∀ x y : Array Word, x.size = n → y.size = n →
      step (x ++ y) j = do return (← low x j) ++ (← high y j))
    (hlow : ∀ x j x', low x j = some x' → x'.size = x.size)
    (hhigh : ∀ y j y', high y j = some y' → y'.size = y.size) {x y : Array Word}
    (hx : x.size = n) (hy : y.size = n) :
    js.foldlM step (x ++ y) = do return (← js.foldlM low x) ++ (← js.foldlM high y) := by
  induction js generalizing x y with
  | nil => rfl
  | cons j js ih =>
      rw [List.foldlM_cons, List.foldlM_cons, List.foldlM_cons,
        hsplit j List.mem_cons_self x y hx hy]
      rcases hlx : low x j with _ | x'
      · rfl
      rcases hhy : high y j with _ | y'
      · simp
      · exact ih (fun i hi => hsplit i (List.mem_cons_of_mem j hi)) ((hlow x j x' hlx).trans hx)
          ((hhigh y j y' hhy).trans hy)

end runs

/-! ### Forward -/

/-- A forward layer of the portable engine works on the groups of the block with the roots from its
place on. -/
theorem forwardLayer_portable (m : ℕ) :
    forwardLayer .portable T B m a =
      onGroups (Butterfly.forward T.precision T.modulus) T.roots (B.forwardStart m) m a :=
  rfl

/-- The portable engine has no narrow layers: it runs all layers of a block in one loop and settles
the words if asked to. -/
theorem forwardLayers_portable (full : Bool) :
    forwardLayers .portable T full B k a = do
      let a ← (List.range k).foldlM (fun a j => forwardLayer .portable T B (2 ^ j) a) a
      return if full then a.map (Butterfly.settle T.modulus) else a := by
  rfl

/-- Layer `j + 1` of a block is layer `j` of its halves. -/
theorem forwardLayer_append {j : ℕ} (hj : j < k) {x y : Array Word} (hx : x.size = 2 ^ k)
    (hy : y.size = 2 ^ k) :
    forwardLayer .portable T B (2 ^ (j + 1)) (x ++ y) = do
      return (← forwardLayer .portable T B.lower (2 ^ j) x) ++
        (← forwardLayer .portable T B.upper (2 ^ j) y) := by
  obtain ⟨t, ht, hsize⟩ := exists_even_parts hj
  rw [forwardLayer_portable, forwardLayer_portable, forwardLayer_portable, pow_succ',
    Block.forwardStart_lower, Block.forwardStart_upper]
  exact onGroups_append ht (Nat.two_pow_pos j) (hx.trans hsize) (hy.trans hsize)

/-- All layers but the first are all layers of the halves. -/
theorem forwardLoop_append {x y : Array Word} (hx : x.size = 2 ^ k) (hy : y.size = 2 ^ k) :
    (List.range k).foldlM (fun a j => forwardLayer .portable T B (2 ^ (j + 1)) a) (x ++ y) = do
      return (← (List.range k).foldlM (fun a j => forwardLayer .portable T B.lower (2 ^ j) a) x) ++
        (← (List.range k).foldlM (fun a j => forwardLayer .portable T B.upper (2 ^ j) a) y) := by
  refine foldlM_append_arrays ?_ ?_ ?_ hx hy
  · intro j hj x y hx hy
    exact forwardLayer_append (List.mem_range.1 hj) hx hy
  · intro x j x' h
    exact size_of_onGroups h
  · intro y j y' h
    exact size_of_onGroups h

/-- All layers of a block: its first layer, then all layers of its halves. -/
theorem forwardLayers_succ (full : Bool) (ha : a.size = 2 ^ (k + 1)) :
    forwardLayers .portable T full B (k + 1) a = do
      let a ← forwardLayer .portable T B 1 a
      let low ← forwardLayers .portable T full B.lower k (a.extract 0 (2 ^ k))
      let high ← forwardLayers .portable T full B.upper k (a.extract (2 ^ k) a.size)
      return low ++ high := by
  rw [forwardLayers_portable, List.range_succ_eq_map, List.foldlM_cons, pow_zero]
  rcases hb : forwardLayer .portable T B 1 a with _ | b
  · rfl
  obtain ⟨hlow, hhigh, hwhole⟩ := size_halves ((size_of_onGroups hb).trans ha)
  have hlayers := forwardLoop_append (T := T) (B := B) hlow hhigh
  rw [hwhole] at hlayers
  simp only [List.foldlM_map, Option.bind_eq_bind, Option.bind_some, Nat.succ_eq_add_one, hlayers,
    forwardLayers_portable, Option.bind_assoc, Option.pure_def]
  cases full <;> simp

/-- The blocks that run layer by layer do not show. -/
theorem forwardBlock_portable (limit : ℕ) (full : Bool) (ha : a.size = 2 ^ k) :
    forwardBlock .portable limit T full B k a = forwardLayers .portable T full B k a := by
  induction k generalizing B a with
  | zero => rfl
  | succ k ih =>
      unfold forwardBlock
      split_ifs with hlimit
      · rfl
      rw [forwardLayers_succ full ha]
      rcases hb : forwardLayer .portable T B 1 a with _ | b
      · rfl
      obtain ⟨hlow, hhigh, -⟩ := size_halves ((size_of_onGroups hb).trans ha)
      simp only [Option.bind_eq_bind, Option.bind_some]
      rw [ih hlow, ih hhigh]

/-! ### Inverse -/

/-- An inverse layer of the portable engine works on the groups of the block, unless its place in
the table would be below zero. -/
theorem inverseLayer_portable (m : ℕ) :
    inverseLayer .portable T B m a = (B.inverseStart? T.degree m).bind fun start =>
      onGroups (Butterfly.inverse T.precision T.modulus) T.inverseRoots start m a :=
  rfl

/-- An inverse layer that runs keeps the number of words. -/
theorem size_of_inverseLayer_portable {m : ℕ} {b : Array Word}
    (h : inverseLayer .portable T B m a = some b) : b.size = a.size := by
  obtain ⟨start, -, hrun⟩ := Option.bind_eq_some_iff.1 h
  exact size_of_onGroups hrun

/-- The layers of a block that is not the whole transform. -/
theorem inverseLayers_portable (full : Bool) (hB : B.depth ≠ 0) :
    inverseLayers .portable T full B k a =
      (List.range k).reverse.foldlM (fun a j => inverseLayer .portable T B (2 ^ j) a) a := by
  change (do
    let first := if B.depth = 0 then 1 else 0
    let layers := (List.range' first (k - 0 - first)).reverse
    let a ← layers.foldlM (fun a j => inverseLayer .portable T B (2 ^ j) a) a
    if B.depth = 0 then Engine.portable.final T full a else return a) = _
  simp only [if_neg hB, Nat.sub_zero, ← List.range_eq_range', bind_pure]

/-- The layers of a block that is not the whole transform keep the number of words. -/
theorem size_of_inverseLayers_portable {full : Bool} (hB : B.depth ≠ 0) {b : Array Word}
    (h : inverseLayers .portable T full B k a = some b) : b.size = a.size := by
  rw [inverseLayers_portable full hB] at h
  exact size_of_foldlM (fun _ _ _ h => size_of_inverseLayer_portable h) h

/-- The layers of the whole transform. -/
theorem inverseLayers_portable_whole (full : Bool) (hB : B.depth = 0) :
    inverseLayers .portable T full B (k + 1) a =
      ((List.range k).reverse.foldlM
        (fun a j => inverseLayer .portable T B (2 ^ (j + 1)) a) a).bind
          (Engine.portable.final T full) := by
  change (do
    let first := if B.depth = 0 then 1 else 0
    let layers := (List.range' first (k + 1 - 0 - first)).reverse
    let a ← layers.foldlM (fun a j => inverseLayer .portable T B (2 ^ j) a) a
    if B.depth = 0 then Engine.portable.final T full a else return a) = _
  have hlayers : List.range' 1 k = (List.range k).map Nat.succ := by
    rw [List.range_eq_range', ← List.range'_succ_left]
  simp only [if_pos hB, Nat.sub_zero, Nat.add_sub_cancel, hlayers, ← List.map_reverse,
    List.foldlM_map, Nat.succ_eq_add_one]
  rfl

/-- Layer `j + 1` of a block is layer `j` of its halves. -/
theorem inverseLayer_append {j : ℕ} (hj : j < k) {x y : Array Word} (hx : x.size = 2 ^ k)
    (hy : y.size = 2 ^ k) :
    inverseLayer .portable T B (2 ^ (j + 1)) (x ++ y) = do
      return (← inverseLayer .portable T B.lower (2 ^ j) x) ++
        (← inverseLayer .portable T B.upper (2 ^ j) y) := by
  obtain ⟨t, ht, hsize⟩ := exists_even_parts hj
  rw [inverseLayer_portable, inverseLayer_portable, inverseLayer_portable, pow_succ',
    Block.inverseStart?_lower, Block.inverseStart?_upper]
  rcases B.inverseStart? T.degree (2 * 2 ^ j) with _ | start
  · rfl
  · exact onGroups_append ht (Nat.two_pow_pos j) (hx.trans hsize) (hy.trans hsize)

/-- All layers but the last are all layers of the halves. -/
theorem inverseLoop_append {x y : Array Word} (hx : x.size = 2 ^ k) (hy : y.size = 2 ^ k) :
    (List.range k).reverse.foldlM (fun a j => inverseLayer .portable T B (2 ^ (j + 1)) a)
        (x ++ y) = do
      return (← (List.range k).reverse.foldlM
          (fun a j => inverseLayer .portable T B.lower (2 ^ j) a) x) ++
        (← (List.range k).reverse.foldlM
          (fun a j => inverseLayer .portable T B.upper (2 ^ j) a) y) := by
  refine foldlM_append_arrays ?_ ?_ ?_ hx hy
  · intro j hj x y hx hy
    exact inverseLayer_append (List.mem_range.1 (List.mem_reverse.1 hj)) hx hy
  · intro x j x' h
    exact size_of_inverseLayer_portable h
  · intro y j y' h
    exact size_of_inverseLayer_portable h

/-- All layers of a block: all layers of its halves, then its last layer, which in the whole
transform is the one with the division. -/
theorem inverseLayers_succ (full : Bool) (ha : a.size = 2 ^ (k + 1)) :
    inverseLayers .portable T full B (k + 1) a = (do
      let low ← inverseLayers .portable T full B.lower k (a.extract 0 (2 ^ k))
      let high ← inverseLayers .portable T full B.upper k (a.extract (2 ^ k) a.size)
      let a := low ++ high
      if B.depth = 0 then Engine.portable.final T full a
      else inverseLayer .portable T B 1 a) := by
  obtain ⟨hlow, hhigh, hwhole⟩ := size_halves ha
  have hlayers := inverseLoop_append (T := T) (B := B) hlow hhigh
  rw [hwhole] at hlayers
  rw [inverseLayers_portable full B.depth_lower_ne, inverseLayers_portable full B.depth_upper_ne]
  by_cases hB : B.depth = 0
  · rw [inverseLayers_portable_whole full hB, hlayers]
    simp only [if_pos hB, Option.bind_eq_bind, Option.bind_assoc, Option.pure_def,
      Option.bind_some]
  · rw [inverseLayers_portable full hB, List.range_succ_eq_map, List.reverse_cons,
      List.foldlM_append, ← List.map_reverse]
    simp only [List.foldlM_map, Nat.succ_eq_add_one, hlayers, if_neg hB, Option.bind_eq_bind,
      Option.bind_assoc, Option.pure_def, Option.bind_some, List.foldlM_cons, List.foldlM_nil,
      pow_zero, Option.bind_fun_some]

/-- The blocks that run layer by layer do not show. -/
theorem inverseBlock_portable (limit : ℕ) (full : Bool) (ha : a.size = 2 ^ k) :
    inverseBlock .portable limit T full B k a = inverseLayers .portable T full B k a := by
  induction k generalizing B a with
  | zero => rfl
  | succ k ih =>
      unfold inverseBlock
      by_cases hlimit : 2 ^ (k + 1) ≤ limit
      · rw [if_pos hlimit]
      obtain ⟨hlow, hhigh, -⟩ := size_halves ha
      rw [if_neg hlimit, inverseLayers_succ full ha, ih hlow, ih hhigh]

end Transform

end Negacyclic
