import Negacyclic.Proofs.Transform.Replicated
import Negacyclic.Proofs.Transform.Schedule
import Negacyclic.Transform.Run

/-!
# The engine on registers of eight words

On complete tables the two engines leave the same words, for arbitrary operands
(`forwardBlock_eightLane`, `inverseBlock_eightLane`), so no result of a transform depends on the
machine (`forwardWords_eq`, `inverseWords_eq`).

* A layer of stride 8 or more runs on registers whose eight butterflies lie in one group.
* A layer of stride 4, 2 or 1 runs on chunks. It reads one copy of a root for each butterfly from
  the replicated table: `t` copies of each of the roots that the layer on words reads from its
  own table.

A block of at least sixteen words has these three narrow layers, and the wide ones are the rest.
-/

namespace Negacyclic.Transform

variable {T : Transform} {B : Block} {k K : ℕ} {a : Array Word}

/-! ### Wide layers -/

/-- A layer that fills the registers. -/
theorem onRegisters_eight
    {F : Butterfly.Multipliers 8 → Register 8 → Register 8 → Register 8 × Register 8}
    {f : Multiplier → Word → Word → Word × Word} {t : ℕ} (hF : Butterfly.Lanewise F f)
    (ht : 8 ∣ t) (htpos : 0 < t) (ha : 2 * t ∣ a.size) (roots : Array Multiplier) :
    Layer.onRegisters Lanes.eight F t roots a = Layer.onWords f t roots a := by
  rw [Layer.onRegisters_eq_ofFn Lanes.eight_lawful hF (by omega) htpos ht ha,
    Layer.onWords_eq_ofFn htpos ha]

/-- A layer that fills the registers, with its roots from a table. -/
theorem onGroups_eight
    {F : Butterfly.Multipliers 8 → Register 8 → Register 8 → Register 8 × Register 8}
    {f : Multiplier → Word → Word → Word × Word} {t m : ℕ} (hF : Butterfly.Lanewise F f)
    (ht : 8 ∣ t) (htpos : 0 < t) (hm : 0 < m) (ha : a.size = 2 * t * m)
    (table : Array Multiplier) (start : ℕ) :
    (do
      let roots ← slice? table start m
      if Engine.fits 8 (a.size / (2 * m)) roots a then
        some (Layer.onRegisters Lanes.eight F (a.size / (2 * m)) roots a)
      else
        none) = onGroups f table start m a := by
  have hfits (roots : Array Multiplier) : Engine.fits 8 t roots a = Engine.fits 1 t roots a := by
    have h8 : 8 ≤ t := Nat.le_of_dvd htpos ht
    simp only [Engine.fits, decide_eq_true h8, decide_eq_true (Nat.succ_le_of_lt htpos)]
  have hdvd : 2 * t ∣ a.size := ha ▸ Nat.dvd_mul_right _ _
  simp only [onGroups, size_div_groups hm ha, hfits, onRegisters_eight hF ht htpos hdvd]

/-- A forward layer whose stride is a multiple of eight runs on registers as on words. -/
theorem forwardLayer_eightLane {t m : ℕ} (ht : 8 ∣ t) (htpos : 0 < t) (hm : 0 < m)
    (ha : a.size = 2 * t * m) :
    forwardLayer .eightLane T B m a = forwardLayer .portable T B m a :=
  onGroups_eight (Butterfly.lanewise_forward Lanes.eight_lawful T.precision T.modulus) ht htpos hm
    ha T.roots (B.forwardStart m)

/-- An inverse layer whose stride is a multiple of eight runs on registers as on words. -/
theorem inverseLayer_eightLane {t m : ℕ} (ht : 8 ∣ t) (htpos : 0 < t) (hm : 0 < m)
    (ha : a.size = 2 * t * m) :
    inverseLayer .eightLane T B m a = inverseLayer .portable T B m a := by
  unfold inverseLayer
  rcases B.inverseStart? T.degree m with _ | start
  · rfl
  · exact onGroups_eight (Butterfly.lanewise_inverse Lanes.eight_lawful T.precision T.modulus) ht
      htpos hm ha T.inverseRoots start

/-- The last layer of a transform of at least sixteen words fills the registers. -/
theorem final_eightLane (full : Bool) (hT : T.degree = 2 ^ K) (hK : 4 ≤ K) :
    Engine.eightLane.final T full a = Engine.portable.final T full a := by
  simp only [Engine.eightLane, Engine.portable]
  by_cases ha : a.size = T.degree
  · obtain ⟨i, rfl⟩ := Nat.exists_eq_add_of_le hK
    have hhalf : T.degree / 2 = 8 * 2 ^ i := by
      rw [hT, pow_add]
      omega
    have hdvd : 2 * (8 * 2 ^ i) ∣ a.size := by
      rw [ha, hT, pow_add, ← Nat.mul_assoc]
      exact Nat.dvd_refl _
    have hpos : 0 < 8 * 2 ^ i := by
      have := Nat.two_pow_pos i
      omega
    have hlanes := Butterfly.lanewise_final Lanes.eight_lawful T.precision T.modulus T.scale
      T.scaleRoot full
    rw [if_pos ha, if_pos ha, hhalf,
      onRegisters_eight hlanes (Nat.dvd_mul_right 8 _) hpos hdvd]
  · rw [if_neg ha, if_neg ha]

/-- Full registers are settled as words are. -/
theorem settle_eightLane (ha : 8 ∣ a.size) :
    Engine.eightLane.settle T a = Engine.portable.settle T a :=
  Layer.mapRegisters_eq_map
    (fun x i h => Butterfly.getElem_settleLanes Lanes.eight_lawful x h) (by omega) ha

/-! ### Narrow layers -/

/-- A layer on chunks that reads one copy of the root of its group for each butterfly. -/
theorem onChunks_eight {s : Layer.Shuffle} {t m first start : ℕ}
    {F : Butterfly.Multipliers 8 → Register 8 → Register 8 → Register 8 × Register 8}
    {f : Multiplier → Word → Word → Word × Word} {table copies : Array Multiplier}
    (hs : s.Fits t) (ht : 2 * t ∣ 16) (hF : Butterfly.Lanewise F f) (hm : 0 < m)
    (ha : a.size = 2 * t * m) (h16 : 16 ∣ a.size) (htable : start + m ≤ table.size)
    (hcopies : first + t * m ≤ copies.size)
    (hread : ∀ i < m, ∀ r < t,
      copies.getD (first + t * i + r) default = table.getD (start + i) default) :
    (do
      let roots ← slice? copies first (a.size / 2)
      guard (a.size = 2 * roots.size)
      return Layer.onChunks s F roots a) = onGroups f table start m a := by
  have htpos : 0 < t := Nat.pos_of_ne_zero fun h => by simp [h] at ht
  have hhalf : a.size / 2 = t * m := by
    rw [ha, Nat.mul_assoc, Nat.mul_div_cancel_left _ (by omega)]
  have hsize : (copies.extract first (first + t * m)).size = t * m := by
    rw [Array.size_extract]
    omega
  have hguard : a.size = 2 * (copies.extract first (first + t * m)).size := by
    rw [hsize, ha, Nat.mul_assoc]
  have hroots : ∀ l < a.size / 2, (copies.extract first (first + t * m)).getD l default =
      (table.extract start (start + m)).getD (l / t) default := by
    intro l hl
    rw [hhalf] at hl
    have hgroup : l / t < m := Nat.div_lt_of_lt_mul hl
    rw [getD_extract _ _ (by omega) hcopies, getD_extract _ _ (by omega) htable,
      ← hread _ hgroup _ (Nat.mod_lt l htpos), Nat.add_assoc, Nat.div_add_mod]
  rw [onGroups_of_le htpos hm ha htable, hhalf, slice?_of_le hcopies]
  simp only [Option.bind_eq_bind, Option.bind_some, guard, if_pos hguard, Option.pure_def]
  rw [Layer.onChunks_eq_ofFn hs ht hF h16 hroots,
    Layer.onWords_eq_ofFn htpos (ha ▸ Nat.dvd_mul_right _ _)]

section narrow

variable {s : Layer.Shuffle} {t m : ℕ}

/-- The sizes around a block of at least sixteen words that has `m` groups of stride `t`. -/
theorem narrow_sizes (hB : B.Within k K) (hk : 4 ≤ k) (hm : 2 ^ k = 2 * t * m) :
    ∃ h, 2 ^ K = 8 * h ∧ 16 ≤ 8 * h ∧ 16 ∣ 2 ^ k ∧ t * (m * 2 ^ B.depth) = 4 * h ∧ 0 < m := by
  obtain ⟨i, rfl⟩ := Nat.exists_eq_add_of_le hk
  have hpos : 0 < 2 ^ i * 2 ^ B.depth :=
    Nat.mul_pos (Nat.two_pow_pos i) (Nat.two_pow_pos B.depth)
  have htotal : 2 ^ K = 16 * (2 ^ i * 2 ^ B.depth) := by
    rw [← hB.depth_add, pow_add, pow_add]
    ring
  have hwords : 2 ^ (4 + i) * 2 ^ B.depth = 16 * (2 ^ i * 2 ^ B.depth) := by
    rw [pow_add]
    ring
  have hgroups : 2 * (t * (m * 2 ^ B.depth)) = 16 * (2 ^ i * 2 ^ B.depth) := by
    rw [← hwords, hm]
    ring
  refine ⟨2 * (2 ^ i * 2 ^ B.depth), by omega, by omega, ?_, by omega, ?_⟩
  · rw [pow_add]
    exact Nat.dvd_mul_right _ _
  · apply Nat.pos_of_ne_zero
    intro h
    rw [h, Nat.mul_zero] at hm
    exact absurd hm (Nat.two_pow_pos _).ne'

/-- The strides of the narrow layers have groups that divide a chunk. -/
theorem two_mul_dvd_sixteen (ht : t = 4 ∨ t = 2 ∨ t = 1) : 2 * t ∣ 16 := by
  rcases ht with rfl | rfl | rfl <;> decide

/-- A narrow layer has at most half as many groups as words. -/
theorem two_mul_le_of_groups (ht : t = 4 ∨ t = 2 ∨ t = 1) (hm : 2 ^ k = 2 * t * m) :
    2 * m ≤ 2 ^ k := by
  rw [hm, Nat.mul_right_comm]
  exact Nat.le_mul_of_pos_right _ (by omega)

/-- The replicated table holds `t` copies of each root of a forward layer of stride `t`. -/
theorem forward_copies (ht : t = 4 ∨ t = 2 ∨ t = 1) (hT : T.Complete K) (hB : B.Within k K)
    (hk : 4 ≤ k) (hm : 2 ^ k = 2 * t * m) {start : ℕ}
    (hstart : start = Replicated.forwardIndex (2 ^ K) (B.forwardStart m)) :
    start + t * m ≤ T.replicated.roots.size ∧ ∀ i < m, ∀ r < t,
      T.replicated.roots.getD (start + t * i + r) default =
        T.roots.getD (B.forwardStart m + i) default := by
  obtain ⟨h, hK, hmin, -, hgroups, -⟩ := narrow_sizes hB hk hm
  obtain ⟨hlow, hhigh⟩ := hB.forwardStart_le m
  have hlow' : 4 * h ≤ t * B.forwardStart m := hgroups ▸ Nat.mul_le_mul_left t hlow
  have hhigh' : t * (B.forwardStart m + m) ≤ 8 * h := by
    have := Nat.mul_le_mul_left t hhigh
    rw [Nat.mul_left_comm, hgroups] at this
    omega
  have htable : T.roots.size = 8 * h := hT.size_roots.trans hK
  have hcopies : T.replicated.roots =
      Replicated.expand T.roots (Replicated.forwardSegments (8 * h)) := by
    rw [hT.replicated_eq, hT.degree_eq, hK, Replicated.ofTables,
      if_pos (show Replicated.minDegree ≤ 8 * h from hmin)]
  have hend : B.forwardStart m + m ≤ 8 * h :=
    (Nat.le_mul_of_pos_left _ (by omega)).trans hhigh'
  rw [hstart, hK, hcopies]
  refine ⟨Replicated.forwardIndex_add_le ht hlow' hhigh' htable, ?_⟩
  intro i hi r hr
  have hlt : t * (B.forwardStart m + i) < 8 * h :=
    (Nat.mul_lt_mul_of_pos_left (by omega) (by omega)).trans_le hhigh'
  obtain ⟨hindex, hcount⟩ := Replicated.forwardIndex_add ht hlow' hlt
  rw [← hindex]
  exact (Replicated.forward_laidOut htable).getD (by omega) (hcount ▸ hr)

/-- The replicated table holds `t` copies of each root of an inverse layer of stride `t`. -/
theorem inverse_copies (ht : t = 4 ∨ t = 2 ∨ t = 1) (hT : T.Complete K) (hB : B.Within k K)
    (hk : 4 ≤ k) (hm : 2 ^ k = 2 * t * m) {first start : ℕ}
    (hfirst : B.inverseStart? (2 ^ K) m = some first)
    (hstart : start = Replicated.inverseIndex (2 ^ K) first) :
    start + t * m ≤ T.replicated.inverseRoots.size ∧ ∀ i < m, ∀ r < t,
      T.replicated.inverseRoots.getD (start + t * i + r) default =
        T.inverseRoots.getD (first + i) default := by
  obtain ⟨h, hK, hmin, -, hgroups, hmpos⟩ := narrow_sizes hB hk hm
  obtain ⟨first', hfirst', hat, hroom, hend⟩ := hB.inverseStart?_eq (two_mul_le_of_groups ht hm)
  obtain rfl : first' = first := Option.some_inj.1 (hfirst'.symm.trans hfirst)
  have hlow : t * (8 * h) < t * first' + 8 * h := by
    have : 2 ^ K + 1 ≤ first' + 2 * (m * 2 ^ B.depth) := by omega
    have := Nat.mul_le_mul_left t this
    rw [Nat.mul_add, Nat.mul_add, Nat.mul_left_comm, hgroups, hK] at this
    omega
  have hhigh : t * (first' + m) + 4 * h ≤ t * (8 * h) + t := by
    have : first' + m + m * 2 ^ B.depth ≤ 2 ^ K + 1 := by omega
    have := Nat.mul_le_mul_left t this
    rw [Nat.mul_add, hgroups, Nat.mul_add t (2 ^ K), hK] at this
    omega
  have htable : T.inverseRoots.size = 8 * h := hT.size_inverseRoots.trans hK
  have hcopies : T.replicated.inverseRoots =
      Replicated.expand T.inverseRoots (Replicated.inverseSegments (8 * h)) := by
    rw [hT.replicated_eq, hT.degree_eq, hK, Replicated.ofTables,
      if_pos (show Replicated.minDegree ≤ 8 * h from hmin)]
  have hlast : first' + m ≤ 8 * h := by
    have := Nat.mul_pos hmpos (Nat.two_pow_pos B.depth)
    omega
  rw [hstart, hK, hcopies]
  refine ⟨Replicated.inverseIndex_add_le ht (by omega) hlow hhigh htable, ?_⟩
  intro i hi r hr
  have hlt : t * (first' + i) + 4 * h ≤ t * (8 * h) := by
    have : t * (first' + i + 1) ≤ t * (first' + m) := Nat.mul_le_mul_left t (by omega)
    rw [Nat.mul_add] at this
    omega
  obtain ⟨hindex, hcount⟩ := Replicated.inverseIndex_add ht hlow hlt
  rw [← hindex]
  exact (Replicated.inverse_laidOut (by omega) htable).getD (by omega) (hcount ▸ hr)

/-- A narrow layer of a block of at least sixteen words. -/
theorem forwardChunks_eq (hs : s.Fits t) (ht : t = 4 ∨ t = 2 ∨ t = 1) (hT : T.Complete K)
    (hB : B.Within k K) (hk : 4 ≤ k) (ha : a.size = 2 ^ k) (hm : 2 ^ k = 2 * t * m) :
    Engine.forwardChunks T B s m a = forwardLayer .portable T B m a := by
  obtain ⟨-, -, -, h16, -, hmpos⟩ := narrow_sizes hB hk hm
  obtain ⟨hcopies, hread⟩ := forward_copies ht hT hB hk hm rfl
  have htable : B.forwardStart m + m ≤ T.roots.size := by
    rw [hT.size_roots]
    exact (hB.forwardStart_le m).2.trans (hB.groups_le (two_mul_le_of_groups ht hm))
  unfold Engine.forwardChunks
  rw [forwardLayer_portable]
  simp only [ha, hB.words_mul]
  rw [← ha] at hm h16 ⊢
  exact onChunks_eight hs (two_mul_dvd_sixteen ht)
    (Butterfly.lanewise_forward Lanes.eight_lawful _ _) hmpos hm h16 htable hcopies hread

/-- A narrow layer of a block of at least sixteen words. -/
theorem inverseChunks_eq (hs : s.Fits t) (ht : t = 4 ∨ t = 2 ∨ t = 1) (hT : T.Complete K)
    (hB : B.Within k K) (hk : 4 ≤ k) (ha : a.size = 2 ^ k) (hm : 2 ^ k = 2 * t * m) :
    Engine.inverseChunks T B s m a = inverseLayer .portable T B m a := by
  obtain ⟨-, -, -, h16, -, hmpos⟩ := narrow_sizes hB hk hm
  obtain ⟨first, hfirst, -, -, hend⟩ := hB.inverseStart?_eq (two_mul_le_of_groups ht hm)
  obtain ⟨hcopies, hread⟩ := inverse_copies ht hT hB hk hm hfirst rfl
  have htable : first + m ≤ T.inverseRoots.size := by
    have := Nat.mul_pos hmpos (Nat.two_pow_pos B.depth)
    have := Nat.two_pow_pos K
    rw [hT.size_inverseRoots]
    omega
  unfold Engine.inverseChunks
  rw [inverseLayer_portable, hT.degree_eq]
  simp only [ha, hB.words_mul, hfirst, Option.bind_eq_bind, Option.bind_some]
  rw [← ha] at hm h16 ⊢
  exact onChunks_eight hs (two_mul_dvd_sixteen ht)
    (Butterfly.lanewise_inverse Lanes.eight_lawful _ _) hmpos hm h16 htable hcopies hread

end narrow

/-! ### Blocks -/

/-- The strides of the last three layers of a block of `2^(w + 3)` words. -/
theorem narrow_groups {w : ℕ} (ha : a.size = 2 ^ (w + 3)) :
    (a.size / 8 = 2 ^ w ∧ 2 ^ (w + 3) = 2 * 4 * 2 ^ w) ∧
      (a.size / 4 = 2 ^ (w + 1) ∧ 2 ^ (w + 3) = 2 * 2 * 2 ^ (w + 1)) ∧
      (a.size / 2 = 2 ^ (w + 2) ∧ 2 ^ (w + 3) = 2 * 1 * 2 ^ (w + 2)) := by
  have h1 : 2 ^ (w + 1) = 2 * 2 ^ w := pow_succ' 2 w
  have h2 : 2 ^ (w + 2) = 4 * 2 ^ w := by
    rw [pow_add]
    omega
  have h3 : 2 ^ (w + 3) = 8 * 2 ^ w := by
    rw [pow_add]
    omega
  omega

section layers

variable {w : ℕ}

/-- The three narrow forward layers on chunks are the last three layers on words. The multipliers
they load are copies of those that the layers on words read. -/
theorem forwardNarrow_eightLane (hT : T.Complete K) (hB : B.Within (w + 3) K) (hw : 1 ≤ w)
    (ha : a.size = 2 ^ (w + 3)) :
    Engine.eightLane.forwardNarrow T B a =
      [w, w + 1, w + 2].foldlM (fun a j => forwardLayer .portable T B (2 ^ j) a) a := by
  simp only [Engine.eightLane, List.foldlM_cons, List.foldlM_nil, bind_pure]
  obtain ⟨⟨hm, hwords⟩, -, -⟩ := narrow_groups ha
  rw [hm, forwardChunks_eq Layer.stride4_fits (.inl rfl) hT hB (by omega) ha hwords]
  rcases hb : forwardLayer .portable T B (2 ^ w) a with _ | b
  · rfl
  have hbsize : b.size = 2 ^ (w + 3) := (size_of_onGroups hb).trans ha
  obtain ⟨-, ⟨hm, hwords⟩, -⟩ := narrow_groups hbsize
  simp only [Option.bind_eq_bind, Option.bind_some]
  rw [hm, forwardChunks_eq Layer.stride2_fits (.inr (.inl rfl)) hT hB (by omega) hbsize hwords]
  rcases hc : forwardLayer .portable T B (2 ^ (w + 1)) b with _ | c
  · rfl
  have hcsize : c.size = 2 ^ (w + 3) := (size_of_onGroups hc).trans hbsize
  obtain ⟨-, -, ⟨hm, hwords⟩⟩ := narrow_groups hcsize
  simp only [Option.bind_some]
  rw [hm, forwardChunks_eq Layer.stride1_fits (.inr (.inr rfl)) hT hB (by omega) hcsize hwords]

/-- The three narrow inverse layers on chunks are the first three layers on words. -/
theorem inverseNarrow_eightLane (hT : T.Complete K) (hB : B.Within (w + 3) K) (hw : 1 ≤ w)
    (ha : a.size = 2 ^ (w + 3)) :
    Engine.eightLane.inverseNarrow T B a =
      [w + 2, w + 1, w].foldlM (fun a j => inverseLayer .portable T B (2 ^ j) a) a := by
  simp only [Engine.eightLane, List.foldlM_cons, List.foldlM_nil, bind_pure]
  obtain ⟨-, -, ⟨hm, hwords⟩⟩ := narrow_groups ha
  rw [hm, inverseChunks_eq Layer.stride1_fits (.inr (.inr rfl)) hT hB (by omega) ha hwords]
  rcases hb : inverseLayer .portable T B (2 ^ (w + 2)) a with _ | b
  · rfl
  have hbsize : b.size = 2 ^ (w + 3) := (size_of_inverseLayer_portable hb).trans ha
  obtain ⟨-, ⟨hm, hwords⟩, -⟩ := narrow_groups hbsize
  simp only [Option.bind_eq_bind, Option.bind_some]
  rw [hm, inverseChunks_eq Layer.stride2_fits (.inr (.inl rfl)) hT hB (by omega) hbsize hwords]
  rcases hc : inverseLayer .portable T B (2 ^ (w + 1)) b with _ | c
  · rfl
  have hcsize : c.size = 2 ^ (w + 3) := (size_of_inverseLayer_portable hc).trans hbsize
  obtain ⟨⟨hm, hwords⟩, -, -⟩ := narrow_groups hcsize
  simp only [Option.bind_some]
  rw [hm, inverseChunks_eq Layer.stride4_fits (.inl rfl) hT hB (by omega) hcsize hwords]

/-- The wide layers of a block fill the registers. -/
theorem wide_groups {j : ℕ} (hj : j < w) :
    ∃ t, 8 ∣ t ∧ 0 < t ∧ 2 ^ (w + 3) = 2 * t * 2 ^ j := by
  obtain ⟨t, ht, hsize⟩ := exists_even_parts hj
  refine ⟨8 * t, Nat.dvd_mul_right 8 t, by omega, ?_⟩
  rw [pow_add, hsize]
  ring

/-- The first and the last layer of a block that does not run layer by layer fill the registers. -/
theorem halving_groups {limit : ℕ} (hlimit : 16 ≤ limit) (hlarge : ¬2 ^ (k + 1) ≤ limit) :
    4 ≤ k ∧ ∃ t, 8 ∣ t ∧ 0 < t ∧ 2 ^ (k + 1) = 2 * t * 1 := by
  have hk : 4 ≤ k := by
    by_contra hfew
    have hle : 2 ^ (k + 1) ≤ 2 ^ 4 := Nat.pow_le_pow_right (by omega) (by omega)
    exact hlarge (hle.trans hlimit)
  obtain ⟨w, rfl⟩ := Nat.exists_eq_add_of_le' (show 2 ≤ k by omega)
  obtain ⟨t, ht, htpos, hgroups⟩ := wide_groups (w := w) (j := 0) (by omega)
  exact ⟨hk, t, ht, htpos, hgroups⟩

/-- The wide forward layers run on registers as on words. -/
theorem forwardLoop_eightLane (ha : a.size = 2 ^ (w + 3)) :
    (List.range w).foldlM (fun a j => forwardLayer .eightLane T B (2 ^ j) a) a =
      (List.range w).foldlM (fun a j => forwardLayer .portable T B (2 ^ j) a) a := by
  refine foldlM_congr_of_size ?_ (fun a j b h => size_of_onGroups h) ha
  intro j hj a ha
  obtain ⟨t, ht, htpos, hsize⟩ := wide_groups (List.mem_range.1 hj)
  exact forwardLayer_eightLane ht htpos (Nat.two_pow_pos j) (ha.trans hsize)

/-- The wide inverse layers run on registers as on words. -/
theorem inverseLoop_eightLane {js : List ℕ} (hjs : ∀ j ∈ js, j < w) (ha : a.size = 2 ^ (w + 3)) :
    js.foldlM (fun a j => inverseLayer .eightLane T B (2 ^ j) a) a =
      js.foldlM (fun a j => inverseLayer .portable T B (2 ^ j) a) a := by
  refine foldlM_congr_of_size ?_ (fun a j b h => size_of_inverseLayer_portable h) ha
  intro j hj a ha
  obtain ⟨t, ht, htpos, hsize⟩ := wide_groups (hjs j hj)
  exact inverseLayer_eightLane ht htpos (Nat.two_pow_pos j) (ha.trans hsize)

/-- Layer by layer, the engines leave the same words. -/
theorem forwardLayers_eightLane (full : Bool) (hT : T.Complete K) (hB : B.Within (w + 3) K)
    (hw : 1 ≤ w) (ha : a.size = 2 ^ (w + 3)) :
    forwardLayers .eightLane T full B (w + 3) a = forwardLayers .portable T full B (w + 3) a := by
  have hlayers : List.range (w + 3) = List.range w ++ [w, w + 1, w + 2] := by
    simp [List.range_succ]
  have height : forwardLayers .eightLane T full B (w + 3) a = (do
      let a ← (List.range w).foldlM (fun a j => forwardLayer .eightLane T B (2 ^ j) a) a
      let a ← Engine.eightLane.forwardNarrow T B a
      return if full then Engine.eightLane.settle T a else a) := rfl
  rw [height, forwardLayers_portable, hlayers, List.foldlM_append, forwardLoop_eightLane ha]
  rcases hb : (List.range w).foldlM (fun a j => forwardLayer .portable T B (2 ^ j) a) a with _ | b
  · rfl
  have hbsize := (size_of_foldlM (fun a j b h => size_of_onGroups h) hb).trans ha
  simp only [Option.bind_eq_bind, Option.bind_some]
  rw [forwardNarrow_eightLane hT hB hw hbsize]
  rcases hc : [w, w + 1, w + 2].foldlM (fun a j => forwardLayer .portable T B (2 ^ j) a) b
    with _ | c
  · rfl
  have hcsize := (size_of_foldlM (fun a j b h => size_of_onGroups h) hc).trans hbsize
  have h8 : 8 ∣ c.size := by
    rw [hcsize, pow_add]
    exact Nat.dvd_mul_left _ _
  simp only [Option.bind_some, settle_eightLane h8]
  rfl

/-- Layer by layer, the engines leave the same words. -/
theorem inverseLayers_eightLane (full : Bool) (hT : T.Complete K) (hB : B.Within (w + 3) K)
    (hw : 1 ≤ w) (ha : a.size = 2 ^ (w + 3)) :
    inverseLayers .eightLane T full B (w + 3) a = inverseLayers .portable T full B (w + 3) a := by
  obtain ⟨first, hfirst⟩ : ∃ first, first = if B.depth = 0 then 1 else 0 := ⟨_, rfl⟩
  have hle : first ≤ w := by
    rw [hfirst]
    split_ifs <;> omega
  have hlayers : (List.range' first (w + 3 - first)).reverse =
      [w + 2, w + 1, w] ++ (List.range' first (w - first)).reverse := by
    obtain ⟨c, rfl⟩ := Nat.exists_eq_add_of_le hle
    rw [show first + c + 3 - first = c + 1 + 1 + 1 by omega, Nat.add_sub_cancel_left,
      List.range'_1_concat, List.range'_1_concat, List.range'_1_concat]
    simp [Nat.add_assoc]
  have hwide : ∀ j ∈ (List.range' first (w - first)).reverse, j < w := by
    intro j hj
    obtain ⟨-, hlt⟩ := List.mem_range'_1.1 (List.mem_reverse.1 hj)
    omega
  have height : inverseLayers .eightLane T full B (w + 3) a = (do
      let a ← Engine.eightLane.inverseNarrow T B a
      let a ← (List.range' first (w - first)).reverse.foldlM
        (fun a j => inverseLayer .eightLane T B (2 ^ j) a) a
      if B.depth = 0 then Engine.eightLane.final T full a else return a) := by
    rw [hfirst]
    rfl
  have hone : inverseLayers .portable T full B (w + 3) a = (do
      let a ← (List.range' first (w + 3 - first)).reverse.foldlM
        (fun a j => inverseLayer .portable T B (2 ^ j) a) a
      if B.depth = 0 then Engine.portable.final T full a else return a) := by
    rw [hfirst]
    rfl
  rw [height, hone, hlayers, List.foldlM_append, inverseNarrow_eightLane hT hB hw ha]
  rcases hb : [w + 2, w + 1, w].foldlM (fun a j => inverseLayer .portable T B (2 ^ j) a) a
    with _ | b
  · rfl
  have hbsize := (size_of_foldlM (fun a j b h => size_of_inverseLayer_portable h) hb).trans ha
  have hK : 4 ≤ K := (show 4 ≤ w + 3 by omega).trans hB.le
  simp only [Option.bind_eq_bind, Option.bind_some, inverseLoop_eightLane hwide hbsize,
    final_eightLane full hT.degree_eq hK]

end layers

/-- The engines leave the same words in a block of at least sixteen. -/
theorem forwardBlock_eightLane {limit : ℕ} (hlimit : 16 ≤ limit) (full : Bool)
    (hT : T.Complete K) (hB : B.Within k K) (hk : 4 ≤ k) (ha : a.size = 2 ^ k) :
    forwardBlock .eightLane limit T full B k a = forwardBlock .portable limit T full B k a := by
  induction k generalizing B a with
  | zero => omega
  | succ k ih =>
      unfold forwardBlock
      by_cases hsmall : 2 ^ (k + 1) ≤ limit
      · obtain ⟨w, rfl⟩ := Nat.exists_eq_add_of_le' (show 2 ≤ k by omega)
        rw [if_pos hsmall, if_pos hsmall]
        exact forwardLayers_eightLane full hT hB (by omega) ha
      obtain ⟨hk4, t, ht, htpos, hsize⟩ := halving_groups hlimit hsmall
      rw [if_neg hsmall, if_neg hsmall,
        forwardLayer_eightLane ht htpos Nat.one_pos (ha.trans hsize)]
      rcases hb : forwardLayer .portable T B 1 a with _ | b
      · rfl
      obtain ⟨hlow, hhigh, -⟩ := size_halves ((size_of_onGroups hb).trans ha)
      simp only [Option.bind_eq_bind, Option.bind_some]
      rw [ih hB.lower hk4 hlow, ih hB.upper hk4 hhigh]

/-- The engines leave the same words in a block of at least sixteen. -/
theorem inverseBlock_eightLane {limit : ℕ} (hlimit : 16 ≤ limit) (full : Bool)
    (hT : T.Complete K) (hB : B.Within k K) (hk : 4 ≤ k) (ha : a.size = 2 ^ k) :
    inverseBlock .eightLane limit T full B k a = inverseBlock .portable limit T full B k a := by
  induction k generalizing B a with
  | zero => omega
  | succ k ih =>
      unfold inverseBlock
      by_cases hsmall : 2 ^ (k + 1) ≤ limit
      · obtain ⟨w, rfl⟩ := Nat.exists_eq_add_of_le' (show 2 ≤ k by omega)
        rw [if_pos hsmall, if_pos hsmall]
        exact inverseLayers_eightLane full hT hB (by omega) ha
      obtain ⟨hk4, t, ht, htpos, hgroups⟩ := halving_groups hlimit hsmall
      obtain ⟨hlow, hhigh, hhalves⟩ := size_halves ha
      have hK : 4 ≤ K := hk.trans hB.le
      rw [if_neg hsmall, if_neg hsmall, ih hB.lower hk4 hlow, ih hB.upper hk4 hhigh,
        inverseBlock_portable limit full hlow, inverseBlock_portable limit full hhigh]
      rcases hl : inverseLayers .portable T full B.lower k (a.extract 0 (2 ^ k)) with _ | low
      · rfl
      rcases hh : inverseLayers .portable T full B.upper k (a.extract (2 ^ k) a.size) with _ | high
      · rfl
      have hwhole : (low ++ high).size = 2 * t * 1 := by
        rw [Array.size_append, size_of_inverseLayers_portable B.depth_lower_ne hl,
          size_of_inverseLayers_portable B.depth_upper_ne hh, ← Array.size_append, hhalves, ha,
          hgroups]
      simp only [Option.bind_eq_bind, Option.bind_some, final_eightLane full hT.degree_eq hK,
        inverseLayer_eightLane ht htpos Nat.one_pos hwhole]

/-! ### Machines -/

/-- A transform for which the engine on registers is chosen. -/
theorem four_le_of_minDegree (hT : T.Complete K) (hmin : Replicated.minDegree ≤ T.degree) :
    4 ≤ K := by
  rw [hT.degree_eq] at hmin
  exact (Nat.pow_le_pow_iff_right (a := 2) (by omega)).1 hmin

/-- The machine does not show in the words of a forward transform. -/
theorem forwardWords_eq (hT : T.Complete K) (backend : Backend) (full : Bool)
    (ha : a.size = 2 ^ K) :
    T.forwardWords backend full a = forwardLayers .portable T full .whole K a := by
  unfold forwardWords
  rw [hT.degree_eq, Nat.log2_two_pow, ← forwardBlock_portable blockLimit full ha]
  cases backend with
  | portable => rfl
  | eightLane =>
      simp only [engine]
      split_ifs with hmin
      · exact forwardBlock_eightLane (by decide) full hT (Block.whole_within K)
          (four_le_of_minDegree hT hmin) ha
      · rfl

/-- The machine does not show in the words of an inverse transform. -/
theorem inverseWords_eq (hT : T.Complete K) (backend : Backend) (full : Bool)
    (ha : a.size = 2 ^ K) :
    T.inverseWords backend full a = inverseLayers .portable T full .whole K a := by
  unfold inverseWords
  rw [hT.degree_eq, Nat.log2_two_pow, ← inverseBlock_portable blockLimit full ha]
  cases backend with
  | portable => rfl
  | eightLane =>
      simp only [engine]
      split_ifs with hmin
      · exact inverseBlock_eightLane (by decide) full hT (Block.whole_within K)
          (four_le_of_minDegree hT hmin) ha
      · rfl

end Negacyclic.Transform
