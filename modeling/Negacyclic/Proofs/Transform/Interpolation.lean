import Negacyclic.Proofs.Transform.Construction
import Negacyclic.Proofs.Transform.EightLane
import Negacyclic.Proofs.Transform.OddPower
import Negacyclic.Proofs.Transform.Run

/-!
# The inverse network interpolates

A block of the inverse network takes words to their sums against the powers of the inverse
points: position `i` gets the sum of word `j` times the `i`-th power of the inverse of the point
of `j` (`inverseLayers_represents`). The whole transform divides these sums by its size in its
last layer, which is the only one that does so (`inverse_whole_represents`).

The inverse of the root is again a root of -1, so what `oddPower` has for the points holds of
their inverses. The induction is on the levels of blocks, from the halves to the block: on the
upper half of the positions the inverse points bring their common half power in front of the sum,
the root of the last layer of the block on the lower half of the words and minus it on the upper.
-/

namespace Negacyclic.Transform

variable {isPrime : Word → Bool} {T : Transform} {B : Block} {k K : ℕ} {a : Array Word}

/-! ### The inverse of the root -/

/-- The inverse of the root of a transform, in the residues modulo `q`. -/
def inverseRoot (T : Transform) : ZMod T.modulus.toNat :=
  (residue T.modulus T.root)⁻¹

/-- The root of the inverse tables is the inverse of the root. -/
theorem WellFormed.inverseRoot_mul (hT : T.WellFormed K) :
    T.inverseRoot * residue T.modulus T.root = 1 := by
  have hpos := Nat.two_pow_pos K
  have hunit : IsUnit (residue T.modulus T.root) := by
    apply IsUnit.of_mul_eq_one (-(residue T.modulus T.root ^ (2 ^ K - 1)))
    rw [mul_neg, mul_pow_sub_one hpos.ne', hT.root_pow, neg_neg]
  exact ZMod.inv_mul_of_unit _ hunit

/-- The inverse of a root of -1 is one. -/
theorem WellFormed.inverseRoot_pow (hT : T.WellFormed K) : T.inverseRoot ^ 2 ^ K = -1 := by
  have hone : (T.inverseRoot * residue T.modulus T.root) ^ 2 ^ K = 1 := by
    rw [hT.inverseRoot_mul, one_pow]
  rw [mul_pow, hT.root_pow, mul_neg_one] at hone
  rw [← hone, neg_neg]

/-- What inverts a power of the root is a power of its inverse. -/
theorem WellFormed.eq_inverseRoot_pow (hT : T.WellFormed K) {w : ZMod T.modulus.toNat} {e : ℕ}
    (h : w * residue T.modulus T.root ^ e = 1) : w = T.inverseRoot ^ e := by
  calc w = w * (T.inverseRoot * residue T.modulus T.root) ^ e := by
        rw [hT.inverseRoot_mul, one_pow, mul_one]
    _ = w * residue T.modulus T.root ^ e * T.inverseRoot ^ e := by ring
    _ = T.inverseRoot ^ e := by rw [h, one_mul]

/-! ### The last layer of a block -/

/-- The root that the last layer of a block reads. -/
theorem WellFormed.inverse_root (hT : T.WellFormed K) (hB : B.Within (k + 1) K) :
    ∃ start, B.inverseStart? T.degree 1 = some start ∧
      start = 2 ^ K - 2 * 2 ^ B.depth + 1 + B.index ∧ start < 2 ^ K ∧
      (T.inverseRoots.getD start default).Proper T.precision T.modulus ∧
      residue T.modulus (T.inverseRoots.getD start default).value = B.root T.inverseRoot K := by
  have hfew : 2 * 1 ≤ 2 ^ (k + 1) := by
    have := Nat.two_pow_pos k
    rw [pow_succ]
    omega
  obtain ⟨start, hstart, hat, hroom, hend⟩ := hB.inverseStart?_eq hfew
  have hpos := Nat.two_pow_pos B.depth
  have hdepth := hB.depth_lt
  have hlt : start < 2 ^ K := by omega
  rw [Nat.one_mul, Nat.mul_one] at hat
  refine ⟨start, by rw [hT.degree_eq, hstart], hat, hlt, hT.proper_inverseRoots _ hlt, ?_⟩
  have hinv := hT.residue_inverseRoots B.depth hdepth B.index hB.index_lt
  rw [← hat] at hinv
  exact hT.eq_inverseRoot_pow hinv

/-- The last layer of a block joins its halves. -/
theorem inverseLayer_represents (hT : T.WellFormed K) (hB : B.Within (k + 1) K)
    {f : ℕ → ZMod T.modulus.toNat}
    (ha : Represents T.modulus (2 * T.modulus.toNat) (2 ^ k + 2 ^ k) a f) :
    ∃ b, inverseLayer .portable T B 1 a = some b ∧
      Represents T.modulus (2 * T.modulus.toNat) (2 ^ k + 2 ^ k) b fun i =>
        if i < 2 ^ k then f i + f (2 ^ k + i)
        else B.root T.inverseRoot K * (f (i - 2 ^ k) - f i) := by
  obtain ⟨start, hstart, -, hlt, hproper, hroot⟩ := hT.inverse_root hB
  have hsize : a.size = 2 * 2 ^ k * 1 := by
    rw [ha.size_eq]
    omega
  have htable : start + 1 ≤ T.inverseRoots.size := by
    rw [hT.size_inverseRoots]
    omega
  have hread : (T.inverseRoots.extract start (start + 1)).getD 0 default =
      T.inverseRoots.getD start default := by
    rw [getD_extract _ _ (by omega) htable, Nat.add_zero]
  rw [inverseLayer_portable, hstart, Option.bind_some]
  refine ⟨_, onGroups_of_le (Nat.two_pow_pos k) Nat.one_pos hsize htable, ?_⟩
  refine Represents.onWords (fun x y => x + y) (fun x y => B.root T.inverseRoot K * (x - y)) ha
    (Nat.two_pow_pos k) ?_ ?_
  · intro x y hx hy
    rw [hread]
    exact Butterfly.toNat_inverse_lt hT.spacious hproper hx hy
  · intro x y hx hy
    rw [hread, ← hroot]
    exact Butterfly.residue_inverse hT.spacious hproper hx hy

/-- The last layer of the whole transform also divides by its size. -/
theorem final_represents (hT : T.WellFormed (k + 1)) (full : Bool)
    {f : ℕ → ZMod T.modulus.toNat}
    (ha : Represents T.modulus (2 * T.modulus.toNat) (2 ^ k + 2 ^ k) a f) :
    ∃ b, Engine.portable.final T full a = some b ∧
      Represents T.modulus ((if full then 1 else 2) * T.modulus.toNat) (2 ^ k + 2 ^ k) b fun i =>
        if i < 2 ^ k then residue T.modulus T.scale.value * (f i + f (2 ^ k + i))
        else residue T.modulus T.scaleRoot.value * (f (i - 2 ^ k) - f i) := by
  have hdegree : T.degree = 2 ^ k + 2 ^ k := by
    rw [hT.degree_eq, Nat.two_pow_succ]
  have hhalf : T.degree / 2 = 2 ^ k := by omega
  refine ⟨_, if_pos (ha.size_eq.trans hdegree.symm), ?_⟩
  rw [hhalf]
  refine Represents.onWords (fun x y => residue T.modulus T.scale.value * (x + y))
    (fun x y => residue T.modulus T.scaleRoot.value * (x - y)) ha (Nat.two_pow_pos k) ?_ ?_
  · intro x y hx hy
    exact Butterfly.toNat_final_lt hT.spacious hT.proper_scale hT.proper_scaleRoot full hx hy
  · intro x y hx hy
    exact Butterfly.residue_final hT.spacious hT.proper_scale hT.proper_scaleRoot full hx hy

/-! ### All layers of a block -/

/-- A sum over the words of a block by its halves, each against the points of its own. -/
theorem sum_oddPower_halves {R : Type} [CommRing R] (phi : R) (K : ℕ) (B : Block) (f : ℕ → R)
    (m i : ℕ) :
    ∑ j ∈ Finset.range (m + m), f j * oddPower phi K (B.index * (m + m) + j) ^ i =
      ∑ j ∈ Finset.range m, f j * oddPower phi K (B.lower.index * m + j) ^ i +
        ∑ j ∈ Finset.range m, f (m + j) * oddPower phi K (B.upper.index * m + j) ^ i := by
  rw [Finset.sum_range_add]
  simp only [B.index_lower, B.index_upper]

/-- A common `m`-th power of the points comes in front of a sum against higher powers. -/
theorem sum_mul_pow_add {R : Type} [CommRing R] (f x : ℕ → R) {r : R} {m n : ℕ}
    (hx : ∀ j < n, x j ^ m = r) (i : ℕ) :
    ∑ j ∈ Finset.range n, f j * x j ^ (m + i) = r * ∑ j ∈ Finset.range n, f j * x j ^ i := by
  rw [Finset.mul_sum]
  apply Finset.sum_congr rfl
  intro j hj
  rw [pow_add, hx j (Finset.mem_range.1 hj)]
  ring

/-- The sums of the halves of a block make up its own. -/
theorem sum_oddPower_eq (hT : T.WellFormed K) (hB : B.Within (k + 1) K)
    {f g : ℕ → ZMod T.modulus.toNat}
    (hlow : ∀ i < 2 ^ k, g i = ∑ j ∈ Finset.range (2 ^ k),
      f j * oddPower T.inverseRoot K (B.lower.index * 2 ^ k + j) ^ i)
    (hhigh : ∀ i < 2 ^ k, g (2 ^ k + i) = ∑ j ∈ Finset.range (2 ^ k),
      f (2 ^ k + j) * oddPower T.inverseRoot K (B.upper.index * 2 ^ k + j) ^ i) :
    ∀ i < 2 ^ k + 2 ^ k,
      (if i < 2 ^ k then g i + g (2 ^ k + i)
        else B.root T.inverseRoot K * (g (i - 2 ^ k) - g i)) =
      ∑ j ∈ Finset.range (2 ^ k + 2 ^ k),
        f j * oddPower T.inverseRoot K (B.index * (2 ^ k + 2 ^ k) + j) ^ i := by
  intro i hi
  rw [sum_oddPower_halves]
  rcases Nat.lt_or_ge i (2 ^ k) with him | him
  · rw [if_pos him, hlow i him, hhigh i him]
  · obtain ⟨j, rfl⟩ := Nat.exists_eq_add_of_le him
    have hj : j < 2 ^ k := by omega
    rw [if_neg (by omega), Nat.add_sub_cancel_left, hlow j hj, hhigh j hj,
      sum_mul_pow_add f _ (fun l hl => oddPower_pow_lower hT.inverseRoot_pow hB hl),
      sum_mul_pow_add _ _ (fun l hl => oddPower_pow_upper hT.inverseRoot_pow hB hl)]
    ring

/-- A block of the inverse network that is not the whole transform leaves the sums against the
powers of its inverse points. -/
theorem inverseLayers_represents (hT : T.WellFormed K) (full : Bool) (hB : B.Within k K)
    (hpart : B.depth ≠ 0) {f : ℕ → ZMod T.modulus.toNat}
    (ha : Represents T.modulus (2 * T.modulus.toNat) (2 ^ k) a f) :
    ∃ y, inverseLayers .portable T full B k a = some y ∧
      Represents T.modulus (2 * T.modulus.toNat) (2 ^ k) y fun i =>
        ∑ j ∈ Finset.range (2 ^ k),
          f j * oddPower T.inverseRoot K (B.index * 2 ^ k + j) ^ i := by
  induction k generalizing B a f with
  | zero =>
      refine ⟨a, by rw [inverseLayers_portable full hpart]; rfl, ha.congr fun i hi => ?_⟩
      obtain rfl : i = 0 := by omega
      simp
  | succ k ih =>
      have hhalves := Nat.two_pow_succ k
      have hsize := ha.size_eq
      rw [hhalves] at ha
      obtain ⟨low, hlow, hlowSums⟩ := ih hB.lower B.depth_lower_ne ha.extract_low
      obtain ⟨high, hhigh, hhighSums⟩ := ih hB.upper B.depth_upper_ne ha.extract_high
      obtain ⟨g, hg, hglow, hghigh⟩ := hlowSums.exists_append hhighSums
      obtain ⟨y, hlayer, hy⟩ := inverseLayer_represents hT hB hg
      refine ⟨y, ?_, ?_⟩
      · rw [inverseLayers_succ full hsize, hlow, hhigh]
        simp only [Option.bind_eq_bind, Option.bind_some, if_neg hpart]
        exact hlayer
      · rw [hhalves]
        exact hy.congr (sum_oddPower_eq hT hB hglow hghigh)

/-! ### The whole transform -/

/-- The second multiplier of the last layer is the first times the root of the whole block. -/
theorem WellFormed.scaleRoot_eq (hT : T.WellFormed (k + 1)) :
    residue T.modulus T.scaleRoot.value =
      residue T.modulus T.scale.value * Block.whole.root T.inverseRoot (k + 1) := by
  obtain ⟨start, -, hat, -, -, hroot⟩ := hT.inverse_root (Block.whole_within (k + 1))
  have hlast : 2 ^ (k + 1) - 1 = start := by
    have hpos := Nat.two_pow_pos k
    change start = 2 ^ (k + 1) - 2 * 2 ^ 0 + 1 + 0 at hat
    rw [hat, pow_succ]
    omega
  rw [hT.residue_scaleRoot, hlast, hroot]

/-- The inverse network leaves the sums against the powers of the inverse points, divided by the
size. -/
theorem inverse_whole_represents (hT : T.WellFormed K) (full : Bool)
    {f : ℕ → ZMod T.modulus.toNat}
    (ha : Represents T.modulus (2 * T.modulus.toNat) (2 ^ K) a f) :
    ∃ y, inverseLayers .portable T full .whole K a = some y ∧
      Represents T.modulus ((if full then 1 else 2) * T.modulus.toNat) (2 ^ K) y fun i =>
        residue T.modulus T.scale.value *
          ∑ j ∈ Finset.range (2 ^ K), f j * oddPower T.inverseRoot K j ^ i := by
  obtain ⟨k, rfl⟩ : ∃ k, K = k + 1 := Nat.exists_eq_add_of_le' hT.degree_pos
  have hB := Block.whole_within (k + 1)
  have hhalves := Nat.two_pow_succ k
  have hsize := ha.size_eq
  rw [hhalves] at ha
  obtain ⟨low, hlow, hlowSums⟩ :=
    inverseLayers_represents hT full hB.lower Block.whole.depth_lower_ne ha.extract_low
  obtain ⟨high, hhigh, hhighSums⟩ :=
    inverseLayers_represents hT full hB.upper Block.whole.depth_upper_ne ha.extract_high
  obtain ⟨g, hg, hglow, hghigh⟩ := hlowSums.exists_append hhighSums
  obtain ⟨y, hlayer, hy⟩ := final_represents hT full hg
  refine ⟨y, ?_, ?_⟩
  · rw [inverseLayers_succ full hsize, hlow, hhigh]
    exact hlayer
  rw [hhalves]
  apply hy.congr
  intro i hi
  have hsum := sum_oddPower_eq hT hB hglow hghigh i hi
  simp only [show Block.whole.index = 0 from rfl, Nat.zero_mul, Nat.zero_add] at hsum
  rw [hT.scaleRoot_eq, mul_assoc, ← mul_ite, hsum]

/-! ### Runs -/

/-- An inverse transform leaves the sums of its operand against the powers of the inverse points,
divided by the size. -/
theorem WellFormed.inverseGives (hT : T.WellFormed K) (backend : Backend) {input output : Word}
    (hin : input ∈ [1, 2]) (hout : output ∈ [1, 2]) {f : ℕ → ZMod T.modulus.toNat}
    (ha : Represents T.modulus (input.toNat * T.modulus.toNat) (2 ^ K) a f) :
    ∃ y, T.InverseGives backend input output a y ∧
      Represents T.modulus (output.toNat * T.modulus.toNat) (2 ^ K) y fun i =>
        residue T.modulus T.scale.value *
          ∑ j ∈ Finset.range (2 ^ K), f j * oddPower T.inverseRoot K j ^ i := by
  have hrs := inverseRequirements_hold hin hout (ha.size_eq.trans hT.degree_eq.symm)
    ha.toNat_lt_of_mem
  have ha2 := ha.mono (Nat.mul_le_mul_right T.modulus.toNat (toNat_le_of_mem_inverse hin))
  obtain ⟨y, hrun, hy⟩ := inverse_whole_represents hT (output == 1) ha2
  rw [toNat_of_mem_inverse hout] at hy
  have hwords := (inverseWords_eq hT.toComplete backend (output == 1) ha.size_eq).trans hrun
  have hgives := inverseGives_of backend hrs hwords hy.toNat_lt_of_mem
  exact ⟨y, hgives, hy⟩

/-- The inverse transform of every transform that is built: whatever the machine and the factors,
it succeeds, and `n` times the word at position `i` is the sum of word `j` times the inverse of
the root to the power `i * (2 * bitReverse (log2 n) j + 1)`, below the declared bound. -/
theorem inverse_interpolates (hT : T.Built isPrime) (backend : Backend) {input output : Word}
    (hin : input ∈ [1, 2]) (hout : output ∈ [1, 2]) (ha : a.size = T.degree)
    (hlt : ∀ x ∈ a, x.toNat < input.toNat * T.modulus.toNat) :
    T.inverseRoot * residue T.modulus T.root = 1 ∧
      ∃ z, (T.inverse backend input output a).Writes T.degree z ∧
        (T.inverseInPlace backend input output).runOn a = (.ok (), z) ∧
        z.size = T.degree ∧
        ∀ i < T.degree, (z.getD i 0).toNat < output.toNat * T.modulus.toNat ∧
          (T.degree : ZMod T.modulus.toNat) * residue T.modulus (z.getD i 0) =
            ∑ j ∈ Finset.range T.degree, residue T.modulus (a.getD j 0) *
              T.inverseRoot ^ (i * (2 * bitReverse T.degree.log2 j + 1)) := by
  obtain ⟨K, -, hK⟩ := hT.wellFormed
  have hdegree := hK.degree_eq
  obtain ⟨z, ⟨hwrites, hinPlace⟩, hz⟩ :=
    hK.inverseGives backend hin hout (Represents.of_mem (ha.trans hdegree) hlt)
  refine ⟨hK.inverseRoot_mul, z, hwrites, hinPlace, hz.size_eq.trans hdegree.symm, ?_⟩
  intro i hi
  rw [hdegree] at hi ⊢
  refine ⟨hz.toNat_lt i hi, ?_⟩
  have hscale : ((2 ^ K : ℕ) : ZMod T.modulus.toNat) * residue T.modulus T.scale.value = 1 := by
    rw [Nat.cast_pow, Nat.cast_ofNat, mul_comm, hK.residue_scale]
  rw [hz.residue_eq i hi, ← mul_assoc, hscale, one_mul, Nat.log2_two_pow]
  apply Finset.sum_congr rfl
  intro j _
  unfold oddPower
  rw [← pow_mul, Nat.mul_comm i]

/-- The greatest operand there is, in blocks and on registers of eight words. -/
theorem inverse_interpolates_deep :
    let a : Array Word := .replicate 2048 24577
    deep.Built Prime.exactTest ∧ (2 : Word) ∈ [1, 2] ∧ (1 : Word) ∈ [1, 2] ∧
      a.size = deep.degree ∧ (∀ x ∈ a, x.toNat < (2 : Word).toNat * deep.modulus.toNat) ∧
      ∃ z, (deep.inverse .eightLane 2 1 a).Writes 2048 z ∧ z.size = 2048 ∧
        ∀ i < 2048, (z.getD i 0).toNat < 12289 := by
  intro a
  have hin : (2 : Word) ∈ [1, 2] := by decide
  have hout : (1 : Word) ∈ [1, 2] := by decide
  have hsize : a.size = deep.degree := Array.size_replicate
  have hlt : ∀ x ∈ a, x.toNat < (2 : Word).toNat * deep.modulus.toNat :=
    toNat_lt_of_mem_replicate (by decide)
  obtain ⟨-, z, hwrites, -, hzsize, hwords⟩ :=
    inverse_interpolates deep_built .eightLane hin hout hsize hlt
  exact ⟨deep_built, hin, hout, hsize, hlt, z, hwrites, hzsize, fun i hi => (hwords i hi).1⟩

end Negacyclic.Transform
