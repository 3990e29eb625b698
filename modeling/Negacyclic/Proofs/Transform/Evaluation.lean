import Negacyclic.Proofs.Transform.Construction
import Negacyclic.Proofs.Transform.EightLane
import Negacyclic.Proofs.Transform.OddPower
import Negacyclic.Proofs.Transform.Run

/-!
# The forward network evaluates

A block of the forward network takes the coefficients of a polynomial to its values at the points
of the block: position `j` of the whole transform gets the value at the power
`2 * bitReverse K j + 1` of the root (`forwardLayers_represents`).

The induction is on the levels of blocks. The first layer of a block with root `r` takes the
coefficients to those of the remainders modulo `X^(2^k) - r` and `X^(2^k) + r`, one in each half,
and the points of the two halves are roots of the one and of the other. The words stay below
`4 * q` all the way, and the last pass reduces them if residues are asked for.
-/

namespace Negacyclic.Transform

variable {isPrime : Word → Bool} {T : Transform} {B : Block} {k K : ℕ} {a : Array Word}

/-! ### The first layer of a block -/

/-- The root that the first layer of a block reads. -/
theorem WellFormed.forward_root (hT : T.WellFormed K) (hB : B.Within (k + 1) K) :
    B.forwardStart 1 < 2 ^ K ∧
      (T.roots.getD (B.forwardStart 1) default).Proper T.precision T.modulus ∧
      residue T.modulus (T.roots.getD (B.forwardStart 1) default).value =
        B.root (residue T.modulus T.root) K := by
  have hlt : B.forwardStart 1 < 2 ^ K := by
    have hle := two_mul_two_pow_le hB.depth_lt
    have := (hB.forwardStart_le 1).2
    omega
  refine ⟨hlt, hT.proper_roots _ hlt, ?_⟩
  rw [hT.residue_roots _ hlt, Block.forwardStart_eq, Nat.mul_one]
  rfl

/-- The first layer of a block takes remainders in both halves. -/
theorem forwardLayer_represents (hT : T.WellFormed K) (hB : B.Within (k + 1) K)
    {f : ℕ → ZMod T.modulus.toNat}
    (ha : Represents T.modulus (4 * T.modulus.toNat) (2 ^ k + 2 ^ k) a f) :
    ∃ b, forwardLayer .portable T B 1 a = some b ∧
      Represents T.modulus (4 * T.modulus.toNat) (2 ^ k + 2 ^ k) b fun i =>
        if i < 2 ^ k then f i + B.root (residue T.modulus T.root) K * f (2 ^ k + i)
        else f (i - 2 ^ k) - B.root (residue T.modulus T.root) K * f i := by
  obtain ⟨hlt, hproper, hroot⟩ := hT.forward_root hB
  have hsize : a.size = 2 * 2 ^ k * 1 := by
    rw [ha.size_eq]
    omega
  have htable : B.forwardStart 1 + 1 ≤ T.roots.size := by
    rw [hT.size_roots]
    omega
  have hread : (T.roots.extract (B.forwardStart 1) (B.forwardStart 1 + 1)).getD 0 default =
      T.roots.getD (B.forwardStart 1) default := by
    rw [getD_extract _ _ (by omega) htable, Nat.add_zero]
  refine ⟨_, onGroups_of_le (Nat.two_pow_pos k) Nat.one_pos hsize htable, ?_⟩
  refine Represents.onWords (fun x y => x + B.root (residue T.modulus T.root) K * y)
    (fun x y => x - B.root (residue T.modulus T.root) K * y) ha (Nat.two_pow_pos k) ?_ ?_
  · intro x y hx hy
    rw [hread]
    exact Butterfly.toNat_forward_lt hT.spacious hproper hx hy
  · intro x y hx hy
    rw [hread, ← hroot]
    exact Butterfly.residue_forward hT.spacious hproper hx hy

/-! ### All layers of a block -/

/-- A block of the forward network leaves the values at its points. -/
theorem forwardLayers_represents (hT : T.WellFormed K) (full : Bool) (hB : B.Within k K)
    {f : ℕ → ZMod T.modulus.toNat}
    (ha : Represents T.modulus (4 * T.modulus.toNat) (2 ^ k) a f) :
    ∃ y, forwardLayers .portable T full B k a = some y ∧
      Represents T.modulus ((if full then 1 else 4) * T.modulus.toNat) (2 ^ k) y fun j =>
        ∑ i ∈ Finset.range (2 ^ k),
          f i * oddPower (residue T.modulus T.root) K (B.index * 2 ^ k + j) ^ i := by
  induction k generalizing B a f with
  | zero =>
      have hpos : 0 < T.modulus.toNat := Nat.lt_of_succ_lt hT.one_lt
      have hsum : ∀ j < 2 ^ 0, f j = ∑ i ∈ Finset.range (2 ^ 0),
          f i * oddPower (residue T.modulus T.root) K (B.index * 2 ^ 0 + j) ^ i := by
        intro j hj
        obtain rfl : j = 0 := by omega
        simp
      cases full with
      | true => exact ⟨_, rfl, (Represents.settle hT.spacious hpos ha).congr hsum⟩
      | false => exact ⟨_, rfl, ha.congr hsum⟩
  | succ k ih =>
      have hhalves := Nat.two_pow_succ k
      have hsize := ha.size_eq
      rw [hhalves] at ha
      obtain ⟨b, hlayer, hb⟩ := forwardLayer_represents hT hB ha
      obtain ⟨low, hlow, hlowValues⟩ := ih hB.lower hb.extract_low
      obtain ⟨high, hhigh, hhighValues⟩ := ih hB.upper hb.extract_high
      refine ⟨low ++ high, ?_, ?_⟩
      · rw [forwardLayers_succ full hsize, hlayer]
        simp only [Option.bind_eq_bind, Option.bind_some, hlow, hhigh, Option.pure_def]
      · rw [hhalves]
        refine Represents.append (hlowValues.congr ?_) (hhighValues.congr ?_)
        · intro j hj
          rw [← B.index_lower, sum_mul_pow_halves f (oddPower_pow_lower hT.root_pow hB hj)]
          apply Finset.sum_congr rfl
          intro i hi
          rw [if_pos (Finset.mem_range.1 hi)]
        · intro j hj
          rw [← B.index_upper, sum_mul_pow_halves f (oddPower_pow_upper hT.root_pow hB hj)]
          apply Finset.sum_congr rfl
          intro i _
          rw [if_neg (by omega), Nat.add_sub_cancel_left, neg_mul, sub_eq_add_neg]

/-! ### Runs -/

/-- A forward transform leaves the values of its operand at the odd powers of the root. -/
theorem WellFormed.forwardGives (hT : T.WellFormed K) (backend : Backend) {input output : Word}
    (hin : input ∈ [1, 2, 4]) (hout : output ∈ [1, 4]) {f : ℕ → ZMod T.modulus.toNat}
    (ha : Represents T.modulus (input.toNat * T.modulus.toNat) (2 ^ K) a f) :
    ∃ y, T.ForwardGives backend input output a y ∧
      Represents T.modulus (output.toNat * T.modulus.toNat) (2 ^ K) y fun j =>
        ∑ i ∈ Finset.range (2 ^ K), f i * oddPower (residue T.modulus T.root) K j ^ i := by
  have hrs := forwardRequirements_hold hin hout (ha.size_eq.trans hT.degree_eq.symm)
    ha.toNat_lt_of_mem
  have ha4 := ha.mono (Nat.mul_le_mul_right T.modulus.toNat (toNat_le_of_mem_forward hin))
  obtain ⟨y, hrun, hy⟩ :=
    forwardLayers_represents hT (output == 1) (Block.whole_within K) ha4
  rw [toNat_of_mem_forward hout] at hy
  have hwords := (forwardWords_eq hT.toComplete backend (output == 1) ha.size_eq).trans hrun
  have hgives := forwardGives_of backend hrs hwords hy.toNat_lt_of_mem
  refine ⟨y, hgives, hy.congr fun j _ => ?_⟩
  rw [Block.whole, Nat.zero_mul, Nat.zero_add]

/-- The forward transform of every transform that is built: whatever the machine and the factors,
it succeeds, and slot `j` holds the value of the operand at the power
`2 * bitReverse (log2 n) j + 1` of the root, below the declared bound. -/
theorem forward_evaluates (hT : T.Built isPrime) (backend : Backend) {input output : Word}
    (hin : input ∈ [1, 2, 4]) (hout : output ∈ [1, 4]) (ha : a.size = T.degree)
    (hlt : ∀ x ∈ a, x.toNat < input.toNat * T.modulus.toNat) :
    ∃ y, (T.forward backend input output a).Writes T.degree y ∧
      (T.forwardInPlace backend input output).runOn a = (.ok (), y) ∧
      y.size = T.degree ∧
      ∀ j < T.degree, (y.getD j 0).toNat < output.toNat * T.modulus.toNat ∧
        residue T.modulus (y.getD j 0) = ∑ i ∈ Finset.range T.degree,
          residue T.modulus (a.getD i 0) *
            residue T.modulus T.root ^ (i * (2 * bitReverse T.degree.log2 j + 1)) := by
  obtain ⟨K, -, hK⟩ := hT.wellFormed
  have hdegree := hK.degree_eq
  obtain ⟨y, ⟨hwrites, hinPlace⟩, hy⟩ :=
    hK.forwardGives backend hin hout (Represents.of_mem (ha.trans hdegree) hlt)
  refine ⟨y, hwrites, hinPlace, hy.size_eq.trans hdegree.symm, ?_⟩
  intro j hj
  rw [hdegree] at hj ⊢
  refine ⟨hy.toNat_lt j hj, ?_⟩
  rw [hy.residue_eq j hj, Nat.log2_two_pow]
  apply Finset.sum_congr rfl
  intro i _
  unfold oddPower
  rw [← pow_mul, Nat.mul_comm i]

/-- The greatest operand there is, in blocks and on registers of eight words. -/
theorem forward_evaluates_deep :
    let a : Array Word := .replicate 2048 49155
    deep.Built Prime.exactTest ∧ (4 : Word) ∈ [1, 2, 4] ∧ (1 : Word) ∈ [1, 4] ∧
      a.size = deep.degree ∧ (∀ x ∈ a, x.toNat < (4 : Word).toNat * deep.modulus.toNat) ∧
      ∃ y, (deep.forward .eightLane 4 1 a).Writes 2048 y ∧ y.size = 2048 ∧
        ∀ j < 2048, (y.getD j 0).toNat < 12289 := by
  intro a
  have hin : (4 : Word) ∈ [1, 2, 4] := by decide
  have hout : (1 : Word) ∈ [1, 4] := by decide
  have hsize : a.size = deep.degree := Array.size_replicate
  have hlt : ∀ x ∈ a, x.toNat < (4 : Word).toNat * deep.modulus.toNat :=
    toNat_lt_of_mem_replicate (by decide)
  obtain ⟨y, hwrites, -, hysize, hslots⟩ :=
    forward_evaluates deep_built .eightLane hin hout hsize hlt
  exact ⟨deep_built, hin, hout, hsize, hlt, y, hwrites, hysize, fun j hj => (hslots j hj).1⟩

end Negacyclic.Transform
