import Negacyclic.Proofs.Transform.Layer

/-!
# Butterflies without wrapping

The sums and differences of a butterfly are meant as those of integers, and the operand of its lazy
product as a number below the scale. `Butterfly.ForwardExact`, `InverseExact` and `FinalExact` say
so of each operation that a butterfly writes down. The conditional subtraction and the lazy product
are not opened here: the first does not wrap by definition, the second wraps on purpose.

* On words of its range and with a proper multiplier a butterfly is exact (`forwardExact`,
  `inverseExact`, `finalExact`).
* `Layer.EachOnWords`, `EachOnRegisters` and `EachOnChunks` say something of every butterfly of a
  layer, word by word or lane by lane, and follow the definitions of the three forms of a layer.
  What holds of all words below a bound holds of each butterfly, whatever its position: a read
  past the end gives zero and a multiplier that is zero.
* For the same reason the words that a layer leaves are below the bound that its butterfly keeps.
-/

namespace Negacyclic

/-! ### Words below a bound -/

/-- All words of an array are below a bound. -/
def Below (bound : ℕ) (a : Array Word) : Prop :=
  ∀ x ∈ a, x.toNat < bound

namespace Below

variable {bound : ℕ} {a b : Array Word}

instance (bound : ℕ) (a : Array Word) : Decidable (Below bound a) :=
  @decidable_of_iff _ (∀ i (h : i < a.size), a[i].toNat < bound)
    (Array.forall_mem_iff_forall_getElem (P := fun x : Word => x.toNat < bound)).symm
    (Nat.decidableBallLT a.size fun i _ => a[i].toNat < bound)

/-- A bound may be raised. -/
theorem mono {bound' : ℕ} (h : Below bound a) (hle : bound ≤ bound') : Below bound' a :=
  fun x hx => (h x hx).trans_le hle

/-- The words of a part keep the bound. -/
theorem extract (h : Below bound a) (start stop : ℕ) : Below bound (a.extract start stop) :=
  fun x hx => h x (mem_of_mem_extract hx)

/-- Two arrays that keep a bound keep it together. -/
theorem append (ha : Below bound a) (hb : Below bound b) : Below bound (a ++ b) := by
  intro x hx
  rcases Array.mem_append.1 hx with hx | hx
  · exact ha x hx
  · exact hb x hx

/-- An array of words below a bound keeps it. -/
theorem ofFn {n : ℕ} {g : Fin n → Word} (h : ∀ i, (g i).toNat < bound) :
    Below bound (Array.ofFn g) := by
  intro x hx
  obtain ⟨i, rfl⟩ := Array.mem_ofFn.1 hx
  exact h i

end Below

/-- Every read is below a positive bound, past the end as well. -/
theorem Below.getD {bound : ℕ} {a : Array Word} (h : Below bound a) (hpos : 0 < bound) (i : ℕ) :
    (a.getD i 0).toNat < bound :=
  getD_of_forall (P := fun x : Word => x.toNat < bound) (d := 0) h hpos i

/-! ### The operations of a butterfly -/

namespace Butterfly

/-- No operation of the forward butterfly wraps. -/
structure ForwardExact (p : Precision) (q : Word) (w : Multiplier) (x y : Word) : Prop where
  operand_lt : y.toNat < 2 ^ p.bits
  sum : Word.AddExact (Word.reduceOnce x (2 * q)) (w.mulLazy p q y)
  lift : Word.AddExact (Word.reduceOnce x (2 * q)) (2 * q)
  difference : Word.SubExact (Word.reduceOnce x (2 * q) + 2 * q) (w.mulLazy p q y)

/-- No operation of the inverse butterfly wraps. -/
structure InverseExact (p : Precision) (q : Word) (x y : Word) : Prop where
  sum : Word.AddExact x y
  lift : Word.AddExact x (2 * q)
  difference : Word.SubExact (x + 2 * q) y
  operand_lt : (x + 2 * q - y).toNat < 2 ^ p.bits

/-- No operation of the last inverse butterfly wraps. -/
structure FinalExact (p : Precision) (q : Word) (x y : Word) : Prop
    extends InverseExact p q x y where
  sum_operand_lt : (Word.reduceOnce (x + y) (2 * q)).toNat < 2 ^ p.bits

variable {p : Precision} {q : Word} {w : Multiplier} {x y : Word}

instance (p : Precision) (q : Word) (w : Multiplier) (x y : Word) :
    Decidable (ForwardExact p q w x y) :=
  decidable_of_iff (y.toNat < 2 ^ p.bits ∧
      Word.AddExact (Word.reduceOnce x (2 * q)) (w.mulLazy p q y) ∧
      Word.AddExact (Word.reduceOnce x (2 * q)) (2 * q) ∧
      Word.SubExact (Word.reduceOnce x (2 * q) + 2 * q) (w.mulLazy p q y))
    ⟨fun ⟨h₁, h₂, h₃, h₄⟩ => ⟨h₁, h₂, h₃, h₄⟩, fun ⟨h₁, h₂, h₃, h₄⟩ => ⟨h₁, h₂, h₃, h₄⟩⟩

instance (p : Precision) (q x y : Word) : Decidable (InverseExact p q x y) :=
  decidable_of_iff (Word.AddExact x y ∧ Word.AddExact x (2 * q) ∧ Word.SubExact (x + 2 * q) y ∧
      (x + 2 * q - y).toNat < 2 ^ p.bits)
    ⟨fun ⟨h₁, h₂, h₃, h₄⟩ => ⟨h₁, h₂, h₃, h₄⟩, fun ⟨h₁, h₂, h₃, h₄⟩ => ⟨h₁, h₂, h₃, h₄⟩⟩

instance (p : Precision) (q x y : Word) : Decidable (FinalExact p q x y) :=
  decidable_of_iff (InverseExact p q x y ∧ (Word.reduceOnce (x + y) (2 * q)).toNat < 2 ^ p.bits)
    ⟨fun ⟨h₁, h₂⟩ => ⟨h₁, h₂⟩, fun ⟨h₁, h₂⟩ => ⟨h₁, h₂⟩⟩

/-- A word below `2 * q` and `2 * q` have a sum below the scale. -/
theorem lift_exact (hq : Spacious p q) (hx : x.toNat < 2 * q.toNat) :
    Word.AddExact x (2 * q) ∧ (x + 2 * q).toNat = x.toNat + 2 * q.toNat := by
  have h62 := hq.lt_two_pow
  have hexact : Word.AddExact x (2 * q) := by
    apply Word.addExact_of_lt
    rw [hq.toNat_twice]
    omega
  exact ⟨hexact, hexact.trans (by rw [hq.toNat_twice])⟩

/-- On words below `4 * q` no operation of the forward butterfly wraps, and the factor of its
product keeps within the precision. -/
theorem forwardExact (hq : Spacious p q) (hw : w.Proper p q) (hx : x.toNat < 4 * q.toNat)
    (hy : y.toNat < 4 * q.toNat) : ForwardExact p q w x y := by
  have hx' := hq.toNat_reduceOnce_twice_lt hx
  have ht := (mulLazy_of_lt hq hw hy).1
  obtain ⟨hlift, hlifted⟩ := lift_exact hq hx'
  exact
    { operand_lt := hy.trans hq.four_mul_lt
      sum := toNat_add_of_lt_twice hq hx' ht
      lift := hlift
      difference := Word.subExact_of_le (by omega) }

/-- On words below `2 * q` no operation of the inverse butterfly wraps, and the factor of its
product keeps within the precision. -/
theorem inverseExact (hq : Spacious p q) (hx : x.toNat < 2 * q.toNat)
    (hy : y.toNat < 2 * q.toNat) : InverseExact p q x y := by
  have hscale := hq.four_mul_lt
  obtain ⟨hlift, hlifted⟩ := lift_exact hq hx
  refine
    { sum := toNat_add_of_lt_twice hq hx hy
      lift := hlift
      difference := Word.subExact_of_le (by omega)
      operand_lt := ?_ }
  rw [toNat_lift_sub hq hx hy]
  omega

/-- On words below `2 * q` no operation of the last inverse butterfly wraps, and the factors of both
products keep within the precision. -/
theorem finalExact (hq : Spacious p q) (hx : x.toNat < 2 * q.toNat)
    (hy : y.toNat < 2 * q.toNat) : FinalExact p q x y := by
  have hscale := hq.four_mul_lt
  have hsum : (x + y).toNat < 4 * q.toNat := by
    rw [toNat_add_of_lt_twice hq hx hy]
    omega
  have hreduced := hq.toNat_reduceOnce_twice_lt hsum
  exact { inverseExact hq hx hy with sum_operand_lt := by omega }

/-- Something holds of the butterfly in every lane. -/
def EveryLane {L : ℕ} (ok : Multiplier → Word → Word → Prop) (w : Multipliers L)
    (x y : Register L) : Prop :=
  ∀ i (h : i < L), ok (w.lane i h) x[i] y[i]

instance {L : ℕ} (ok : Multiplier → Word → Word → Prop) [∀ w x y, Decidable (ok w x y)]
    (w : Multipliers L) (x y : Register L) : Decidable (EveryLane ok w x y) :=
  Nat.decidableBallLT L fun i h => ok (w.lane i h) x[i] y[i]

end Butterfly

/-! ### The butterflies of a layer -/

namespace Layer

section each

variable (ok : Multiplier → Word → Word → Prop)

/-- Something holds of every butterfly of a layer on words. -/
def EachOnWords (t : ℕ) (roots : Array Multiplier) (a : Array Word) : Prop :=
  ∀ k < a.size / 2, ok (roots.getD (k / t) default) (a.getD (lowerOf t k) 0)
    (a.getD (lowerOf t k + t) 0)

/-- Something holds of every butterfly of a layer on registers. -/
def EachOnRegisters {L : ℕ} (R : Lanes L) (t : ℕ) (roots : Array Multiplier) (a : Array Word) :
    Prop :=
  ∀ c < a.size / 2 / L, Butterfly.EveryLane ok
    (Butterfly.splat R (roots.getD (c * L / t) default)) (Lanes.load L a (lowerOf t (c * L)))
    (Lanes.load L a (lowerOf t (c * L) + t))

/-- Something holds of every butterfly of a layer on chunks. -/
def EachOnChunks (s : Shuffle) (roots : Array Multiplier) (a : Array Word) : Prop :=
  ∀ c < a.size / 16, Butterfly.EveryLane ok (Butterfly.loadMultipliers 8 roots (8 * c))
    (Lanes.pick s.lower (Lanes.load 8 a (16 * c)) (Lanes.load 8 a (16 * c + 8)))
    (Lanes.pick s.upper (Lanes.load 8 a (16 * c)) (Lanes.load 8 a (16 * c + 8)))

variable [∀ w x y, Decidable (ok w x y)]

instance (t : ℕ) (roots : Array Multiplier) (a : Array Word) :
    Decidable (EachOnWords ok t roots a) :=
  Nat.decidableBallLT (a.size / 2) fun _ _ => _

instance {L : ℕ} (R : Lanes L) (t : ℕ) (roots : Array Multiplier) (a : Array Word) :
    Decidable (EachOnRegisters ok R t roots a) :=
  Nat.decidableBallLT (a.size / 2 / L) fun _ _ => _

instance (s : Shuffle) (roots : Array Multiplier) (a : Array Word) :
    Decidable (EachOnChunks ok s roots a) :=
  Nat.decidableBallLT (a.size / 16) fun _ _ => _

end each

/-! ### Ranges of registers -/

/-- All words of a register are below a bound. -/
def LanesBelow {L : ℕ} (bound : ℕ) (x : Register L) : Prop :=
  ∀ i (h : i < L), x[i].toNat < bound

section registers

variable {bound L : ℕ} {a : Array Word}

/-- A register of zeros keeps any positive bound. -/
theorem lanesBelow_splat {R : Lanes L} (law : R.Lawful) (hpos : 0 < bound) :
    LanesBelow bound (R.splat 0) := by
  intro i h
  rw [law.getElem_splat]
  exact hpos

/-- A register that is loaded keeps the bound of its array. -/
theorem lanesBelow_load (hpos : 0 < bound) (ha : Below bound a) (pos : ℕ) :
    LanesBelow bound (Lanes.load L a pos) := by
  intro i h
  rw [Lanes.getElem_load]
  exact ha.getD hpos _

/-- A register that is picked from two keeps their bound. -/
theorem lanesBelow_pick {u v : Register 8} (hu : LanesBelow bound u) (hv : LanesBelow bound v)
    (s : Lanes.Selection) : LanesBelow bound (Lanes.pick s u v) := by
  intro i h
  simp only [Lanes.pick, Vector.getElem_ofFn, Fin.getElem_fin, Vector.getElem_append]
  split_ifs
  · exact hu _ _
  · exact hv _ _

/-- Two registers that keep a bound keep it together. -/
theorem lanesBelow_append {m n : ℕ} {u : Register m} {v : Register n} (hu : LanesBelow bound u)
    (hv : LanesBelow bound v) : LanesBelow bound (u ++ v) := by
  intro i h
  rw [Vector.getElem_append]
  split_ifs
  · exact hu _ _
  · exact hv _ _

/-- Every read of a register is below a positive bound. -/
theorem LanesBelow.getD {x : Register L} (hx : LanesBelow bound x) (hpos : 0 < bound) (i : ℕ) :
    (x.toArray.getD i 0).toNat < bound := by
  have hwords : Below bound x.toArray := by
    intro v hv
    obtain ⟨j, hj, rfl⟩ := Array.mem_iff_getElem.1 hv
    exact hx j (by simpa using hj)
  exact hwords.getD hpos i

end registers

/-! ### Ranges of layers -/

/-- Something holds of all butterflies with a proper multiplier and words below a bound. -/
def InRange (p : Precision) (q : Word) (bound : ℕ) (ok : Multiplier → Word → Word → Prop) : Prop :=
  ∀ w x y, w.Proper p q → x.toNat < bound → y.toNat < bound → ok w x y

/-- A butterfly takes words below one bound to words below another. -/
def Keeps (p : Precision) (q : Word) (bound bound' : ℕ)
    (f : Multiplier → Word → Word → Word × Word) : Prop :=
  InRange p q bound fun w x y => (f w x y).1.toNat < bound' ∧ (f w x y).2.toNat < bound'

section ranges

variable {p : Precision} {q : Word} {bound bound' : ℕ} {roots : Array Multiplier} {a : Array Word}
  {t L : ℕ} {R : Lanes L} {s : Shuffle} {ok : Multiplier → Word → Word → Prop}
  {f : Multiplier → Word → Word → Word × Word}

/-- Every multiplier that is read is proper, past the end as well, where it is zero. -/
theorem getD_proper (hq : 0 < q.toNat) (hroots : ∀ w ∈ roots, w.Proper p q) (i : ℕ) :
    (roots.getD i default).Proper p q :=
  getD_of_forall hroots (Multiplier.proper_default p hq) i

/-- A butterfly on registers keeps in every lane the bound that it keeps on words. -/
theorem Keeps.lanes
    {F : Butterfly.Multipliers L → Register L → Register L → Register L × Register L}
    (hf : Keeps p q bound bound' f) (hF : Butterfly.Lanewise F f) {w : Butterfly.Multipliers L}
    {x y : Register L} (hw : ∀ i (h : i < L), (w.lane i h).Proper p q) (hx : LanesBelow bound x)
    (hy : LanesBelow bound y) :
    LanesBelow bound' (F w x y).1 ∧ LanesBelow bound' (F w x y).2 := by
  have hpair (i : ℕ) (h : i < L) :
      (F w x y).1[i].toNat < bound' ∧ (F w x y).2[i].toNat < bound' := by
    obtain ⟨hlow, hhigh⟩ := Prod.ext_iff.1 (hF w x y i h)
    dsimp only at hlow hhigh
    rw [hlow, hhigh]
    exact hf _ _ _ (hw i h) (hx i h) (hy i h)
  exact ⟨fun i h => (hpair i h).1, fun i h => (hpair i h).2⟩

variable (hq : 0 < q.toNat) (hpos : 0 < bound) (hroots : ∀ w ∈ roots, w.Proper p q)
  (ha : Below bound a)

include hq hpos hroots ha

/-- What holds of all butterflies in range holds of those of a layer on words. -/
theorem eachOnWords (hok : InRange p q bound ok) : EachOnWords ok t roots a := by
  intro k _
  exact hok _ _ _ (getD_proper hq hroots _) (ha.getD hpos _) (ha.getD hpos _)

/-- What holds of all butterflies in range holds of those of a layer on registers, lane by lane. -/
theorem eachOnRegisters (law : R.Lawful) (hok : InRange p q bound ok) :
    EachOnRegisters ok R t roots a := by
  intro c _ i hi
  rw [Butterfly.lane_splat law]
  exact hok _ _ _ (getD_proper hq hroots _) (lanesBelow_load hpos ha _ i hi)
    (lanesBelow_load hpos ha _ i hi)

/-- What holds of all butterflies in range holds of those of a layer on chunks, lane by lane. -/
theorem eachOnChunks (hok : InRange p q bound ok) : EachOnChunks ok s roots a := by
  intro c _ i hi
  have hload (pos : ℕ) : LanesBelow bound (Lanes.load 8 a pos) := lanesBelow_load hpos ha pos
  rw [Butterfly.lane_loadMultipliers]
  exact hok _ _ _ (getD_proper hq hroots _) (lanesBelow_pick (hload _) (hload _) _ i hi)
    (lanesBelow_pick (hload _) (hload _) _ i hi)

variable (hpos' : 0 < bound')

include hpos'

/-- A layer on words keeps the range that its butterflies keep. -/
theorem below_onWords (hf : Keeps p q bound bound' f) : Below bound' (onWords f t roots a) := by
  refine Below.ofFn fun i => ?_
  have hpair (k : ℕ) := hf _ _ _ (getD_proper hq hroots (k / t))
    (ha.getD hpos (lowerOf t k)) (ha.getD hpos (lowerOf t k + t))
  dsimp only
  split_ifs
  · exact getD_ofFn_of_forall (P := fun v : Word × Word => v.1.toNat < bound') (d := (0, 0))
      (fun k => (hpair k).1) hpos' _
  · exact getD_ofFn_of_forall (P := fun v : Word × Word => v.2.toNat < bound') (d := (0, 0))
      (fun k => (hpair k).2) hpos' _

/-- A layer on registers keeps the range that its butterflies keep. -/
theorem below_onRegisters
    {F : Butterfly.Multipliers L → Register L → Register L → Register L × Register L}
    (law : R.Lawful) (hF : Butterfly.Lanewise F f) (hf : Keeps p q bound bound' f) :
    Below bound' (onRegisters R F t roots a) := by
  refine Below.ofFn fun i => ?_
  have hzero := lanesBelow_splat law hpos'
  have hpair (c : ℕ) := hf.lanes hF
    (w := Butterfly.splat R (roots.getD (c * L / t) default))
    (fun i h => by rw [Butterfly.lane_splat law]; exact getD_proper hq hroots _)
    (lanesBelow_load hpos ha (lowerOf t (c * L))) (lanesBelow_load hpos ha (lowerOf t (c * L) + t))
  dsimp only
  refine LanesBelow.getD ?_ hpos' _
  split_ifs
  · exact getD_ofFn_of_forall (P := fun v : Register L × Register L => LanesBelow bound' v.1)
      (fun c => (hpair c).1) hzero _
  · exact getD_ofFn_of_forall (P := fun v : Register L × Register L => LanesBelow bound' v.2)
      (fun c => (hpair c).2) hzero _

/-- A layer on chunks keeps the range that its butterflies keep. -/
theorem below_onChunks
    {F : Butterfly.Multipliers 8 → Register 8 → Register 8 → Register 8 × Register 8}
    (hF : Butterfly.Lanewise F f) (hf : Keeps p q bound bound' f) :
    Below bound' (onChunks s F roots a) := by
  refine Below.ofFn fun i => ?_
  have hload (pos : ℕ) : LanesBelow bound (Lanes.load 8 a pos) := lanesBelow_load hpos ha pos
  have hpair (c : ℕ) := hf.lanes hF
    (w := Butterfly.loadMultipliers 8 roots (8 * c))
    (fun i h => by rw [Butterfly.lane_loadMultipliers]; exact getD_proper hq hroots _)
    (lanesBelow_pick (hload (16 * c)) (hload (16 * c + 8)) s.lower)
    (lanesBelow_pick (hload (16 * c)) (hload (16 * c + 8)) s.upper)
  have hzero : LanesBelow bound' (Vector.replicate 16 0) :=
    lanesBelow_splat (Lanes.portable_lawful 16) hpos'
  refine LanesBelow.getD ?_ hpos' _
  exact getD_ofFn_of_forall (P := fun v : Register 16 => LanesBelow bound' v)
    (fun c => lanesBelow_append (lanesBelow_pick (hpair c).1 (hpair c).2 s.first)
      (lanesBelow_pick (hpair c).1 (hpair c).2 s.second)) hzero _

end ranges

/-- A function on registers that takes words below one bound to words below another. -/
theorem below_mapRegisters {L bound bound' : ℕ} {R : Lanes L} {G : Register L → Register L}
    {a : Array Word} (law : R.Lawful) (hpos : 0 < bound) (hpos' : 0 < bound')
    (hG : ∀ x, LanesBelow bound x → LanesBelow bound' (G x)) (ha : Below bound a) :
    Below bound' (mapRegisters R G a) := by
  refine Below.ofFn fun i => ?_
  have hzero := lanesBelow_splat law hpos'
  refine LanesBelow.getD ?_ hpos' _
  exact getD_ofFn_of_forall (P := fun v : Register L => LanesBelow bound' v)
    (fun c => hG _ (lanesBelow_load hpos ha _)) hzero _

end Layer

end Negacyclic
