import Negacyclic.Proofs.Transform.Evaluation
import Negacyclic.Proofs.Transform.Exact
import Negacyclic.Proofs.Transform.Interpolation

/-!
# Watched runs

A watched engine runs the layers of an engine and looks at each of them: the words before it are
below `4 * q` (of an inverse layer `2 * q`), no operation of any of its butterflies wraps, and the
words after it are in range again. Where one of these fails the layer has no result. The network
is the same for both, so a watched run visits every layer of every block that the run visits.

On a transform that is built and an operand that its checks let pass, the watched run gets
through with the words of the run itself (`runs_in_range`). Nothing of the network has to be known
for that but its shape: `Passes` says of a step that watching it changes nothing on words in range
and leaves words in range, and it is kept by composition, by loops and by the recursion on blocks.
That the run has words at all is known from its meaning.
-/

namespace Negacyclic

variable {bound bound' : ℕ}

/-! ### Watched layers -/

/-- A layer that has a result only if the words before it are below `bound`, `exact` holds of them
and the words after it are below `bound'`. -/
def watch (bound bound' : ℕ) (exact : Array Word → Prop) [DecidablePred exact]
    (layer : Array Word → Option (Array Word)) (a : Array Word) : Option (Array Word) := do
  let b ← layer a
  if Below bound a ∧ exact a ∧ Below bound' b then some b else none

namespace Engine

/-- The portable engine with all its layers watched. -/
def portableWatched : Engine :=
  { portable with
    forward := fun T B t roots =>
      watch (4 * T.modulus.toNat) (4 * T.modulus.toNat)
        (Layer.EachOnWords (Butterfly.ForwardExact T.precision T.modulus) t roots)
        (portable.forward T B t roots)
    inverse := fun T B t roots =>
      watch (2 * T.modulus.toNat) (2 * T.modulus.toNat)
        (Layer.EachOnWords (fun _ => Butterfly.InverseExact T.precision T.modulus) t roots)
        (portable.inverse T B t roots)
    final := fun T full =>
      watch (2 * T.modulus.toNat) ((if full then 1 else 2) * T.modulus.toNat)
        (Layer.EachOnWords (fun _ => Butterfly.FinalExact T.precision T.modulus)
          (T.degree / 2) #[])
        (portable.final T full) }

/-- The multipliers that a narrow forward layer reads. -/
def forwardCopies? (T : Transform) (B : Block) (m : ℕ) (a : Array Word) :
    Option (Array Multiplier) :=
  let n := a.size * 2 ^ B.depth
  slice? T.replicated.roots (Replicated.forwardIndex n (B.forwardStart m)) (a.size / 2)

/-- The multipliers that a narrow inverse layer reads. -/
def inverseCopies? (T : Transform) (B : Block) (m : ℕ) (a : Array Word) :
    Option (Array Multiplier) := do
  let n := a.size * 2 ^ B.depth
  slice? T.replicated.inverseRoots (Replicated.inverseIndex n (← B.inverseStart? n m)) (a.size / 2)

/-- A narrow forward layer, watched. -/
def forwardChunksWatched (T : Transform) (B : Block) (s : Layer.Shuffle) (m : ℕ) :
    Array Word → Option (Array Word) :=
  watch (4 * T.modulus.toNat) (4 * T.modulus.toNat)
    (fun a => ∀ roots ∈ forwardCopies? T B m a,
      Layer.EachOnChunks (Butterfly.ForwardExact T.precision T.modulus) s roots a)
    (forwardChunks T B s m)

/-- A narrow inverse layer, watched. -/
def inverseChunksWatched (T : Transform) (B : Block) (s : Layer.Shuffle) (m : ℕ) :
    Array Word → Option (Array Word) :=
  watch (2 * T.modulus.toNat) (2 * T.modulus.toNat)
    (fun a => ∀ roots ∈ inverseCopies? T B m a,
      Layer.EachOnChunks (fun _ => Butterfly.InverseExact T.precision T.modulus) s roots a)
    (inverseChunks T B s m)

/-- The engine on registers of eight words with all its layers watched. -/
def eightLaneWatched : Engine :=
  { eightLane with
    forward := fun T B t roots =>
      watch (4 * T.modulus.toNat) (4 * T.modulus.toNat)
        (Layer.EachOnRegisters (Butterfly.ForwardExact T.precision T.modulus) Lanes.eight t roots)
        (eightLane.forward T B t roots)
    forwardNarrow := fun T B a => do
      let a ← forwardChunksWatched T B Layer.stride4 (a.size / 8) a
      let a ← forwardChunksWatched T B Layer.stride2 (a.size / 4) a
      forwardChunksWatched T B Layer.stride1 (a.size / 2) a
    inverseNarrow := fun T B a => do
      let a ← inverseChunksWatched T B Layer.stride1 (a.size / 2) a
      let a ← inverseChunksWatched T B Layer.stride2 (a.size / 4) a
      inverseChunksWatched T B Layer.stride4 (a.size / 8) a
    inverse := fun T B t roots =>
      watch (2 * T.modulus.toNat) (2 * T.modulus.toNat)
        (Layer.EachOnRegisters (fun _ => Butterfly.InverseExact T.precision T.modulus)
          Lanes.eight t roots)
        (eightLane.inverse T B t roots)
    final := fun T full =>
      watch (2 * T.modulus.toNat) ((if full then 1 else 2) * T.modulus.toNat)
        (Layer.EachOnRegisters (fun _ => Butterfly.FinalExact T.precision T.modulus)
          Lanes.eight (T.degree / 2) #[])
        (eightLane.final T full) }

end Engine

namespace Transform

/-- The watched form of the engine that runs a transform on a machine. -/
def watchedEngine (T : Transform) : Backend → Engine
  | .portable => .portableWatched
  | .eightLane =>
      if Replicated.minDegree ≤ T.degree then .eightLaneWatched else .portableWatched

/-- The forward transform of `a` with all its layers watched. -/
def forwardWatched (T : Transform) (backend : Backend) (full : Bool) (a : Array Word) :
    Option (Array Word) :=
  forwardBlock (T.watchedEngine backend) blockLimit T full .whole T.degree.log2 a

/-- The inverse transform of `a` with all its layers watched. -/
def inverseWatched (T : Transform) (backend : Backend) (full : Bool) (a : Array Word) :
    Option (Array Word) :=
  inverseBlock (T.watchedEngine backend) blockLimit T full .whole T.degree.log2 a

end Transform

/-! ### Steps that pass -/

/-- On words below `bound`, what the step `f` leaves is below `bound'`, and the step `g` leaves the
same. -/
def Passes (bound bound' : ℕ) (f g : Array Word → Option (Array Word)) : Prop :=
  ∀ a b, Below bound a → f a = some b → g a = some b ∧ Below bound' b

namespace Passes

variable {bound'' : ℕ} {f f' g g' : Array Word → Option (Array Word)}

/-- A layer that is exact on words in range and leaves words in range may be watched. -/
theorem watch {exact : Array Word → Prop} [DecidablePred exact]
    (hexact : ∀ a, Below bound a → exact a)
    (hlayer : ∀ a b, Below bound a → f a = some b → Below bound' b) :
    Passes bound bound' f (watch bound bound' exact f) := by
  intro a b ha hb
  have hafter := hlayer a b ha hb
  refine ⟨?_, hafter⟩
  unfold Negacyclic.watch
  rw [hb, Option.bind_eq_bind, Option.bind_some, if_pos ⟨ha, hexact a ha, hafter⟩]

/-- Leaving the words as they are. -/
theorem refl : Passes bound bound some some := by
  intro a b ha hb
  cases hb
  exact ⟨rfl, ha⟩

/-- One step after the other. -/
theorem bind (h : Passes bound bound' f g) (h' : Passes bound' bound'' f' g') :
    Passes bound bound'' (fun a => (f a).bind f') (fun a => (g a).bind g') := by
  intro a c ha hc
  obtain ⟨b, hb, hc⟩ := Option.bind_eq_some_iff.1 hc
  obtain ⟨hgb, hbelow⟩ := h a b ha hb
  obtain ⟨hgc, hcbelow⟩ := h' b c hbelow hc
  refine ⟨?_, hcbelow⟩
  dsimp only
  rw [hgb, Option.bind_some, hgc]

/-- A step that reads something first, and fails where there is nothing to read. -/
theorem of_option {α : Type} {o : Option α} {f g : α → Array Word → Option (Array Word)}
    (h : ∀ v, o = some v → Passes bound bound' (f v) (g v)) :
    Passes bound bound' (fun a => o.bind fun v => f v a) (fun a => o.bind fun v => g v a) := by
  intro a b ha hb
  obtain ⟨v, rfl, hb⟩ := Option.bind_eq_some_iff.1 hb
  exact h v rfl a b ha hb

/-- A step that is chosen by the words themselves. -/
theorem of_forall {ι : Type} {f g : ι → Array Word → Option (Array Word)}
    (h : ∀ i, Passes bound bound' (f i) (g i)) (choose : Array Word → ι) :
    Passes bound bound' (fun a => f (choose a) a) (fun a => g (choose a) a) :=
  fun a b => h (choose a) a b

/-- A loop of steps that keep their bound. -/
theorem foldlM {f g : Array Word → ℕ → Option (Array Word)}
    (h : ∀ j, Passes bound bound (fun a => f a j) (fun a => g a j)) (js : List ℕ) :
    Passes bound bound (fun a => js.foldlM f a) (fun a => js.foldlM g a) := by
  induction js with
  | nil => exact refl
  | cons j js ih =>
      simp only [List.foldlM_cons]
      exact (h j).bind ih

/-- Steps on the two halves of the words. -/
theorem halves (h : Passes bound bound' f g) (h' : Passes bound bound' f' g') (m : ℕ) :
    Passes bound bound'
      (fun a => (f (a.extract 0 m)).bind fun low =>
        (f' (a.extract m a.size)).bind fun high => some (low ++ high))
      (fun a => (g (a.extract 0 m)).bind fun low =>
        (g' (a.extract m a.size)).bind fun high => some (low ++ high)) := by
  intro a b ha hb
  obtain ⟨low, hlow, hb⟩ := Option.bind_eq_some_iff.1 hb
  obtain ⟨high, hhigh, hb⟩ := Option.bind_eq_some_iff.1 hb
  obtain ⟨hglow, hlowBelow⟩ := h _ low (ha.extract 0 m) hlow
  obtain ⟨hghigh, hhighBelow⟩ := h' _ high (ha.extract m a.size) hhigh
  cases hb
  refine ⟨?_, hlowBelow.append hhighBelow⟩
  dsimp only
  rw [hglow, Option.bind_some, hghigh, Option.bind_some]

section layers

variable {p : Precision} {q : Word} {t : ℕ} {roots : Array Multiplier}
  {ok : Multiplier → Word → Word → Prop} [∀ w x y, Decidable (ok w x y)]
  {f : Multiplier → Word → Word → Word × Word} {guard : Array Word → Prop} [DecidablePred guard]
  (hq : 0 < q.toNat) (hpos : 0 < bound) (hpos' : 0 < bound') (hroots : ∀ w ∈ roots, w.Proper p q)
  (hok : Layer.InRange p q bound ok) (hf : Layer.Keeps p q bound bound' f)

include hq hpos hpos' hroots hok hf

/-- A layer on words of which every butterfly is exact and keeps the bound, behind a guard. -/
theorem onWords :
    Passes bound bound' (fun a => if guard a then some (Layer.onWords f t roots a) else none)
      (Negacyclic.watch bound bound' (Layer.EachOnWords ok t roots) fun a =>
        if guard a then some (Layer.onWords f t roots a) else none) := by
  refine Passes.watch (fun a ha => Layer.eachOnWords hq hpos hroots ha hok) fun a b ha hb => ?_
  obtain ⟨-, hb⟩ := Option.ite_none_right_eq_some.1 hb
  cases hb
  exact Layer.below_onWords hq hpos hroots ha hpos' hf

/-- The same on registers. -/
theorem onRegisters {L : ℕ} {R : Lanes L}
    {F : Butterfly.Multipliers L → Register L → Register L → Register L × Register L}
    (law : R.Lawful) (hF : Butterfly.Lanewise F f) :
    Passes bound bound' (fun a => if guard a then some (Layer.onRegisters R F t roots a) else none)
      (Negacyclic.watch bound bound' (Layer.EachOnRegisters ok R t roots) fun a =>
        if guard a then some (Layer.onRegisters R F t roots a) else none) := by
  refine Passes.watch (fun a ha => Layer.eachOnRegisters hq hpos hroots ha law hok)
    fun a b ha hb => ?_
  obtain ⟨-, hb⟩ := Option.ite_none_right_eq_some.1 hb
  cases hb
  exact Layer.below_onRegisters hq hpos hroots ha hpos' law hF hf

end layers

end Passes

/-- The entries of a slice of a table are entries of the table. -/
theorem mem_of_mem_slice? {table roots : Array Multiplier} {start count : ℕ}
    (h : slice? table start count = some roots) {w : Multiplier} (hw : w ∈ roots) : w ∈ table := by
  unfold slice? at h
  split_ifs at h
  cases h
  exact mem_of_mem_extract hw

/-! ### Engines that pass -/

/-- The bound on the words that a block of the inverse transform leaves. -/
def Transform.inverseBound (T : Transform) (full : Bool) (B : Block) : ℕ :=
  if B.depth = 0 then (if full then 1 else 2) * T.modulus.toNat else 2 * T.modulus.toNat

/-- Every layer of the engine `E` passes in the engine `W`. -/
structure Engine.Watches (W E : Engine) (T : Transform) : Prop where
  widthLog_eq : W.widthLog = E.widthLog
  settle_eq : W.settle T = E.settle T
  forward (B : Block) (t : ℕ) {roots : Array Multiplier}
    (hroots : ∀ w ∈ roots, w.Proper T.precision T.modulus) :
    Passes (4 * T.modulus.toNat) (4 * T.modulus.toNat) (E.forward T B t roots)
      (W.forward T B t roots)
  forwardNarrow (B : Block) :
    Passes (4 * T.modulus.toNat) (4 * T.modulus.toNat) (E.forwardNarrow T B) (W.forwardNarrow T B)
  below_settle {a : Array Word} (ha : Below (4 * T.modulus.toNat) a) :
    Below T.modulus.toNat (E.settle T a)
  inverseNarrow (B : Block) :
    Passes (2 * T.modulus.toNat) (2 * T.modulus.toNat) (E.inverseNarrow T B) (W.inverseNarrow T B)
  inverse (B : Block) (t : ℕ) {roots : Array Multiplier}
    (hroots : ∀ w ∈ roots, w.Proper T.precision T.modulus) :
    Passes (2 * T.modulus.toNat) (2 * T.modulus.toNat) (E.inverse T B t roots)
      (W.inverse T B t roots)
  final (full : Bool) :
    Passes (2 * T.modulus.toNat) ((if full then 1 else 2) * T.modulus.toNat) (E.final T full)
      (W.final T full)

namespace Transform

variable {T : Transform} {E W : Engine} {K : ℕ}

/-! ### The network -/

section network

variable (hT : T.Proper) (hW : W.Watches E T)

include hT hW

/-- A watched forward layer passes, whatever its block and its groups: the roots are looked up in
the same way. -/
theorem passes_forwardLayer (B : Block) (m : ℕ) :
    Passes (4 * T.modulus.toNat) (4 * T.modulus.toNat) (forwardLayer E T B m)
      (forwardLayer W T B m) := by
  refine Passes.of_option fun roots hslice => ?_
  exact Passes.of_forall
    (fun t => hW.forward B t fun w hw => hT.roots w (mem_of_mem_slice? hslice hw))
    fun a => a.size / (2 * m)

/-- A watched inverse layer passes, whatever its block and its groups. -/
theorem passes_inverseLayer (B : Block) (m : ℕ) :
    Passes (2 * T.modulus.toNat) (2 * T.modulus.toNat) (inverseLayer E T B m)
      (inverseLayer W T B m) := by
  refine Passes.of_option fun start _ => Passes.of_option fun roots hslice => ?_
  exact Passes.of_forall
    (fun t => hW.inverse B t fun w hw => hT.inverseRoots w (mem_of_mem_slice? hslice hw))
    fun a => a.size / (2 * m)

/-- All forward layers of a block pass. The range at the end is that of residues if they are
settled. -/
theorem passes_forwardLayers (full : Bool) (B : Block) (k : ℕ) :
    Passes (4 * T.modulus.toNat) ((if full then 1 else 4) * T.modulus.toNat)
      (forwardLayers E T full B k) (forwardLayers W T full B k) := by
  have hloop := Passes.foldlM (fun j => passes_forwardLayer hT hW B (2 ^ j))
    (List.range (k - E.widthLog))
  have hsettle : Passes (4 * T.modulus.toNat) ((if full then 1 else 4) * T.modulus.toNat)
      (fun a => some (if full then E.settle T a else a))
      (fun a => some (if full then W.settle T a else a)) := by
    intro a b ha hb
    cases hb
    rw [hW.settle_eq]
    cases full with
    | true => exact ⟨rfl, by simpa using hW.below_settle ha⟩
    | false => exact ⟨rfl, ha⟩
  unfold forwardLayers
  rw [hW.widthLog_eq]
  exact hloop.bind ((hW.forwardNarrow B).bind hsettle)

omit hT in
/-- The last layer of a block of the inverse transform. -/
theorem passes_last (full : Bool) (B : Block) {f g : Array Word → Option (Array Word)}
    (h : Passes (2 * T.modulus.toNat) (2 * T.modulus.toNat) f g) :
    Passes (2 * T.modulus.toNat) (T.inverseBound full B)
      (fun a => if B.depth = 0 then E.final T full a else f a)
      (fun a => if B.depth = 0 then W.final T full a else g a) := by
  unfold inverseBound
  by_cases hB : B.depth = 0
  · simp only [if_pos hB]
    exact hW.final full
  · simp only [if_neg hB]
    exact h

/-- All inverse layers of a block pass. The range at the end is less only for the whole, where the
last layer reduces. -/
theorem passes_inverseLayers (full : Bool) (B : Block) (k : ℕ) :
    Passes (2 * T.modulus.toNat) (T.inverseBound full B) (inverseLayers E T full B k)
      (inverseLayers W T full B k) := by
  unfold inverseLayers
  rw [hW.widthLog_eq]
  exact (hW.inverseNarrow B).bind
    ((Passes.foldlM (fun j => passes_inverseLayer hT hW B (2 ^ j)) _).bind
      (passes_last hW full B Passes.refl))

/-- The induction is on the levels of blocks: layer 0 passes, and so do both halves. -/
theorem passes_forwardBlock (limit : ℕ) (full : Bool) (B : Block) (k : ℕ) :
    Passes (4 * T.modulus.toNat) ((if full then 1 else 4) * T.modulus.toNat)
      (forwardBlock E limit T full B k) (forwardBlock W limit T full B k) := by
  induction k generalizing B with
  | zero => exact passes_forwardLayers hT hW full B 0
  | succ k ih =>
      by_cases hsmall : 2 ^ (k + 1) ≤ limit
      · simp only [forwardBlock, if_pos hsmall]
        exact passes_forwardLayers hT hW full B (k + 1)
      · simp only [forwardBlock, if_neg hsmall]
        exact (passes_forwardLayer hT hW B 1).bind (Passes.halves (ih B.lower) (ih B.upper) _)

/-- The halves of a block are not the whole transform, so they leave words below `2 * q`. -/
theorem passes_inverseBlock (limit : ℕ) (full : Bool) (B : Block) (k : ℕ) :
    Passes (2 * T.modulus.toNat) (T.inverseBound full B) (inverseBlock E limit T full B k)
      (inverseBlock W limit T full B k) := by
  induction k generalizing B with
  | zero => exact passes_inverseLayers hT hW full B 0
  | succ k ih =>
      have hlow := ih B.lower
      have hhigh := ih B.upper
      rw [inverseBound, if_neg B.depth_lower_ne] at hlow
      rw [inverseBound, if_neg B.depth_upper_ne] at hhigh
      by_cases hsmall : 2 ^ (k + 1) ≤ limit
      · simp only [inverseBlock, if_pos hsmall]
        exact passes_inverseLayers hT hW full B (k + 1)
      · simp only [inverseBlock, if_neg hsmall]
        have hhalves := (Passes.halves hlow hhigh (2 ^ k)).bind
          (passes_last hW full B (passes_inverseLayer hT hW B 1))
        simpa only [Option.bind_eq_bind, Option.bind_assoc, Option.bind_some] using hhalves

end network

/-! ### The two engines -/

section engines

variable (hT : T.Proper)

include hT

/-- The forward butterflies of a transform with proper multipliers are exact in range. -/
theorem Proper.forward_exact :
    Layer.InRange T.precision T.modulus (4 * T.modulus.toNat)
      (Butterfly.ForwardExact T.precision T.modulus) :=
  fun _ _ _ hw hx hy => Butterfly.forwardExact hT.spacious hw hx hy

/-- The inverse butterflies of a transform with proper multipliers are exact in range. -/
theorem Proper.inverse_exact :
    Layer.InRange T.precision T.modulus (2 * T.modulus.toNat)
      fun _ => Butterfly.InverseExact T.precision T.modulus :=
  fun _ _ _ _ hx hy => Butterfly.inverseExact hT.spacious hx hy

/-- The last inverse butterflies of a transform with proper multipliers are exact in range. -/
theorem Proper.final_exact :
    Layer.InRange T.precision T.modulus (2 * T.modulus.toNat)
      fun _ => Butterfly.FinalExact T.precision T.modulus :=
  fun _ _ _ _ hx hy => Butterfly.finalExact hT.spacious hx hy

/-- The forward butterflies of a transform with proper multipliers keep the range. -/
theorem Proper.forward_keeps :
    Layer.Keeps T.precision T.modulus (4 * T.modulus.toNat) (4 * T.modulus.toNat)
      (Butterfly.forward T.precision T.modulus) :=
  fun _ _ _ hw hx hy => Butterfly.toNat_forward_lt hT.spacious hw hx hy

/-- The inverse butterflies of a transform with proper multipliers keep the range. -/
theorem Proper.inverse_keeps :
    Layer.Keeps T.precision T.modulus (2 * T.modulus.toNat) (2 * T.modulus.toNat)
      (Butterfly.inverse T.precision T.modulus) :=
  fun _ _ _ hw hx hy => Butterfly.toNat_inverse_lt hT.spacious hw hx hy

/-- The last inverse butterflies of a transform with proper multipliers leave words in the range
asked for. -/
theorem Proper.final_keeps (full : Bool) :
    Layer.Keeps T.precision T.modulus (2 * T.modulus.toNat)
      ((if full then 1 else 2) * T.modulus.toNat)
      fun _ => Butterfly.final T.precision T.modulus T.scale T.scaleRoot full :=
  fun _ _ _ _ hx hy =>
    Butterfly.toNat_final_lt hT.spacious hT.scale hT.scaleRoot full hx hy

/-- The range at the end is not empty. -/
theorem Proper.final_bound_pos (full : Bool) :
    0 < (if full then 1 else 2) * T.modulus.toNat := by
  have := hT.modulus_pos
  split_ifs <;> omega

/-- The portable engine may be watched. -/
theorem portable_watches : Engine.portableWatched.Watches .portable T := by
  have hq := hT.modulus_pos
  have hfour : 0 < 4 * T.modulus.toNat := by omega
  have htwo : 0 < 2 * T.modulus.toNat := by omega
  refine
    { widthLog_eq := rfl
      settle_eq := rfl
      forward := ?_
      forwardNarrow := fun _ => Passes.refl
      below_settle := ?_
      inverseNarrow := fun _ => Passes.refl
      inverse := ?_
      final := ?_ }
  · intro B t roots hroots
    exact Passes.onWords hq hfour hfour hroots hT.forward_exact hT.forward_keeps
  · intro a ha x hx
    obtain ⟨y, hy, rfl⟩ := Array.mem_map.1 hx
    rw [Butterfly.toNat_settle hT.spacious (ha y hy)]
    exact Nat.mod_lt _ hq
  · intro B t roots hroots
    exact Passes.onWords hq htwo htwo hroots hT.inverse_exact hT.inverse_keeps
  · intro full
    exact Passes.onWords hq htwo (hT.final_bound_pos full) (by simp) hT.final_exact
      (hT.final_keeps full)

/-- A narrow forward layer reads copies of entries of the table. -/
theorem passes_forwardChunks (B : Block) (s : Layer.Shuffle) (m : ℕ) :
    Passes (4 * T.modulus.toNat) (4 * T.modulus.toNat) (Engine.forwardChunks T B s m)
      (Engine.forwardChunksWatched T B s m) := by
  have hq := hT.modulus_pos
  have hfour : 0 < 4 * T.modulus.toNat := by omega
  refine Passes.watch ?_ ?_
  · intro a ha roots hroots
    exact Layer.eachOnChunks hq hfour (fun w hw => hT.copies w (mem_of_mem_slice? hroots hw)) ha
      hT.forward_exact
  · intro a b ha hb
    obtain ⟨roots, hroots, hb⟩ := Option.bind_eq_some_iff.1 hb
    obtain ⟨-, -, hb⟩ := Option.bind_eq_some_iff.1 hb
    cases hb
    exact Layer.below_onChunks hq hfour (fun w hw => hT.copies w (mem_of_mem_slice? hroots hw)) ha
      hfour (Butterfly.lanewise_forward Lanes.eight_lawful _ _) hT.forward_keeps

/-- A narrow inverse layer reads copies of entries of the table. -/
theorem passes_inverseChunks (B : Block) (s : Layer.Shuffle) (m : ℕ) :
    Passes (2 * T.modulus.toNat) (2 * T.modulus.toNat) (Engine.inverseChunks T B s m)
      (Engine.inverseChunksWatched T B s m) := by
  have hq := hT.modulus_pos
  have htwo : 0 < 2 * T.modulus.toNat := by omega
  refine Passes.watch ?_ ?_
  · intro a ha roots hroots
    obtain ⟨start, -, hroots⟩ := Option.bind_eq_some_iff.1 hroots
    exact Layer.eachOnChunks hq htwo
      (fun w hw => hT.inverseCopies w (mem_of_mem_slice? hroots hw)) ha hT.inverse_exact
  · intro a b ha hb
    obtain ⟨start, -, hb⟩ := Option.bind_eq_some_iff.1 hb
    obtain ⟨roots, hroots, hb⟩ := Option.bind_eq_some_iff.1 hb
    obtain ⟨-, -, hb⟩ := Option.bind_eq_some_iff.1 hb
    cases hb
    exact Layer.below_onChunks hq htwo
      (fun w hw => hT.inverseCopies w (mem_of_mem_slice? hroots hw)) ha htwo
      (Butterfly.lanewise_inverse Lanes.eight_lawful _ _) hT.inverse_keeps

/-- The engine on registers may be watched, its narrow layers included. -/
theorem eightLane_watches : Engine.eightLaneWatched.Watches .eightLane T := by
  have hq := hT.modulus_pos
  have hfour : 0 < 4 * T.modulus.toNat := by omega
  have htwo : 0 < 2 * T.modulus.toNat := by omega
  have law := Lanes.eight_lawful
  refine
    { widthLog_eq := rfl
      settle_eq := rfl
      forward := ?_
      forwardNarrow := ?_
      below_settle := ?_
      inverseNarrow := ?_
      inverse := ?_
      final := ?_ }
  · intro B t roots hroots
    exact Passes.onRegisters hq hfour hfour hroots hT.forward_exact hT.forward_keeps law
      (Butterfly.lanewise_forward law _ _)
  · intro B
    have hlayer (s : Layer.Shuffle) (d : ℕ) :=
      Passes.of_forall (passes_forwardChunks hT B s) fun a => a.size / d
    exact (hlayer Layer.stride4 8).bind ((hlayer Layer.stride2 4).bind (hlayer Layer.stride1 2))
  · intro a ha
    refine Layer.below_mapRegisters law hfour hq ?_ ha
    intro x hx i h
    rw [Butterfly.getElem_settleLanes law x h, Butterfly.toNat_settle hT.spacious (hx i h)]
    exact Nat.mod_lt _ hq
  · intro B
    have hlayer (s : Layer.Shuffle) (d : ℕ) :=
      Passes.of_forall (passes_inverseChunks hT B s) fun a => a.size / d
    exact (hlayer Layer.stride1 2).bind ((hlayer Layer.stride2 4).bind (hlayer Layer.stride4 8))
  · intro B t roots hroots
    exact Passes.onRegisters hq htwo htwo hroots hT.inverse_exact hT.inverse_keeps law
      (Butterfly.lanewise_inverse law _ _)
  · intro full
    exact Passes.onRegisters hq htwo (hT.final_bound_pos full) (by simp) hT.final_exact
      (hT.final_keeps full) law (Butterfly.lanewise_final law _ _ _ _ full)

/-- On every machine the engine of a transform may be watched. -/
theorem engine_watches (backend : Backend) :
    (T.watchedEngine backend).Watches (T.engine backend) T := by
  cases backend with
  | portable => exact portable_watches hT
  | eightLane =>
      simp only [watchedEngine, engine]
      split_ifs
      · exact eightLane_watches hT
      · exact portable_watches hT

end engines

/-! ### Transforms that are built -/

variable {isPrime : Word → Bool} {a : Array Word}

/-- A forward transform of words below `4 * q` gets through, and so does its watched form. -/
theorem WellFormed.forward_passes (hT : T.WellFormed K) (backend : Backend) (full : Bool)
    (hsize : a.size = 2 ^ K) (ha : Below (4 * T.modulus.toNat) a) :
    ∃ y, T.forwardWords backend full a = some y ∧ T.forwardWatched backend full a = some y ∧
      Below ((if full then 1 else 4) * T.modulus.toNat) y := by
  obtain ⟨y, hrun, -⟩ :=
    forwardLayers_represents hT full (Block.whole_within K) (Represents.of_mem hsize ha)
  have hwords := (forwardWords_eq hT.toComplete backend full hsize).trans hrun
  obtain ⟨hwatched, hy⟩ := passes_forwardBlock hT.proper (engine_watches hT.proper backend)
    blockLimit full .whole T.degree.log2 a y ha hwords
  exact ⟨y, hwords, hwatched, hy⟩

/-- An inverse transform of words below `2 * q` gets through, and so does its watched form. -/
theorem WellFormed.inverse_passes (hT : T.WellFormed K) (backend : Backend) (full : Bool)
    (hsize : a.size = 2 ^ K) (ha : Below (2 * T.modulus.toNat) a) :
    ∃ y, T.inverseWords backend full a = some y ∧ T.inverseWatched backend full a = some y ∧
      Below ((if full then 1 else 2) * T.modulus.toNat) y := by
  obtain ⟨y, hrun, -⟩ := inverse_whole_represents hT full (Represents.of_mem hsize ha)
  have hwords := (inverseWords_eq hT.toComplete backend full hsize).trans hrun
  obtain ⟨hwatched, hy⟩ := passes_inverseBlock hT.proper (engine_watches hT.proper backend)
    blockLimit full .whole T.degree.log2 a y ha hwords
  exact ⟨y, hwords, hwatched, hy⟩

section accepted

variable {input output : Word} (hT : T.WellFormed K) (backend : Backend)

include hT

/-- What a forward transform does with an operand that its requirements let pass. -/
theorem WellFormed.forward_accepted
    (hpass : verify (T.forwardRequirements input output a) = .ok ()) :
    ∃ y, T.forwardWords backend (output == 1) a = some y ∧
      T.forwardWatched backend (output == 1) a = some y ∧
      Below (output.toNat * T.modulus.toNat) y ∧ T.ForwardGives backend input output a y := by
  have hrs := verify_eq_ok_iff.1 hpass
  obtain ⟨hsize, hin, hout, hlt⟩ := forwardRequirements_hold_iff.1 hrs
  have ha : Below (4 * T.modulus.toNat) a :=
    Below.mono hlt (Nat.mul_le_mul_right T.modulus.toNat (toNat_le_of_mem_forward hin))
  obtain ⟨y, hwords, hwatched, hy⟩ :=
    hT.forward_passes backend (output == 1) (hsize.trans hT.degree_eq) ha
  rw [toNat_of_mem_forward hout] at hy
  exact ⟨y, hwords, hwatched, hy, forwardGives_of backend hrs hwords hy⟩

/-- What an inverse transform does with an operand that its requirements let pass. -/
theorem WellFormed.inverse_accepted
    (hpass : verify (T.inverseRequirements input output a) = .ok ()) :
    ∃ y, T.inverseWords backend (output == 1) a = some y ∧
      T.inverseWatched backend (output == 1) a = some y ∧
      Below (output.toNat * T.modulus.toNat) y ∧ T.InverseGives backend input output a y := by
  have hrs := verify_eq_ok_iff.1 hpass
  obtain ⟨hsize, hin, hout, hlt⟩ := inverseRequirements_hold_iff.1 hrs
  have ha : Below (2 * T.modulus.toNat) a :=
    Below.mono hlt (Nat.mul_le_mul_right T.modulus.toNat (toNat_le_of_mem_inverse hin))
  obtain ⟨y, hwords, hwatched, hy⟩ :=
    hT.inverse_passes backend (output == 1) (hsize.trans hT.degree_eq) ha
  rw [toNat_of_mem_inverse hout] at hy
  exact ⟨y, hwords, hwatched, hy, inverseGives_of backend hrs hwords hy⟩

end accepted

/-- Whatever the transform, the machine and the factors: on an operand that its requirements let
pass, a transform leaves the words of its watched run. So the words of every block are in range
before and after each of its layers, no operation of a butterfly wraps, and the result keeps the
bound that was asked for. -/
theorem runs_in_range (hT : T.Built isPrime) (backend : Backend) (input output : Word)
    (a : Array Word) :
    (verify (T.forwardRequirements input output a) = .ok () →
      ∃ y, T.forwardWords backend (output == 1) a = some y ∧
        T.forwardWatched backend (output == 1) a = some y ∧
        Below (output.toNat * T.modulus.toNat) y ∧ T.ForwardGives backend input output a y) ∧
    (verify (T.inverseRequirements input output a) = .ok () →
      ∃ y, T.inverseWords backend (output == 1) a = some y ∧
        T.inverseWatched backend (output == 1) a = some y ∧
        Below (output.toNat * T.modulus.toNat) y ∧ T.InverseGives backend input output a y) := by
  obtain ⟨K, -, hK⟩ := hT.wellFormed
  exact ⟨hK.forward_accepted backend, hK.inverse_accepted backend⟩

/-- The greatest operands there are, in blocks, on registers of eight words and on words. -/
theorem runs_in_range_deep :
    let a : Array Word := .replicate 2048 49155
    let b : Array Word := .replicate 2048 24577
    deep.Built Prime.exactTest ∧ verify (deep.forwardRequirements 4 1 a) = .ok () ∧
      verify (deep.inverseRequirements 2 2 b) = .ok () ∧
      (∃ y, deep.forwardWatched .eightLane true a = some y ∧ Below (1 * 12289) y) ∧
      ∃ z, deep.inverseWatched .portable false b = some z ∧ Below (2 * 12289) z := by
  intro a b
  have hforward : verify (deep.forwardRequirements 4 1 a) = .ok () :=
    verify_eq_ok_iff.2 (forwardRequirements_hold (by decide) (by decide) Array.size_replicate
      (toNat_lt_of_mem_replicate (by decide)))
  have hinverse : verify (deep.inverseRequirements 2 2 b) = .ok () :=
    verify_eq_ok_iff.2 (inverseRequirements_hold (by decide) (by decide) Array.size_replicate
      (toNat_lt_of_mem_replicate (by decide)))
  obtain ⟨y, -, hy, hbelow, -⟩ := (runs_in_range deep_built .eightLane 4 1 a).1 hforward
  obtain ⟨z, -, hz, hbelow', -⟩ := (runs_in_range deep_built .portable 2 2 b).2 hinverse
  exact ⟨deep_built, hforward, hinverse, ⟨y, hy, hbelow⟩, z, hz, hbelow'⟩

/-- A word that is not below `4 * q` stops a watched run. -/
example : smallest.forwardWatched .portable true #[20, 7] = none :=
  rfl

end Transform

end Negacyclic
