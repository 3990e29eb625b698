import Mathlib.Control.Monad.Writer
import Negacyclic.Transform.Run

/-!
# Recorded runs

A recorded run does what a run does and writes down where it comes: the blocks that the recursion
enters, the slice of a table that each layer of a block takes, and the last inverse layer, which
takes none. A slice is written down before it is taken, by the numbers it is taken with.

What a recorded run leaves is what the run leaves, on all operands and also where that is nothing
(`erase_forwardRecorded`, `erase_inverseRecorded`), so what is shown of the record of a run is
shown of the run.
-/

namespace Negacyclic

/-! ### Visits -/

/-- What happens in a block. -/
inductive Act where
  /-- The recursion comes to the block. -/
  | enter
  /-- A layer takes `groups` entries of a table from `first` on and works with this stride. -/
  | wide (stride groups first : ℕ)
  /-- A layer that does not fill the registers takes the copies of `groups` entries from `first`
  on, which the replicated table has from `start` on. -/
  | narrow (groups first start : ℕ)
  /-- The last inverse layer. -/
  | final
  deriving DecidableEq, Repr

/-- An entry of a record: what happened in a block when it had `words` words. -/
structure Visit where
  block : Block
  words : ℕ
  act : Act
  deriving DecidableEq, Repr

/-- A step that may fail and writes down its visits. -/
abbrev Recorded := WriterT (List Visit) Option

/-- Write down what happens in a block with the words `a`. -/
def visit (B : Block) (a : Array Word) (act : Act) : Recorded Unit :=
  tell [⟨B, a.size, act⟩]

namespace Recorded

variable {α β γ : Type}

/-! ### What a recorded step writes -/

/-- An answer without a step writes nothing. -/
theorem run_pure_eq_some {x y : α} {log : List Visit} :
    (pure x : Recorded α).run = some (y, log) ↔ x = y ∧ log = [] := by
  change some (x, []) = some (y, log) ↔ _
  simp [eq_comm]

/-- A step of the run itself writes nothing. -/
theorem run_lift_eq_some {o : Option α} {y : α} {log : List Visit} :
    (liftM o : Recorded α).run = some (y, log) ↔ o = some y ∧ log = [] := by
  change o.map (fun x => (x, [])) = some (y, log) ↔ _
  cases o with
  | none => simp
  | some x => simp [eq_comm]

/-- Two steps write what the first writes and then what the second does. -/
theorem run_bind_eq_some {x : Recorded α} {f : α → Recorded β} {y : β} {log : List Visit} :
    (x >>= f).run = some (y, log) ↔
      ∃ z before after, x.run = some (z, before) ∧ (f z).run = some (y, after) ∧
        log = before ++ after := by
  constructor
  · intro h
    obtain ⟨⟨z, before⟩, hz, h⟩ := Option.bind_eq_some_iff.1 h
    obtain ⟨⟨w, after⟩, hw, h⟩ := Option.map_eq_some_iff.1 h
    cases h
    exact ⟨z, before, after, hz, hw, rfl⟩
  · rintro ⟨z, before, after, hz, hw, rfl⟩
    exact Option.bind_eq_some_iff.2 ⟨(z, before), hz, Option.map_eq_some_iff.2 ⟨_, hw, rfl⟩⟩

/-- A visit is written before what follows it. -/
theorem run_visit_bind_eq_some {B : Block} {a : Array Word} {act : Act} {f : Unit → Recorded β}
    {y : β} {log : List Visit} :
    (visit B a act >>= f).run = some (y, log) ↔
      ∃ after, (f ()).run = some (y, after) ∧ log = ⟨B, a.size, act⟩ :: after := by
  rw [run_bind_eq_some]
  constructor
  · rintro ⟨u, before, after, hu, hf, rfl⟩
    cases hu
    exact ⟨after, hf, rfl⟩
  · rintro ⟨after, hf, rfl⟩
    exact ⟨(), _, after, rfl, hf, rfl⟩

/-- A step of the run itself leaves the record to what follows it. -/
theorem run_lift_bind_eq_some {o : Option α} {f : α → Recorded β} {y : β} {log : List Visit} :
    (liftM o >>= f).run = some (y, log) ↔ ∃ z, o = some z ∧ (f z).run = some (y, log) := by
  rw [run_bind_eq_some]
  constructor
  · rintro ⟨z, before, after, hz, hf, rfl⟩
    obtain ⟨ho, rfl⟩ := run_lift_eq_some.1 hz
    exact ⟨z, ho, hf⟩
  · rintro ⟨z, hz, hf⟩
    exact ⟨z, [], log, run_lift_eq_some.2 ⟨hz, rfl⟩, hf, rfl⟩

/-! ### Recorded steps without their record -/

/-- The step without its record. -/
def erase (x : Recorded α) : Option α :=
  x.run.map Prod.fst

/-- A step leaves what it leaves with some record. -/
theorem erase_eq_some_iff {x : Recorded α} {y : α} :
    x.erase = some y ↔ ∃ log, x.run = some (y, log) := by
  simp [erase]

/-- Without its record an answer is the answer. -/
@[simp] theorem erase_pure (x : α) : (pure x : Recorded α).erase = some x := rfl

/-- Without its record a step of the run itself is that step. -/
@[simp] theorem erase_lift (o : Option α) : (liftM o : Recorded α).erase = o := by
  cases o <;> rfl

/-- Without its record a visit is nothing. -/
@[simp] theorem erase_visit (B : Block) (a : Array Word) (act : Act) :
    (visit B a act).erase = some () := rfl

/-- Records are left out step by step. -/
@[simp] theorem erase_bind (x : Recorded α) (f : α → Recorded β) :
    (x >>= f).erase = x.erase.bind fun z => (f z).erase := by
  change ((x.run.bind fun p => (f p.1).run.map fun r => (r.1, p.2 ++ r.2)).map Prod.fst) =
    (x.run.map Prod.fst).bind fun z => (f z).run.map Prod.fst
  simp [Option.map_bind, Option.bind_map, Function.comp_def]

/-- A loop without its record is the loop of the steps without theirs. -/
theorem erase_foldlM {step : β → γ → Recorded β} {step' : β → γ → Option β}
    (h : ∀ z c, (step z c).erase = step' z c) (cs : List γ) (z : β) :
    (cs.foldlM step z).erase = cs.foldlM step' z := by
  induction cs generalizing z with
  | nil => rfl
  | cons c cs ih =>
      rw [List.foldlM_cons, List.foldlM_cons, erase_bind, h]
      simp only [ih]
      rfl

end Recorded

/-! ### Recorded narrow layers -/

namespace Engine

/-- One narrow forward layer, recorded. -/
def forwardChunksRecorded (T : Transform) (B : Block) (s : Layer.Shuffle) (m : ℕ)
    (a : Array Word) : Recorded (Array Word) := do
  let n := a.size * 2 ^ B.depth
  let start := Replicated.forwardIndex n (B.forwardStart m)
  visit B a (.narrow m (B.forwardStart m) start)
  let roots ← slice? T.replicated.roots start (a.size / 2)
  liftM (guard (a.size = 2 * roots.size) : Option Unit)
  return Layer.onChunks s (Butterfly.forwardLanes Lanes.eight T.precision T.modulus) roots a

/-- One narrow inverse layer, recorded. -/
def inverseChunksRecorded (T : Transform) (B : Block) (s : Layer.Shuffle) (m : ℕ)
    (a : Array Word) : Recorded (Array Word) := do
  let n := a.size * 2 ^ B.depth
  let first ← B.inverseStart? n m
  let start := Replicated.inverseIndex n first
  visit B a (.narrow m first start)
  let roots ← slice? T.replicated.inverseRoots start (a.size / 2)
  liftM (guard (a.size = 2 * roots.size) : Option Unit)
  return Layer.onChunks s (Butterfly.inverseLanes Lanes.eight T.precision T.modulus) roots a

/-- The recorded narrow forward layer is the narrow forward layer. -/
theorem erase_forwardChunksRecorded (T : Transform) (B : Block) (s : Layer.Shuffle) (m : ℕ)
    (a : Array Word) :
    (forwardChunksRecorded T B s m a).erase = forwardChunks T B s m a := by
  unfold forwardChunksRecorded
  rw [Recorded.erase_bind, Recorded.erase_visit, Option.bind_some, Recorded.erase_bind,
    Recorded.erase_lift]
  refine Option.bind_congr fun roots _ => ?_
  rw [Recorded.erase_bind, Recorded.erase_lift]
  rfl

/-- The recorded narrow inverse layer is the narrow inverse layer. -/
theorem erase_inverseChunksRecorded (T : Transform) (B : Block) (s : Layer.Shuffle) (m : ℕ)
    (a : Array Word) :
    (inverseChunksRecorded T B s m a).erase = inverseChunks T B s m a := by
  unfold inverseChunksRecorded
  rw [Recorded.erase_bind, Recorded.erase_lift]
  refine Option.bind_congr fun first _ => ?_
  rw [Recorded.erase_bind, Recorded.erase_visit, Option.bind_some, Recorded.erase_bind,
    Recorded.erase_lift]
  refine Option.bind_congr fun roots _ => ?_
  rw [Recorded.erase_bind, Recorded.erase_lift]
  rfl

end Engine

/-- An engine with a recorded form of the layers that it runs by itself. -/
structure Recorder where
  engine : Engine
  forwardNarrow : Transform → Block → Array Word → Recorded (Array Word)
  inverseNarrow : Transform → Block → Array Word → Recorded (Array Word)
  erase_forwardNarrow (T : Transform) (B : Block) (a : Array Word) :
    (forwardNarrow T B a).erase = engine.forwardNarrow T B a
  erase_inverseNarrow (T : Transform) (B : Block) (a : Array Word) :
    (inverseNarrow T B a).erase = engine.inverseNarrow T B a

namespace Recorder

/-- All layers of the portable engine fill its registers. -/
def portable : Recorder where
  engine := .portable
  forwardNarrow _ _ a := pure a
  inverseNarrow _ _ a := pure a
  erase_forwardNarrow _ _ _ := rfl
  erase_inverseNarrow _ _ _ := rfl

def eightLane : Recorder where
  engine := .eightLane
  forwardNarrow T B a := do
    let a ← Engine.forwardChunksRecorded T B Layer.stride4 (a.size / 8) a
    let a ← Engine.forwardChunksRecorded T B Layer.stride2 (a.size / 4) a
    Engine.forwardChunksRecorded T B Layer.stride1 (a.size / 2) a
  inverseNarrow T B a := do
    let a ← Engine.inverseChunksRecorded T B Layer.stride1 (a.size / 2) a
    let a ← Engine.inverseChunksRecorded T B Layer.stride2 (a.size / 4) a
    Engine.inverseChunksRecorded T B Layer.stride4 (a.size / 8) a
  erase_forwardNarrow T B a := by
    simp [Engine.eightLane, Engine.erase_forwardChunksRecorded]
  erase_inverseNarrow T B a := by
    simp [Engine.eightLane, Engine.erase_inverseChunksRecorded]

/-! ### The recorded network -/

variable (R : Recorder) (limit : ℕ) (T : Transform) (full : Bool) (B : Block)

/-- The layer with `m` groups in a block, recorded. -/
def forwardLayer (m : ℕ) (a : Array Word) : Recorded (Array Word) := do
  visit B a (.wide (a.size / (2 * m)) m (B.forwardStart m))
  let roots ← slice? T.roots (B.forwardStart m) m
  R.engine.forward T B (a.size / (2 * m)) roots a

/-- All layers of a block of `2^k` words, recorded. -/
def forwardLayers (k : ℕ) (a : Array Word) : Recorded (Array Word) := do
  let a ← (List.range (k - R.engine.widthLog)).foldlM (fun a j => R.forwardLayer T B (2 ^ j) a) a
  let a ← R.forwardNarrow T B a
  return if full then R.engine.settle T a else a

/-- The forward transform of a block of `2^k` words, recorded. -/
def forwardBlock (B : Block) : (k : ℕ) → Array Word → Recorded (Array Word)
  | 0, a => do
      visit B a .enter
      R.forwardLayers T full B 0 a
  | k + 1, a => do
      visit B a .enter
      if 2 ^ (k + 1) ≤ limit then
        R.forwardLayers T full B (k + 1) a
      else
        let a ← R.forwardLayer T B 1 a
        let low ← forwardBlock B.lower k (a.extract 0 (2 ^ k))
        let high ← forwardBlock B.upper k (a.extract (2 ^ k) a.size)
        return low ++ high

/-- The layer with `m` groups in a block, recorded. -/
def inverseLayer (m : ℕ) (a : Array Word) : Recorded (Array Word) := do
  let first ← B.inverseStart? T.degree m
  visit B a (.wide (a.size / (2 * m)) m first)
  let roots ← slice? T.inverseRoots first m
  R.engine.inverse T B (a.size / (2 * m)) roots a

/-- The last inverse layer, recorded. -/
def final (a : Array Word) : Recorded (Array Word) := do
  visit B a .final
  R.engine.final T full a

/-- All layers of a block of `2^k` words, recorded. -/
def inverseLayers (k : ℕ) (a : Array Word) : Recorded (Array Word) := do
  let a ← R.inverseNarrow T B a
  let first := if B.depth = 0 then 1 else 0
  let layers := (List.range' first (k - R.engine.widthLog - first)).reverse
  let a ← layers.foldlM (fun a j => R.inverseLayer T B (2 ^ j) a) a
  if B.depth = 0 then R.final T full B a else return a

/-- The inverse transform of a block of `2^k` words, recorded. -/
def inverseBlock (B : Block) : (k : ℕ) → Array Word → Recorded (Array Word)
  | 0, a => do
      visit B a .enter
      R.inverseLayers T full B 0 a
  | k + 1, a => do
      visit B a .enter
      if 2 ^ (k + 1) ≤ limit then
        R.inverseLayers T full B (k + 1) a
      else
        let low ← inverseBlock B.lower k (a.extract 0 (2 ^ k))
        let high ← inverseBlock B.upper k (a.extract (2 ^ k) a.size)
        let a := low ++ high
        if B.depth = 0 then R.final T full B a else R.inverseLayer T B 1 a

/-! ### The record changes nothing -/

/-- A recorded forward layer is the layer. -/
theorem erase_forwardLayer (m : ℕ) (a : Array Word) :
    (R.forwardLayer T B m a).erase = Transform.forwardLayer R.engine T B m a := by
  simp [forwardLayer, Transform.forwardLayer]

/-- Recorded forward layers are the layers. -/
theorem erase_forwardLayers (k : ℕ) (a : Array Word) :
    (R.forwardLayers T full B k a).erase = Transform.forwardLayers R.engine T full B k a := by
  simp [forwardLayers, Transform.forwardLayers, R.erase_forwardNarrow,
    Recorded.erase_foldlM fun a j => R.erase_forwardLayer T B (2 ^ j) a]

/-- A recorded forward block is the block, by induction along the recursion. -/
theorem erase_forwardBlock (k : ℕ) (a : Array Word) :
    (R.forwardBlock limit T full B k a).erase =
      Transform.forwardBlock R.engine limit T full B k a := by
  induction k generalizing B a with
  | zero => simp [forwardBlock, Transform.forwardBlock, erase_forwardLayers]
  | succ k ih =>
      unfold forwardBlock Transform.forwardBlock
      split_ifs <;> simp [erase_forwardLayers, erase_forwardLayer, ih]

/-- A recorded inverse layer is the layer. -/
theorem erase_inverseLayer (m : ℕ) (a : Array Word) :
    (R.inverseLayer T B m a).erase = Transform.inverseLayer R.engine T B m a := by
  simp [inverseLayer, Transform.inverseLayer]

/-- The recorded last inverse layer is the layer. -/
theorem erase_final (a : Array Word) :
    (R.final T full B a).erase = R.engine.final T full a := by
  simp [final]

/-- Recorded inverse layers are the layers. -/
theorem erase_inverseLayers (k : ℕ) (a : Array Word) :
    (R.inverseLayers T full B k a).erase = Transform.inverseLayers R.engine T full B k a := by
  unfold inverseLayers Transform.inverseLayers
  split_ifs <;> simp [R.erase_inverseNarrow, erase_final, -List.foldlM_reverse,
    Recorded.erase_foldlM fun a j => R.erase_inverseLayer T B (2 ^ j) a]

/-- A recorded inverse block is the block, by induction along the recursion. -/
theorem erase_inverseBlock (k : ℕ) (a : Array Word) :
    (R.inverseBlock limit T full B k a).erase =
      Transform.inverseBlock R.engine limit T full B k a := by
  induction k generalizing B a with
  | zero => simp [inverseBlock, Transform.inverseBlock, erase_inverseLayers]
  | succ k ih =>
      unfold inverseBlock Transform.inverseBlock
      split_ifs <;> simp [erase_inverseLayers, erase_inverseLayer, erase_final, ih]

end Recorder

/-! ### Recorded transforms -/

namespace Transform

variable (T : Transform)

/-- The recorded form of the engine that runs a transform on a machine. -/
def recorder : Backend → Recorder
  | .portable => .portable
  | .eightLane => if Replicated.minDegree ≤ T.degree then .eightLane else .portable

/-- The recorder for a machine records the engine of the machine. -/
theorem engine_recorder (backend : Backend) : (T.recorder backend).engine = T.engine backend := by
  cases backend with
  | portable => rfl
  | eightLane =>
      unfold recorder engine
      split_ifs <;> rfl

/-- The forward transform of `a`, recorded. -/
def forwardRecorded (backend : Backend) (full : Bool) (a : Array Word) : Recorded (Array Word) :=
  (T.recorder backend).forwardBlock blockLimit T full .whole T.degree.log2 a

/-- The inverse transform of `a`, recorded. -/
def inverseRecorded (backend : Backend) (full : Bool) (a : Array Word) : Recorded (Array Word) :=
  (T.recorder backend).inverseBlock blockLimit T full .whole T.degree.log2 a

/-- The recorded forward run leaves what the run leaves, also where that is nothing. -/
theorem erase_forwardRecorded (backend : Backend) (full : Bool) (a : Array Word) :
    (T.forwardRecorded backend full a).erase = T.forwardWords backend full a := by
  unfold forwardRecorded forwardWords
  rw [Recorder.erase_forwardBlock, engine_recorder]

/-- The recorded inverse run leaves what the run leaves, also where that is nothing. -/
theorem erase_inverseRecorded (backend : Backend) (full : Bool) (a : Array Word) :
    (T.inverseRecorded backend full a).erase = T.inverseWords backend full a := by
  unfold inverseRecorded inverseWords
  rw [Recorder.erase_inverseBlock, engine_recorder]

end Transform

end Negacyclic
