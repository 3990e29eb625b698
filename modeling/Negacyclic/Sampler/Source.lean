import Negacyclic.Word.Basic

/-!
# Sources of random words

A `Generator` is a deterministic stream of random bits: from a seed comes a state, and from a state
whatever is read next, with the state after it. What a state is and which words it gives is left
open, so all that is shown of draws holds for every generator.

A `Source` is a generator at one of its states. Reading moves it on and changes nothing else, so
equal sources read equal words for ever.
-/

namespace Negacyclic

/-- A generator of random bits. -/
structure Generator where
  /-- What the rest of a stream depends on. -/
  State : Type
  /-- The start of the stream of a seed of 32 bytes. -/
  ofBytes : Vector UInt8 32 → State
  /-- The start of the stream of a seed of one word. -/
  ofWord : Word → State
  /-- The next 32-bit word. -/
  next32 : State → UInt32 × State
  /-- The next word. -/
  next64 : State → Word × State
  /-- The next `n` bytes. -/
  nextBytes : (n : Nat) → State → Vector UInt8 n × State

/-- A generator at one of its states. -/
structure Source (G : Generator) where
  state : G.State

namespace Source

variable {G : Generator}

/-- The source at the start of the stream of a seed of 32 bytes. -/
def ofBytes (seed : Vector UInt8 32) : Source G :=
  ⟨G.ofBytes seed⟩

/-- The source at the start of the stream of a seed of one word. -/
def ofWord (seed : Word) : Source G :=
  ⟨G.ofWord seed⟩

/-- The next 32-bit word. -/
def next32 (s : Source G) : UInt32 × Source G :=
  (G.next32 s.state).map id Source.mk

/-- The next word. -/
def next64 (s : Source G) : Word × Source G :=
  (G.next64 s.state).map id Source.mk

/-- The next `n` bytes. -/
def nextBytes (s : Source G) (n : Nat) : Array UInt8 × Source G :=
  (G.nextBytes n s.state).map Vector.toArray Source.mk

end Source

end Negacyclic
