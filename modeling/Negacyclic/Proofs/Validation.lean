import Negacyclic.Proofs.Check
import Negacyclic.Proofs.Kernel.Checked
import Negacyclic.Proofs.Transform.Evaluation
import Negacyclic.Proofs.Transform.Interpolation

/-!
# Which calls are accepted

Every kernel and every transform looks at its arguments before it touches the buffer. It succeeds
exactly if all its checks hold; else it has the fault of the first that does not and the buffer is
as it was (`Operation.validation_exact`). Nothing that it takes for granted fails once it has
accepted. For that `Operation.into?` and `Operation.inPlace?` run the operation with every load,
store and preparation checked, and with a broken transform for a failure; these runs always get
through, with the outcome and the words of the operation itself (`Operation.into?_eq`,
`Operation.inPlace?_eq`). What an accepted run has found is read off its checked run
(`Operation.ready_of_into?`).

`Operation.checks` is the one list of what is looked at, in order, for a buffer of some size and a
first operand. In place the first operand is the buffer. A transform then has no look at the size
of the buffer of its own: that check holds if the others do.
-/

namespace Negacyclic

/-! ### Steps that look at their arguments first -/

/-- On the buffer `out` a step looks at the checks `cs` in order before it does anything else, and
does not fail afterwards. -/
structure Update.Validates (u : Update Unit) (cs : List Check) (out : Array Word) : Prop where
  ok_iff : (u.runOn out).1 = .ok () ↔ ∀ c ∈ cs, c.Holds
  refused_iff (f : Fault) : (u.runOn out).1 = .error (.refused f) ↔ FirstFailing f cs
  unchanged : (u.runOn out).1 ≠ .ok () → (u.runOn out).2 = out
  not_broken : (u.runOn out).1 ≠ .error .broken

namespace Update

variable {u : Update Unit} {rs : List Requirement} {out : Array Word}

/-- A refusal ends a step before anything after it is run. -/
theorem runOn_require_of_error {f : Fault} (h : verify rs = .error f) (rest : Update Unit)
    (out : Array Word) :
    Update.runOn (Update.require rs >>= fun _ => rest) out = (.error (.refused f), out) := by
  rw [Update.require, h]
  rfl

/-- A step that refuses by its requirements, else succeeds. -/
theorem validates_of_runs
    (hrefuse : ∀ f, verify rs = .error f → u.runOn out = (.error (.refused f), out))
    (hrun : (∀ r ∈ rs, r.Holds) → ∃ y, u.runOn out = (.ok (), y)) :
    u.Validates (rs.map Requirement.check) out := by
  have hdecides := verify_decides rs
  cases hverify : verify rs with
  | error f =>
      have hu := hrefuse f hverify
      rw [hverify] at hdecides
      have hfirst := (hdecides.error_iff f).1 rfl
      constructor
      · rw [hu]
        exact iff_of_false nofun hfirst.not_all_hold
      · intro g
        rw [hu, ← hdecides.error_iff, Except.error.injEq, Except.error.injEq, Stop.refused.injEq]
      · intro _
        rw [hu]
      · rw [hu]
        nofun
  | ok _ =>
      have hall := verify_eq_ok_iff.1 hverify
      obtain ⟨y, hu⟩ := hrun hall
      rw [hverify] at hdecides
      constructor
      · rw [hu]
        refine iff_of_true rfl ?_
        rw [List.forall_mem_map]
        exact fun r hr => r.check_holds_iff.2 (hall r hr)
      · intro g
        rw [hu, ← hdecides.error_iff]
        exact iff_of_false nofun nofun
      · intro hne
        rw [hu] at hne
        exact absurd rfl hne
      · rw [hu]
        nofun

/-- The run, unless it is broken. -/
def run? (u : Update Unit) (out : Array Word) : Option (Except Stop Unit × Array Word) :=
  match u.runOn out with
  | (.error .broken, _) => none
  | ended => some ended

/-- A step that only looks at its checks is never broken, so its run is there. -/
theorem Validates.run?_eq {cs : List Check} (h : u.Validates cs out) :
    u.run? out = some (u.runOn out) := by
  have hbroken := h.not_broken
  unfold run?
  split
  · rename_i hrun
    rw [hrun] at hbroken
    exact absurd rfl hbroken
  · rfl

/-- A check at the end that holds if those before it do is as good as none. -/
theorem Validates.append {cs : List Check} {c : Check} (h : u.Validates cs out)
    (himp : (∀ d ∈ cs, d.Holds) → c.Holds) : u.Validates (cs ++ [c]) out where
  ok_iff := by
    rw [h.ok_iff, List.forall_mem_append]
    refine (and_iff_left_of_imp fun hall => ?_).symm
    exact List.forall_mem_singleton.2 (himp hall)
  refused_iff f := by rw [h.refused_iff, FirstFailing.append_iff_of_imp himp]
  unchanged := h.unchanged
  not_broken := h.not_broken

end Update

namespace Kernel

variable {n : ℕ}

/-- A kernel beside the buffer looks at its requirements and does nothing else that could fail. -/
theorem write_validates (K : Kernel n) (backend : Backend) (xs : Vector (Array Word) n)
    (out : Array Word) :
    (K.write backend xs).Validates ((K.requirements out.size xs).map Requirement.check) out := by
  refine Update.validates_of_runs (fun f hf => ?_) (fun h => ?_)
  · rw [runOn_write, hf]
  · exact ⟨_, writes_of_holds K backend xs out.size h out rfl⟩

/-- In place, where the buffer and the other operands are the arrays `xs`. -/
theorem writeInPlace_validates (K : Kernel (n + 1)) (backend : Backend)
    {rest : Vector (Array Word) n} {xs : Vector (Array Word) (n + 1)} {out : Array Word}
    (hxs : rest.insertIdx 0 out n.zero_le = xs) :
    (K.writeInPlace backend rest).Validates ((K.requirements out.size xs).map Requirement.check)
      out := by
  subst hxs
  refine Update.validates_of_runs (fun f hf => ?_)
    (fun h => ⟨K.rule.mapInPlace backend rest out, ?_⟩)
  · rw [runOn_writeInPlace, hf]
  · rw [runOn_writeInPlace, verify_eq_ok_iff.2 h]

end Kernel

namespace Transform

variable {isPrime : Word → Bool} {T : Transform}

/-- Whatever operand a forward transform accepts, it leaves words. -/
theorem Built.exists_forwardGives (hT : T.Built isPrime) (backend : Backend) {input output : Word}
    {a : Array Word} (h : ∀ r ∈ T.forwardRequirements input output a, r.Holds) :
    ∃ y, T.ForwardGives backend input output a y := by
  obtain ⟨hsize, hin, hout, hlt⟩ := forwardRequirements_hold_iff.1 h
  obtain ⟨K, -, hK⟩ := hT.wellFormed
  obtain ⟨y, hy, -⟩ :=
    hK.forwardGives backend hin hout (Represents.of_mem (hsize.trans hK.degree_eq) hlt)
  exact ⟨y, hy⟩

/-- Whatever operand an inverse transform accepts, it leaves words. -/
theorem Built.exists_inverseGives (hT : T.Built isPrime) (backend : Backend) {input output : Word}
    {a : Array Word} (h : ∀ r ∈ T.inverseRequirements input output a, r.Holds) :
    ∃ y, T.InverseGives backend input output a y := by
  obtain ⟨hsize, hin, hout, hlt⟩ := inverseRequirements_hold_iff.1 h
  obtain ⟨K, -, hK⟩ := hT.wellFormed
  obtain ⟨y, hy, -⟩ :=
    hK.inverseGives backend hin hout (Represents.of_mem (hsize.trans hK.degree_eq) hlt)
  exact ⟨y, hy⟩

variable {out : Array Word}

/-- The forward transform looks at the factors and the operand, then at the size of the buffer. That
the network fits the operand is known from its meaning. -/
theorem Built.forward_validates (hT : T.Built isPrime) (backend : Backend) (input output : Word)
    (a out : Array Word) :
    (T.forward backend input output a).Validates
      ((T.forwardRequirements input output a ++
        [Requirement.size .result T.degree out.size]).map Requirement.check) out := by
  refine Update.validates_of_runs (fun f hf => Update.runOn_require_of_error hf _ out) fun h => ?_
  obtain ⟨hrs, hsize⟩ := List.forall_mem_append.1 h
  obtain ⟨y, hy, -⟩ := hT.exists_forwardGives backend hrs
  exact ⟨y, hy out (hsize _ List.mem_cons_self)⟩

/-- The forward transform in place has no look at the buffer of its own. -/
theorem Built.forwardInPlace_validates (hT : T.Built isPrime) (backend : Backend)
    (input output : Word) (out : Array Word) :
    (T.forwardInPlace backend input output).Validates
      ((T.forwardRequirements input output out).map Requirement.check) out := by
  refine Update.validates_of_runs (fun f hf => Update.runOn_require_of_error hf _ out) fun h => ?_
  obtain ⟨y, -, hy⟩ := hT.exists_forwardGives backend h
  exact ⟨y, hy⟩

/-- The inverse transform looks at the factors and the operand, then at the size of the buffer. -/
theorem Built.inverse_validates (hT : T.Built isPrime) (backend : Backend) (input output : Word)
    (a out : Array Word) :
    (T.inverse backend input output a).Validates
      ((T.inverseRequirements input output a ++
        [Requirement.size .result T.degree out.size]).map Requirement.check) out := by
  refine Update.validates_of_runs (fun f hf => Update.runOn_require_of_error hf _ out) fun h => ?_
  obtain ⟨hrs, hsize⟩ := List.forall_mem_append.1 h
  obtain ⟨y, hy, -⟩ := hT.exists_inverseGives backend hrs
  exact ⟨y, hy out (hsize _ List.mem_cons_self)⟩

/-- The inverse transform in place has no look at the buffer of its own. -/
theorem Built.inverseInPlace_validates (hT : T.Built isPrime) (backend : Backend)
    (input output : Word) (out : Array Word) :
    (T.inverseInPlace backend input output).Validates
      ((T.inverseRequirements input output out).map Requirement.check) out := by
  refine Update.validates_of_runs (fun f hf => Update.runOn_require_of_error hf _ out) fun h => ?_
  obtain ⟨y, -, hy⟩ := hT.exists_inverseGives backend h
  exact ⟨y, hy⟩

end Transform

/-! ### The operations -/

/-- An operation with all its arguments but the first operand and the buffer. A transform has been
built, with whatever test for primes. -/
inductive Operation where
  | add (q : Word) (b : Array Word)
  | sub (q : Word) (b : Array Word)
  | addScalar (q s : Word)
  | subScalar (q s : Word)
  | mul (q factor : Word) (b : Array Word)
  | multiplyAdd (q s factor : Word) (addend : Option (Array Word))
  | reduce (q input output : Word)
  | addWhere (c : Comparison) (bound diff : Word)
  | subWhere (q : Word) (c : Comparison) (bound diff : Word)
  | forward {isPrime : Word → Bool} (T : Transform) (hT : T.Built isPrime) (input output : Word)
  | inverse {isPrime : Word → Bool} (T : Transform) (hT : T.Built isPrime) (input output : Word)

namespace Operation

open Kernel (Checked)

/-- The operation on an array beside the buffer. -/
def into (backend : Backend) (a : Array Word) : Operation → Update Unit
  | add q b => (Kernel.add q).write backend #v[a, b]
  | sub q b => (Kernel.sub q).write backend #v[a, b]
  | addScalar q s => (Kernel.addScalar q s).write backend #v[a]
  | subScalar q s => (Kernel.subScalar q s).write backend #v[a]
  | mul q factor b => (Kernel.mul q factor).write backend #v[a, b]
  | multiplyAdd q s factor none => (Kernel.scale q s factor).write backend #v[a]
  | multiplyAdd q s factor (some c) => (Kernel.scaleAdd q s factor).write backend #v[a, c]
  | reduce q input output => (Kernel.reduce q input output).write backend #v[a]
  | addWhere c bound diff => (Kernel.addWhere c bound diff).write backend #v[a]
  | subWhere q c bound diff => (Kernel.subWhere q c bound diff).write backend #v[a]
  | forward T _ input output => T.forward backend input output a
  | inverse T _ input output => T.inverse backend input output a

/-- The operation on the buffer. -/
def inPlace (backend : Backend) : Operation → Update Unit
  | add q b => (Kernel.add q).writeInPlace backend #v[b]
  | sub q b => (Kernel.sub q).writeInPlace backend #v[b]
  | addScalar q s => (Kernel.addScalar q s).writeInPlace backend #v[]
  | subScalar q s => (Kernel.subScalar q s).writeInPlace backend #v[]
  | mul q factor b => (Kernel.mul q factor).writeInPlace backend #v[b]
  | multiplyAdd q s factor none => (Kernel.scale q s factor).writeInPlace backend #v[]
  | multiplyAdd q s factor (some c) => (Kernel.scaleAdd q s factor).writeInPlace backend #v[c]
  | reduce q input output => (Kernel.reduce q input output).writeInPlace backend #v[]
  | addWhere c bound diff => (Kernel.addWhere c bound diff).writeInPlace backend #v[]
  | subWhere q c bound diff => (Kernel.subWhere q c bound diff).writeInPlace backend #v[]
  | forward T _ input output => T.forwardInPlace backend input output
  | inverse T _ input output => T.inverseInPlace backend input output

/-- What is looked at, in order, for a buffer of `m` words and the first operand `a`. -/
def checks (m : ℕ) (a : Array Word) : Operation → List Check
  | add q b | sub q b =>
      [.nonEmpty a, .size .result a.size m, .size .right a.size b.size, .modulus q 63,
        .elements .left a q.toNat, .elements .right b q.toNat]
  | addScalar q s | subScalar q s =>
      [.nonEmpty a, .size .result a.size m, .modulus q 63, .elements .left a q.toNat,
        .scalar .scalar s q.toNat]
  | mul q factor b =>
      [.factor .input factor [1, 2, 4], .nonEmpty a, .size .result a.size m,
        .size .right a.size b.size, .modulus q 62, .elements .left a (factor.toNat * q.toNat),
        .elements .right b (factor.toNat * q.toNat)]
  | multiplyAdd q s factor addend =>
      [.nonEmpty a, .size .result a.size m, .modulus q 62, .factor .input factor [1, 2, 4],
        .elements .multiplicand a (factor.toNat * q.toNat),
        .scalar .multiplier s (factor.toNat * q.toNat)] ++
      match addend with
      | none => []
      | some c =>
          [.size .addend a.size c.size, .elements .addend c (factor.toNat * q.toNat)]
  | reduce q input output =>
      [.nonEmpty a, .size .result a.size m, .modulus q 63,
        .of (input ≠ output) (.equalFactors input), .factor .output output [1, 2]] ++
      if input = q then []
      else [.factor .input input [2, 4], .elements .sole a (input.toNat * q.toNat)]
  | addWhere _ _ diff =>
      [.nonEmpty a, .size .result a.size m, .of (diff ≠ 0) (.invalidDiff diff .nonZero)]
  | subWhere q _ _ diff =>
      [.nonEmpty a, .size .result a.size m, .modulus q 63,
        .of (diff ≠ 0 ∧ diff < q) (.invalidDiff diff .insideModulus)]
  | forward T _ input output =>
      [.size .sole T.degree a.size, .factor .input input [1, 2, 4], .factor .output output [1, 4],
        .elements .sole a (input.toNat * T.modulus.toNat), .size .result T.degree m]
  | inverse T _ input output =>
      [.size .sole T.degree a.size, .factor .input input [1, 2], .factor .output output [1, 2],
        .elements .sole a (input.toNat * T.modulus.toNat), .size .result T.degree m]

/-- The same as requirements. -/
def requirements (m : ℕ) (a : Array Word) : Operation → List Requirement
  | add q b => (Kernel.add q).requirements m #v[a, b]
  | sub q b => (Kernel.sub q).requirements m #v[a, b]
  | addScalar q s => (Kernel.addScalar q s).requirements m #v[a]
  | subScalar q s => (Kernel.subScalar q s).requirements m #v[a]
  | mul q factor b => (Kernel.mul q factor).requirements m #v[a, b]
  | multiplyAdd q s factor none => (Kernel.scale q s factor).requirements m #v[a]
  | multiplyAdd q s factor (some c) => (Kernel.scaleAdd q s factor).requirements m #v[a, c]
  | reduce q input output => (Kernel.reduce q input output).requirements m #v[a]
  | addWhere c bound diff => (Kernel.addWhere c bound diff).requirements m #v[a]
  | subWhere q c bound diff => (Kernel.subWhere q c bound diff).requirements m #v[a]
  | forward T _ input output =>
      T.forwardRequirements input output a ++ [.size .result T.degree m]
  | inverse T _ input output =>
      T.inverseRequirements input output a ++ [.size .result T.degree m]

/-- The one list of checks is what each operation requires, in the same order. -/
theorem checks_eq (op : Operation) (m : ℕ) (a : Array Word) :
    op.checks m a = (op.requirements m a).map Requirement.check := by
  cases op with
  | add q b | sub q b =>
      -- the requirements of two arrays have a factor, which is 1 here
      simp only [checks, requirements]
      rw [← Nat.one_mul q.toNat]
      rfl
  | multiplyAdd q s factor addend => cases addend <;> rfl
  | reduce q input output =>
      simp only [checks, requirements, Kernel.reduce, List.map_append]
      split_ifs <;> rfl
  | _ => rfl

/-- Beside the buffer every operation looks at its checks in order and does nothing else that could
fail. -/
theorem into_validates (op : Operation) (backend : Backend) (a out : Array Word) :
    (op.into backend a).Validates (op.checks out.size a) out := by
  rw [checks_eq]
  cases op with
  | forward T hT input output => exact hT.forward_validates backend input output a out
  | inverse T hT input output => exact hT.inverse_validates backend input output a out
  | multiplyAdd q s factor addend => cases addend <;> exact Kernel.write_validates _ backend _ out
  | _ => exact Kernel.write_validates _ backend _ out

/-- In place every operation does the same, with the buffer for its first operand. -/
theorem inPlace_validates (op : Operation) (backend : Backend) (out : Array Word) :
    (op.inPlace backend).Validates (op.checks out.size out) out := by
  rw [checks_eq]
  cases op with
  -- a transform does not look at its buffer again; the first check fixes its size
  | forward T hT input output =>
      exact (hT.forwardInPlace_validates backend input output out).append
        (c := .size .result T.degree out.size)
        fun h => h (.size .sole T.degree out.size) List.mem_cons_self
  | inverse T hT input output =>
      exact (hT.inverseInPlace_validates backend input output out).append
        (c := .size .result T.degree out.size)
        fun h => h (.size .sole T.degree out.size) List.mem_cons_self
  | multiplyAdd q s factor addend =>
      cases addend <;> exact Kernel.writeInPlace_validates _ backend (by simp)
  | _ => exact Kernel.writeInPlace_validates _ backend (by simp)

/-! ### Checked runs -/

/-- The operation on an array beside the buffer, with every step checked. -/
def into? (backend : Backend) (a out : Array Word) :
    Operation → Option (Except Stop Unit × Array Word)
  | add q b => (Checked.add q).write? backend #v[a, b] out
  | sub q b => (Checked.sub q).write? backend #v[a, b] out
  | addScalar q s => (Checked.addScalar q s).write? backend #v[a] out
  | subScalar q s => (Checked.subScalar q s).write? backend #v[a] out
  | mul q factor b => (Checked.mul q factor).write? backend #v[a, b] out
  | multiplyAdd q s factor none => (Checked.scale q s factor).write? backend #v[a] out
  | multiplyAdd q s factor (some c) => (Checked.scaleAdd q s factor).write? backend #v[a, c] out
  | reduce q input output => (Checked.reduce q input output).write? backend #v[a] out
  | addWhere c bound diff => (Checked.addWhere c bound diff).write? backend #v[a] out
  | subWhere q c bound diff => (Checked.subWhere q c bound diff).write? backend #v[a] out
  | forward T _ input output => (T.forward backend input output a).run? out
  | inverse T _ input output => (T.inverse backend input output a).run? out

/-- The operation on the buffer, with every step checked. -/
def inPlace? (backend : Backend) (out : Array Word) :
    Operation → Option (Except Stop Unit × Array Word)
  | add q b => (Checked.add q).writeInPlace? backend #v[b] out
  | sub q b => (Checked.sub q).writeInPlace? backend #v[b] out
  | addScalar q s => (Checked.addScalar q s).writeInPlace? backend #v[] out
  | subScalar q s => (Checked.subScalar q s).writeInPlace? backend #v[] out
  | mul q factor b => (Checked.mul q factor).writeInPlace? backend #v[b] out
  | multiplyAdd q s factor none => (Checked.scale q s factor).writeInPlace? backend #v[] out
  | multiplyAdd q s factor (some c) =>
      (Checked.scaleAdd q s factor).writeInPlace? backend #v[c] out
  | reduce q input output => (Checked.reduce q input output).writeInPlace? backend #v[] out
  | addWhere c bound diff => (Checked.addWhere c bound diff).writeInPlace? backend #v[] out
  | subWhere q c bound diff => (Checked.subWhere q c bound diff).writeInPlace? backend #v[] out
  | forward T _ input output => (T.forwardInPlace backend input output).run? out
  | inverse T _ input output => (T.inverseInPlace backend input output).run? out

/-- Whatever the arguments, no check of the run beside the buffer fails. -/
theorem into?_eq (op : Operation) (backend : Backend) (a out : Array Word) :
    op.into? backend a out = some ((op.into backend a).runOn out) := by
  cases op with
  | forward T hT input output => exact ((forward T hT _ _).into_validates backend a out).run?_eq
  | inverse T hT input output => exact ((inverse T hT _ _).into_validates backend a out).run?_eq
  | multiplyAdd q s factor addend => cases addend <;> exact Checked.write?_eq ..
  | _ => exact Checked.write?_eq ..

/-- Whatever the arguments, no check of the run in place fails. -/
theorem inPlace?_eq (op : Operation) (backend : Backend) (out : Array Word) :
    op.inPlace? backend out = some ((op.inPlace backend).runOn out) := by
  cases op with
  | forward T hT input output =>
      exact ((forward T hT _ _).inPlace_validates backend out).run?_eq
  | inverse T hT input output =>
      exact ((inverse T hT _ _).inPlace_validates backend out).run?_eq
  | multiplyAdd q s factor addend => cases addend <;> exact Checked.writeInPlace?_eq ..
  | _ => exact Checked.writeInPlace?_eq ..

/-! ### What an accepted run has found -/

/-- The arrays that are read besides the first operand. -/
def others : Operation → List (Array Word)
  | add _ b | sub _ b | mul _ _ b => [b]
  | multiplyAdd _ _ _ addend => addend.toList
  | _ => []

/-- What is computed ahead of the elements exists and does not overflow. -/
def Prepared : Operation → Prop
  | addScalar q s => s ≤ q
  | mul q _ _ =>
      WideReciprocal.ofModulus? q = some (.ofModulus q) ∧ ∀ x, (WideReciprocal.ofModulus q).Fits x
  | multiplyAdd q s _ _ =>
      Multiplier.of? 64 q (s % q) = some (.ofResidue .bits64 q (s % q))
  | reduce q input _ => input = q → Multiplier.of? 64 q 1 = some (.ofResidue .bits64 q 1)
  | subWhere q _ _ _ => Multiplier.of? 64 q 1 = some (.ofResidue .bits64 q 1)
  | _ => True

/-- All that is taken for granted from the first write on: the operands are as long as the buffer
of `m` words, and what is prepared exists. -/
structure Ready (op : Operation) (m : ℕ) (a : Array Word) : Prop where
  size_eq : a.size = m
  others_size : ∀ b ∈ op.others, b.size = m
  prepared : op.Prepared

/-- A checked run that succeeds was ready. -/
theorem ready_of_into? {op : Operation} {backend : Backend} {a out y : Array Word}
    (h : op.into? backend a out = some (.ok (), y)) : op.Ready out.size a := by
  cases op with
  | add q b =>
      obtain ⟨ha, hb, -⟩ := (Checked.add q).of_write?_pair h
      exact ⟨ha, hb, trivial⟩
  | sub q b =>
      obtain ⟨ha, hb, -⟩ := (Checked.sub q).of_write?_pair h
      exact ⟨ha, hb, trivial⟩
  | addScalar q s =>
      obtain ⟨ha, rule, hrule⟩ := (Checked.addScalar q s).of_write?_sole h
      obtain ⟨gap, hgap, -⟩ := Option.bind_eq_some_iff.1 hrule
      exact ⟨ha, List.forall_mem_nil _, Word.le_of_sub?_eq hgap⟩
  | subScalar q s =>
      obtain ⟨ha, -⟩ := (Checked.subScalar q s).of_write?_sole h
      exact ⟨ha, List.forall_mem_nil _, trivial⟩
  | mul q factor b =>
      obtain ⟨ha, hb, rule, hrule⟩ := (Checked.mul q factor).of_write?_pair h
      obtain ⟨r, hr, -⟩ := Option.bind_eq_some_iff.1 hrule
      exact ⟨ha, hb, WideReciprocal.ofModulus?_of_eq_some hr, WideReciprocal.fits _⟩
  | multiplyAdd q s factor addend =>
      cases addend with
      | none =>
          obtain ⟨ha, rule, hrule⟩ := (Checked.scale q s factor).of_write?_sole h
          obtain ⟨t, ht, -⟩ := Option.bind_eq_some_iff.1 hrule
          exact ⟨ha, List.forall_mem_nil _, Checked.of_scaleTerm?_eq_some ht⟩
      | some c =>
          obtain ⟨ha, hc, rule, hrule⟩ := (Checked.scaleAdd q s factor).of_write?_pair h
          obtain ⟨t, ht, -⟩ := Option.bind_eq_some_iff.1 hrule
          exact ⟨ha, hc, Checked.of_scaleTerm?_eq_some ht⟩
  | reduce q input output =>
      obtain ⟨ha, rule, hrule⟩ := (Checked.reduce q input output).of_write?_sole h
      obtain ⟨t, ht, -⟩ := Option.bind_eq_some_iff.1 hrule
      refine ⟨ha, List.forall_mem_nil _, fun hinput => ?_⟩
      rw [Kernel.Reduction.ofFactors, if_pos hinput] at ht
      obtain ⟨m, hm, -⟩ := Option.bind_eq_some_iff.1 ht
      exact Checked.of?_of_eq_some hm
  | addWhere c bound diff =>
      obtain ⟨ha, -⟩ := (Checked.addWhere c bound diff).of_write?_sole h
      exact ⟨ha, List.forall_mem_nil _, trivial⟩
  | subWhere q c bound diff =>
      obtain ⟨ha, rule, hrule⟩ := (Checked.subWhere q c bound diff).of_write?_sole h
      obtain ⟨m, hm, -⟩ := Option.bind_eq_some_iff.1 hrule
      exact ⟨ha, List.forall_mem_nil _, Checked.of?_of_eq_some hm⟩
  | forward T hT input output | inverse T hT input output =>
      rw [into?_eq, Option.some_inj] at h
      have hall := (into_validates _ backend a out).ok_iff.1 (congrArg Prod.fst h)
      simp only [checks, List.forall_mem_cons] at hall
      obtain ⟨ha, -, -, -, hm, -⟩ := hall
      exact ⟨ha.trans hm.symm, List.forall_mem_nil _, trivial⟩

/-- Every operation, whatever its arguments, on every machine, beside the buffer and in place. It
succeeds exactly if all its checks hold; else it has the fault of the first that does not, and the
buffer is as it was. No load, store or preparation fails: the run with all of them checked is the
run. An accepted run was ready. -/
theorem validation_exact (op : Operation) (backend : Backend) (a out : Array Word) :
    (op.into backend a).Validates (op.checks out.size a) out ∧
      (op.inPlace backend).Validates (op.checks out.size out) out ∧
      op.into? backend a out = some ((op.into backend a).runOn out) ∧
      op.inPlace? backend out = some ((op.inPlace backend).runOn out) ∧
      ((∀ c ∈ op.checks out.size a, c.Holds) → op.Ready out.size a) := by
  have hinto := op.into_validates backend a out
  refine ⟨hinto, op.inPlace_validates backend out, op.into?_eq backend a out,
    op.inPlace?_eq backend out, fun h => ?_⟩
  have hrun : op.into? backend a out = some (.ok (), ((op.into backend a).runOn out).2) := by
    rw [op.into?_eq, ← hinto.ok_iff.2 h]
  exact ready_of_into? hrun

/-- A bound that no word reaches. -/
theorem validation_exact_widest :
    let op := reduce 9223372036854775783 4 1
    let a := #[18446744073709551615]
    (∀ c ∈ op.checks 1 a, c.Holds) ∧ ((op.into .portable a).runOn #[7]).1 = .ok () ∧
      op.Ready 1 a := by
  intro op a
  have hall : ∀ c ∈ op.checks 1 a, c.Holds := by
    simp only [op, checks, List.forall_mem_append]
    rw [if_neg (by decide)]
    simp only [List.forall_mem_cons, List.not_mem_nil, false_imp_iff, implies_true, and_true]
    refine ⟨⟨?_, rfl, ⟨?_, ?_⟩, ?_, ?_⟩, ?_, ?_⟩
    · exact one_ne_zero
    · decide
    · decide
    · exact show (4 : Word) ≠ 1 by decide
    · exact show (1 : Word) ∈ [1, 2] by decide
    · exact show (4 : Word) ∈ [2, 4] by decide
    · intro i hi
      obtain rfl : i = 0 := Nat.lt_one_iff.1 hi
      exact show 18446744073709551615 < 4 * 9223372036854775783 by decide
  obtain ⟨hinto, -, -, -, hready⟩ := validation_exact op .portable a #[7]
  exact ⟨hall, hinto.ok_iff.2 hall, hready hall⟩

-- Each operand has an element that is no residue; the first operand is looked at first.
example : ((add 17 #[17, 3]).into .eightLane #[3, 18]).runOn #[7, 7] =
    (.error (.refused (.elementOutOfBound .left 1 18 17)), #[7, 7]) := by
  cbv

end Operation

end Negacyclic
