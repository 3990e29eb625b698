import Negacyclic.Kernel.Conditional
import Negacyclic.Kernel.Product
import Negacyclic.Kernel.Reduction
import Negacyclic.Proofs.Kernel.Run
import Negacyclic.Proofs.Residue.WideReciprocal

/-!
# Checked runs of kernels

`Kernel.write` cannot break: it reads zeros past the end of an operand, drops what does not fit the
buffer, and takes the constants of its rule as they come. `Kernel.Checked.run?` is the same run
where each of these steps can. The sizes of the operands are compared before the loops, a load or a
store has to find its words, and the constants come from differences, remainders and quotients that
have to exist. Where one of them does not, the run has no result.

A kernel that accepts its arguments never gets there: its checked run has the outcome and the words
of the run itself (`Kernel.Checked.write?_eq`, `Kernel.Checked.writeInPlace?_eq`). A checked form
carries the proof of all that has to be known of the kernel for that, namely that its requirements
say how long its operands are and let its constants be prepared. The loops are the same for all
kernels, and one invariant carries them, that the buffer keeps its size (`steps?_eq`).

Beside the buffer and in place a kernel runs one loop. `operands` is what it reads from when the
buffer is as given; in place that changes with the buffer.
-/

namespace Negacyclic

variable {n m : ℕ}

/-! ### Loads and stores that can fail -/

/-- The words of the operands at position `i`, if each has one. -/
def words? (xs : Vector (Array Word) n) (i : ℕ) : Option (Vector Word n) :=
  if ∀ x ∈ xs, i < x.size then some (xs.map fun x => x.getD i 0) else none

/-- Put a word at position `i`, if there is such a position. -/
def put? (out : Array Word) (i : ℕ) (x : Word) : Option (Array Word) :=
  if i < out.size then some (out.setIfInBounds i x) else none

namespace Lanes

variable {L : ℕ}

/-- The registers of the operands from position `pos` on, if each has `L` words there. -/
def loads? (L : ℕ) (xs : Vector (Array Word) n) (pos : ℕ) : Option (Vector (Register L) n) :=
  if ∀ x ∈ xs, pos + L ≤ x.size then some (xs.map fun x => load L x pos) else none

/-- Put a register from position `pos` on, if there is room. -/
def store? (out : Array Word) (pos : ℕ) (x : Register L) : Option (Array Word) :=
  if pos + L ≤ out.size then some (store out pos x) else none

end Lanes

/-! ### Loops that can fail -/

/-- Overwrite position `i` with what `f` makes of the words of the operands there. -/
def wordStep? (f : Vector Word n → Option Word) (xs : Vector (Array Word) n) (i : ℕ)
    (out : Array Word) : Option (Array Word) := do
  put? out i (← f (← words? xs i))

/-- Overwrite the positions from `pos` on with a term on the registers of the operands there. -/
def registerStep? {L : ℕ} (R : Lanes L) (t : Term n) (xs : Vector (Array Word) n) (pos : ℕ)
    (out : Array Word) : Option (Array Word) := do
  Lanes.store? out pos (t.eval R (← Lanes.loads? L xs pos))

/-- The steps from `0` on, `k` of them, as long as none fails. -/
def steps? (step : ℕ → Array Word → Option (Array Word)) (k : ℕ) (out : Array Word) :
    Option (Array Word) :=
  Nat.fold k (fun i _ run => run.bind (step i)) (some out)

/-- The last of a number of registers after a head is inside. -/
theorem add_mul_add_le {head L c k size : ℕ} (h : head + k * L ≤ size) (hc : c + 1 ≤ k) :
    head + c * L + L ≤ size := by
  have := Nat.mul_le_mul_right L hc
  rw [Nat.succ_mul] at this
  omega

/-- Steps that succeed on buffers of `m` words, and keep that size, all succeed. -/
theorem steps?_eq (step : ℕ → Array Word → Array Word)
    {step? : ℕ → Array Word → Option (Array Word)} {k : ℕ} {out : Array Word}
    (hout : out.size = m)
    (hstep : ∀ i < k, ∀ x : Array Word, x.size = m → step? i x = some (step i x))
    (hsize : ∀ i (x : Array Word), (step i x).size = x.size) :
    steps? step? k out = some (Nat.fold k (fun i _ x => step i x) out) ∧
      (Nat.fold k (fun i _ x => step i x) out).size = m := by
  induction k with
  | zero => exact ⟨rfl, hout⟩
  | succ k ih =>
      obtain ⟨hrun, hrunSize⟩ := ih fun i hi => hstep i (Nat.lt_succ_of_lt hi)
      constructor
      · rw [steps?, Nat.fold_succ, ← steps?, hrun]
        exact hstep k k.lt_succ_self _ hrunSize
      · rw [Nat.fold_succ, hsize, hrunSize]

section steps

variable {xs : Vector (Array Word) n} {out : Array Word} (hxs : ∀ x ∈ xs, x.size = m)
  (hout : out.size = m)

include hxs hout

/-- Inside the arrays a word is read and written. -/
theorem wordStep?_eq (f : Vector Word n → Word) {i : ℕ} (hi : i < m) :
    wordStep? (fun env => some (f env)) xs i out =
      some (out.setIfInBounds i (f (xs.map fun x => x.getD i 0))) := by
  have hread : words? xs i = some (xs.map fun x => x.getD i 0) :=
    if_pos fun x hx => (hxs x hx).symm ▸ hi
  rw [wordStep?, hread]
  exact if_pos (hout.symm ▸ hi)

/-- Inside the arrays a register is loaded and stored. -/
theorem registerStep?_eq {L : ℕ} (R : Lanes L) (t : Term n) {pos : ℕ} (hpos : pos + L ≤ m) :
    registerStep? R t xs pos out = some (t.writeRegister R xs pos out) := by
  have hload : Lanes.loads? L xs pos = some (xs.map fun x => Lanes.load L x pos) :=
    if_pos fun x hx => (hxs x hx).symm ▸ hpos
  rw [registerStep?, hload]
  exact if_pos (hout.symm ▸ hpos)

end steps

/-! ### Rules -/

/-- What becomes of one element, where a function on words can fail. -/
inductive CheckedRule (n : ℕ) where
  | term (t : Term n)
  | wordwise (f : Vector Word n → Option Word)

namespace CheckedRule

/-- Overwrite `out` with the values on the operands, all of the size of the buffer. -/
def run? (backend : Backend) (r : CheckedRule n) (operands : Array Word → Vector (Array Word) n)
    (out : Array Word) : Option (Array Word) :=
  if ∀ x ∈ operands out, x.size = out.size then
    match r with
    | term t => do
        let head := out.size % backend.width
        let chunks := out.size / backend.width
        let body ← steps?
          (fun i x => wordStep? (fun env => some (t.evalWord env)) (operands x) i x) head out
        steps? (fun c x =>
          registerStep? backend.lanes t (operands x) (head + c * backend.width) x) chunks body
    | wordwise f => steps? (fun i x => wordStep? f (operands x) i x) out.size out
  else none

end CheckedRule

namespace Rule

/-- The rule, none of whose values fails. -/
def checked : Rule n → CheckedRule n
  | term t => .term t
  | wordwise f => .wordwise fun env => some (f env)

/-- Overwrite `out` with the values on the operands. -/
def run (backend : Backend) (r : Rule n) (operands : Array Word → Vector (Array Word) n)
    (out : Array Word) : Array Word :=
  match r with
  | term t =>
      let head := out.size % backend.width
      let chunks := out.size / backend.width
      let body := Nat.fold head (fun i _ x => t.writeWord (operands x) i x) out
      Nat.fold chunks (fun c _ x =>
        t.writeRegister backend.lanes (operands x) (head + c * backend.width) x) body
  | wordwise f =>
      Nat.fold out.size (fun i _ x =>
        x.setIfInBounds i (f ((operands x).map fun x => x.getD i 0))) out

/-- Beside the buffer the operands do not change while the loop runs. -/
theorem run_const (backend : Backend) (r : Rule n) (xs : Vector (Array Word) n)
    (out : Array Word) : r.run backend (fun _ => xs) out = r.mapInto backend xs out := by
  cases r with
  | term t => rfl
  | wordwise f => rfl

/-- In place the first operand is the buffer as it is. -/
theorem run_insertIdx (backend : Backend) (r : Rule (n + 1)) (rest : Vector (Array Word) n)
    (out : Array Word) :
    r.run backend (fun x => rest.insertIdx 0 x n.zero_le) out =
      r.mapInPlace backend rest out := by
  cases r with
  | term t =>
      simp only [run, Term.writeWord, Term.writeRegister, map_insertIdx_zero]
      rfl
  | wordwise f =>
      simp only [run, map_insertIdx_zero]
      rfl

/-- On operands of the size of the buffer the checked run of a rule gets through. -/
theorem checked_run? (backend : Backend) (r : Rule n)
    (operands : Array Word → Vector (Array Word) n) {out : Array Word}
    (hsizes : ∀ x : Array Word, x.size = out.size → ∀ y ∈ operands x, y.size = out.size) :
    r.checked.run? backend operands out = some (r.run backend operands out) := by
  unfold CheckedRule.run?
  rw [if_pos (hsizes out rfl)]
  cases r with
  | term t =>
      -- the head leaves the size that the registers start from
      have hdiv := Nat.mod_add_div' out.size backend.width
      have hword (i : ℕ) (hi : i < out.size % backend.width) (x : Array Word)
          (hx : x.size = out.size) :=
        wordStep?_eq (hsizes x hx) hx t.evalWord (i := i) (by omega)
      have hregister (c : ℕ) (hc : c < out.size / backend.width) (x : Array Word)
          (hx : x.size = out.size) :=
        registerStep?_eq (hsizes x hx) hx backend.lanes t
          (add_mul_add_le hdiv.le (Nat.succ_le_of_lt hc))
      obtain ⟨hhead, hsize⟩ := steps?_eq (fun i x => t.writeWord (operands x) i x) rfl hword
        fun i x => Array.size_setIfInBounds ..
      simp only [checked, hhead]
      exact (steps?_eq (fun c x => t.writeRegister backend.lanes (operands x) _ x) hsize
        hregister fun c x => t.size_writeRegister ..).1
  | wordwise f =>
      have hword (i : ℕ) (hi : i < out.size) (x : Array Word) (hx : x.size = out.size) :=
        wordStep?_eq (hsizes x hx) hx f hi
      exact (steps?_eq _ rfl hword fun i x => Array.size_setIfInBounds ..).1

end Rule

/-! ### Kernels -/

/-- The checked form of a kernel: its rule, prepared by steps that can fail, where none does and the
operands are as long as the buffer once the requirements hold. -/
structure Kernel.Checked (K : Kernel n) where
  /-- The rule, if what it needs can be prepared. -/
  rule? : Option (CheckedRule n)
  prepares (m : ℕ) (xs : Vector (Array Word) n) (h : ∀ r ∈ K.requirements m xs, r.Holds) :
    (∀ x ∈ xs, x.size = m) ∧ rule? = some K.rule.checked

namespace Kernel.Checked

/-- The run with every step checked. The rule is prepared when the requirements have been looked
at, not before. -/
def run? {K : Kernel n} (C : K.Checked) (backend : Backend)
    (operands : Array Word → Vector (Array Word) n) (out : Array Word) :
    Option (Except Stop Unit × Array Word) :=
  match verify (K.requirements out.size (operands out)) with
  | .ok () => do
      let rule ← C.rule?
      return (.ok (), ← rule.run? backend operands out)
  | .error f => some (.error (.refused f), out)

/-- The checked run on operands beside the buffer. -/
def write? {K : Kernel n} (C : K.Checked) (backend : Backend) (xs : Vector (Array Word) n)
    (out : Array Word) : Option (Except Stop Unit × Array Word) :=
  C.run? backend (fun _ => xs) out

/-- The checked run on the buffer and the operands `rest`. -/
def writeInPlace? {K : Kernel (n + 1)} (C : K.Checked) (backend : Backend)
    (rest : Vector (Array Word) n) (out : Array Word) :
    Option (Except Stop Unit × Array Word) :=
  C.run? backend (fun x => rest.insertIdx 0 x n.zero_le) out

/-- Beside the buffer the checked run gets through, as the run does. -/
theorem write?_eq {K : Kernel n} (C : K.Checked) (backend : Backend)
    (xs : Vector (Array Word) n) (out : Array Word) :
    C.write? backend xs out = some ((K.write backend xs).runOn out) := by
  rw [runOn_write, write?, run?]
  cases hverify : verify (K.requirements out.size xs) with
  | error f => rfl
  | ok _ =>
      obtain ⟨hsizes, hrule⟩ := C.prepares _ _ (verify_eq_ok_iff.1 hverify)
      have hrun := K.rule.checked_run? backend (fun _ => xs) fun _ _ => hsizes
      simp only [hrule, hrun, Rule.run_const, Option.bind_eq_bind, Option.bind_some]
      rfl

/-- In place the checked run gets through, as the run does. -/
theorem writeInPlace?_eq {K : Kernel (n + 1)} (C : K.Checked) (backend : Backend)
    (rest : Vector (Array Word) n) (out : Array Word) :
    C.writeInPlace? backend rest out = some ((K.writeInPlace backend rest).runOn out) := by
  rw [runOn_writeInPlace, writeInPlace?, run?]
  cases hverify : verify (K.requirements out.size (rest.insertIdx 0 out n.zero_le)) with
  | error f => rfl
  | ok _ =>
      obtain ⟨hsizes, hrule⟩ := C.prepares _ _ (verify_eq_ok_iff.1 hverify)
      -- the operands change with the buffer, but not their sizes
      have hkeeps (x : Array Word) (hx : x.size = out.size) :
          ∀ y ∈ rest.insertIdx 0 x n.zero_le, y.size = out.size := by
        intro y hy
        rcases Vector.mem_insertIdx.1 hy with rfl | hy
        · exact hx
        · exact hsizes y (Vector.mem_insertIdx.2 (.inr hy))
      have hrun := K.rule.checked_run? backend (fun x => rest.insertIdx 0 x n.zero_le) hkeeps
      simp only [hrule, hrun, Rule.run_insertIdx, Option.bind_eq_bind, Option.bind_some]
      rfl

/-- A checked run that succeeds has found its operands as long as the buffer and its rule
prepared. -/
theorem of_write?_eq_ok {K : Kernel n} (C : K.Checked) {backend : Backend}
    {xs : Vector (Array Word) n} {out y : Array Word}
    (h : C.write? backend xs out = some (.ok (), y)) :
    (∀ x ∈ xs, x.size = out.size) ∧ ∃ rule, C.rule? = some rule := by
  unfold write? run? at h
  split at h
  · obtain ⟨rule, hrule, h⟩ := Option.bind_eq_some_iff.1 h
    obtain ⟨y', hy', -⟩ := Option.bind_eq_some_iff.1 h
    unfold CheckedRule.run? at hy'
    split at hy'
    · exact ⟨‹_›, rule, hrule⟩
    · cases hy'
  · cases h

/-- A checked run on one array that succeeds has found it as long as the buffer. -/
theorem of_write?_sole {K : Kernel 1} (C : K.Checked) {backend : Backend} {a out y : Array Word}
    (h : C.write? backend #v[a] out = some (.ok (), y)) :
    a.size = out.size ∧ ∃ rule, C.rule? = some rule := by
  obtain ⟨hsizes, hrule⟩ := C.of_write?_eq_ok h
  exact ⟨hsizes a (by simp), hrule⟩

/-- A checked run on two arrays that succeeds has found both as long as the buffer. -/
theorem of_write?_pair {K : Kernel 2} (C : K.Checked) {backend : Backend}
    {a b out y : Array Word} (h : C.write? backend #v[a, b] out = some (.ok (), y)) :
    a.size = out.size ∧ (∀ x ∈ [b], x.size = out.size) ∧ ∃ rule, C.rule? = some rule := by
  obtain ⟨hsizes, hrule⟩ := C.of_write?_eq_ok h
  exact ⟨hsizes a (by simp), List.forall_mem_singleton.2 (hsizes b (by simp)), hrule⟩

/-! ### The kernels prepared -/

/-- A kernel whose rule takes nothing that could be missing. -/
def ofSizes (K : Kernel n) (h : ∀ (m : ℕ) (xs : Vector (Array Word) n),
    (∀ r ∈ K.requirements m xs, r.Holds) → ∀ x ∈ xs, x.size = m) : K.Checked where
  rule? := some K.rule.checked
  prepares m xs hreqs := ⟨h m xs hreqs, rfl⟩

/-- What holds of the one operand holds of all. -/
theorem forall_mem_sole {P : Array Word → Prop} {xs : Vector (Array Word) 1}
    (h : P (xs.get only)) : ∀ x ∈ xs, P x := by
  intro x hx
  obtain ⟨i, hi, rfl⟩ := Vector.mem_iff_getElem.1 hx
  obtain rfl : i = 0 := by omega
  exact h

/-- What holds of the two operands holds of all. -/
theorem forall_mem_pair {P : Array Word → Prop} {xs : Vector (Array Word) 2}
    (hfirst : P (xs.get first)) (hsecond : P (xs.get second)) : ∀ x ∈ xs, P x := by
  intro x hx
  obtain ⟨i, hi, rfl⟩ := Vector.mem_iff_getElem.1 hx
  obtain rfl | rfl : i = 0 ∨ i = 1 := by omega
  · exact hfirst
  · exact hsecond

section sums

/-- The requirements of two arrays say how long they are. -/
theorem sizes_of_binaryRequirements {q : Word} {bits factor : ℕ} {xs : Vector (Array Word) 2}
    (h : ∀ r ∈ binaryRequirements q bits factor m (xs.get first) (xs.get second), r.Holds) :
    ∀ x ∈ xs, x.size = m := by
  simp only [binaryRequirements, List.forall_mem_cons, Requirement.Holds] at h
  obtain ⟨-, hm, hsecond, -⟩ := h
  exact forall_mem_pair hm.symm (hsecond.trans hm.symm)

/-- The requirements of an array and a word say how long the array is, and that the word can be
taken from the modulus. -/
theorem of_scalarRequirements {q s : Word} {xs : Vector (Array Word) 1}
    (h : ∀ r ∈ scalarRequirements q s m (xs.get only), r.Holds) :
    (∀ x ∈ xs, x.size = m) ∧ s ≤ q := by
  simp only [scalarRequirements, List.forall_mem_cons, Requirement.Holds] at h
  obtain ⟨-, hm, -, -, hs, -⟩ := h
  exact ⟨forall_mem_sole hm.symm, UInt64.le_iff_toNat_le.2 hs.le⟩

/-- The sum of two arrays takes nothing but the modulus. -/
def add (q : Word) : (Kernel.add q).Checked :=
  ofSizes _ fun _ _ => sizes_of_binaryRequirements

/-- The difference of two arrays takes nothing but the modulus. -/
def sub (q : Word) : (Kernel.sub q).Checked :=
  ofSizes _ fun _ _ => sizes_of_binaryRequirements

/-- For the sum with a scalar the difference of the modulus and the word may not wrap. -/
def addScalar (q s : Word) : (Kernel.addScalar q s).Checked where
  rule? := do
    let gap ← Word.sub? q s
    return .term (.select .ge (.input only) (.word gap) (.sub (.input only) (.word gap))
      (.add (.input only) (.word s)))
  prepares m xs h := by
    obtain ⟨hsizes, hs⟩ := of_scalarRequirements h
    refine ⟨hsizes, ?_⟩
    rw [Word.sub?_eq_some hs]
    rfl

-- A word above the modulus has no such difference.
example : (addScalar 5 7).rule? = none := by
  cbv

/-- The difference with a scalar takes the word as it is. -/
def subScalar (q s : Word) : (Kernel.subScalar q s).Checked :=
  ofSizes _ fun _ _ h => (of_scalarRequirements h).1

end sums

section products

/-- For the product of two arrays the reciprocal has to exist, and no sum or product in its use may
exceed a double word. -/
def mul (q factor : Word) : (Kernel.mul q factor).Checked where
  rule? := do
    let r ← WideReciprocal.ofModulus? q
    return .wordwise fun env => r.mul? (env.get first) (env.get second)
  prepares m xs h := by
    obtain ⟨-, h⟩ := List.forall_mem_cons.1 h
    refine ⟨sizes_of_binaryRequirements h, ?_⟩
    simp only [binaryRequirements, List.forall_mem_cons, Requirement.Holds] at h
    obtain ⟨-, -, -, ⟨hq, -⟩, -⟩ := h
    rw [WideReciprocal.ofModulus?, if_neg (not_le_one_iff.2 hq)]
    simp only [WideReciprocal.mul?_eq]
    rfl

/-- A residue has a quotient at 64 bits. -/
theorem of?_eq_some {q w : Word} (h : w < q) :
    Multiplier.of? 64 q w = some (.ofResidue .bits64 q w) :=
  Multiplier.of?_of_lt (p := .bits64) h

/-- There is no other multiplier of a word than that of a residue. -/
theorem of?_of_eq_some {q w : Word} {m : Multiplier} (h : Multiplier.of? 64 q w = some m) :
    Multiplier.of? 64 q w = some (.ofResidue .bits64 q w) := by
  refine of?_eq_some ?_
  by_contra hge
  have hnone : Multiplier.of? 64 q w = none := if_neg hge
  rw [hnone] at h
  cases h

/-- `x * s mod q`, where the remainder and the quotient of the word have to exist. -/
def scaleTerm? (q s factor : Word) (x : Term n) : Option (Term n) := do
  let m ← Multiplier.of? 64 q (← Word.rem? s q)
  return .reduceOnce (.mulLazy .bits64 (reduceInput q factor x) (.word m.value)
    (.word m.quotient) (.word q)) (.word q)

/-- A modulus that is not zero prepares the product with a word. -/
theorem scaleTerm?_eq {q : Word} (hq : 0 < q) (s factor : Word) (x : Term n) :
    scaleTerm? q s factor x = some (scaleTerm q s factor x) := by
  rw [scaleTerm?, Word.rem?_eq_some hq, Option.bind_eq_bind, Option.bind_some,
    of?_eq_some (UInt64.mod_lt s hq)]
  rfl

/-- A product with a word that is prepared has the multiplier of its remainder. -/
theorem of_scaleTerm?_eq_some {q s factor : Word} {x t : Term n}
    (h : scaleTerm? q s factor x = some t) :
    Multiplier.of? 64 q (s % q) = some (.ofResidue .bits64 q (s % q)) := by
  obtain ⟨w, hw, h⟩ := Option.bind_eq_some_iff.1 h
  obtain ⟨m, hm, -⟩ := Option.bind_eq_some_iff.1 h
  obtain rfl := Word.eq_mod_of_rem?_eq hw
  exact of?_of_eq_some hm

/-- The requirements of a product with a word say how long the multiplicand is, and that the modulus
divides. -/
theorem of_scaleRequirements {q s factor : Word} {a : Array Word}
    (h : ∀ r ∈ scaleRequirements q s factor m a, r.Holds) : a.size = m ∧ 0 < q := by
  simp only [scaleRequirements, List.forall_mem_cons, Requirement.Holds] at h
  obtain ⟨-, hm, ⟨hq, -⟩, -⟩ := h
  exact ⟨hm.symm, UInt64.lt_iff_toNat_lt.2 (Nat.zero_lt_of_lt hq)⟩

/-- The product with a word is prepared by its term. -/
def scale (q s factor : Word) : (Kernel.scale q s factor).Checked where
  rule? := do
    return .term (← scaleTerm? q s factor (.input only))
  prepares m xs h := by
    obtain ⟨hm, hq⟩ := of_scaleRequirements h
    refine ⟨forall_mem_sole hm, ?_⟩
    rw [scaleTerm?_eq hq]
    rfl

/-- The multiply-add is prepared by the term of its product. -/
def scaleAdd (q s factor : Word) : (Kernel.scaleAdd q s factor).Checked where
  rule? := do
    let product ← scaleTerm? q s factor (.input first)
    return .term (.reduceOnce (.add product (reduceInput q factor (.input second))) (.word q))
  prepares m xs h := by
    obtain ⟨h, haddend⟩ := List.forall_mem_append.1 h
    obtain ⟨hm, hq⟩ := of_scaleRequirements h
    have hsecond : (xs.get second).size = (xs.get first).size := haddend _ List.mem_cons_self
    refine ⟨forall_mem_pair hm (hsecond.trans hm), ?_⟩
    rw [scaleTerm?_eq hq]
    rfl

end products

section reductions

/-- The requirements of a kernel on any words say how long the array is, and that the modulus has a
reciprocal. -/
theorem of_wordRequirements {q : Word} {xs : Vector (Array Word) 1} {rs : List Requirement}
    (h : ∀ r ∈ .nonEmpty (xs.get only) :: .size .result (xs.get only).size m ::
      .modulus q 63 :: rs, r.Holds) : (∀ x ∈ xs, x.size = m) ∧ 1 < q := by
  simp only [List.forall_mem_cons, Requirement.Holds] at h
  obtain ⟨-, hm, ⟨hq, -⟩, -⟩ := h
  exact ⟨forall_mem_sole hm.symm, UInt64.lt_iff_toNat_lt.2 hq⟩

/-- What becomes of one element in a reduction, where the reciprocal has to exist if the steps need
it. -/
def reductionTerm? (q : Word) : Reduction → Option (Term 1)
  | .fromWord full => do
      let m ← Multiplier.of? 64 q 1
      let r := .barrettLazy (.input only) (.word m.quotient) (.word q)
      return if full then .reduceOnce r (.word q) else r
  | r => some (r.term q)

/-- A modulus above 1 prepares every reduction. -/
theorem reductionTerm?_eq {q : Word} (hq : 1 < q) (r : Reduction) :
    reductionTerm? q r = some (r.term q) := by
  cases r with
  | fromWord full =>
      rw [reductionTerm?, of?_eq_some hq]
      rfl
  | fromTwice => rfl
  | fromFourfold full => rfl

/-- A reduction is prepared by the term that its two factors call for. -/
def reduce (q input output : Word) : (Kernel.reduce q input output).Checked where
  rule? := do
    return .term (← reductionTerm? q (Reduction.ofFactors q input output))
  prepares m xs h := by
    obtain ⟨hsizes, hq⟩ := of_wordRequirements (List.forall_mem_append.1 h).1
    refine ⟨hsizes, ?_⟩
    rw [reductionTerm?_eq hq]
    rfl

/-- The conditional sum takes its words as they are. -/
def addWhere (c : Comparison) (bound diff : Word) : (Kernel.addWhere c bound diff).Checked :=
  ofSizes _ fun m xs h => by
    simp only [Kernel.addWhere, List.forall_mem_cons, Requirement.Holds] at h
    exact forall_mem_sole h.2.1.symm

/-- For the conditional difference the reciprocal has to exist. -/
def subWhere (q : Word) (c : Comparison) (bound diff : Word) :
    (Kernel.subWhere q c bound diff).Checked where
  rule? := do
    let m ← Multiplier.of? 64 q 1
    let residue := .reduceOnce
      (.barrettLazy (.input only) (.word m.quotient) (.word q)) (.word q)
    return .term (.bind residue
      (.select c (.input first) (.word bound) (subTerm q (.input second) (.word diff))
        (.input second)))
  prepares m xs h := by
    obtain ⟨hsizes, hq⟩ := of_wordRequirements h
    refine ⟨hsizes, ?_⟩
    rw [of?_eq_some hq]
    rfl

end reductions

end Kernel.Checked

end Negacyclic
