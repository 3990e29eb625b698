import Negacyclic.Kernel.Basic
import Negacyclic.Proofs.Lanes.Pointwise
import Negacyclic.Proofs.Word.Table

/-!
# Runs of kernels

A kernel either refuses, and the buffer is as it was, or it overwrites every position with the
value of its rule on the words of the operands there (`Kernel.writes_of_holds`). The machine
does not show, nor does it whether the buffer is the first operand (`Kernel.exists_gives`).
-/

namespace Negacyclic

namespace Update

/-- The step succeeds on every buffer of `n` words and leaves the words `y` in it. -/
def Writes (u : Update Unit) (n : ℕ) (y : Array Word) : Prop :=
  ∀ out : Array Word, out.size = n → u.runOn out = (.ok (), y)

end Update

/-- Both machines are lawful. This is all that the runs of kernels use of them. -/
theorem Backend.lanes_lawful (backend : Backend) : backend.lanes.Lawful := by
  cases backend with
  | portable => exact Lanes.portable_lawful 1
  | eightLane => exact Lanes.eight_lawful

namespace Rule

variable {n : ℕ}

/-- The value of a rule on words. -/
def evalWord : Rule n → Vector Word n → Word
  | term t => t.evalWord
  | wordwise f => f

/-- Every position receives the value on the words at it. -/
theorem mapInto_eq_ofFn (backend : Backend) (r : Rule n) (xs : Vector (Array Word) n)
    (out : Array Word) :
    r.mapInto backend xs out =
      Array.ofFn fun i : Fin out.size => r.evalWord (xs.map fun x => x.getD i 0) := by
  cases r with
  | term t => exact t.mapInto_eq_ofFn backend.lanes_lawful xs out
  | wordwise f =>
      have hsize := size_fold_setIfInBounds 0 out.size
        (fun i _ => f (xs.map fun x => x.getD i 0)) out
      have hget {i : ℕ} (hi : i < out.size) := getElem?_fold_setIfInBounds 0 out.size
        (fun i _ => f (xs.map fun x => x.getD i 0)) out hi
      simp only [Nat.zero_add] at hsize hget
      apply Array.ext (by simpa [mapInto] using hsize)
      intro i h₁ h₂
      rw [Array.size_ofFn] at h₂
      rw [← Option.some_inj, ← Array.getElem?_eq_getElem, ← Array.getElem?_eq_getElem]
      simp only [mapInto]
      rw [hget h₂, dif_pos ⟨Nat.zero_le _, h₂⟩, Array.getElem?_ofFn, dif_pos h₂]
      rfl

/-- In place the words that are overwritten are those of the first operand. -/
theorem mapInPlace_eq_mapInto (backend : Backend) (r : Rule (n + 1)) (rest : Vector (Array Word) n)
    (out : Array Word) :
    r.mapInPlace backend rest out = r.mapInto backend (rest.insertIdx 0 out n.zero_le) out := by
  cases r with
  | term t => exact t.mapInPlace_eq_mapInto backend.lanes_lawful rest out
  | wordwise f => exact fold_update_eq_fold_write f rest out out.size

end Rule

namespace Kernel

variable {n : ℕ}

/-- How a kernel ends and what it leaves. -/
theorem runOn_write (K : Kernel n) (backend : Backend) (xs : Vector (Array Word) n)
    (out : Array Word) :
    (K.write backend xs).runOn out = match verify (K.requirements out.size xs) with
      | .ok () => (.ok (), K.rule.mapInto backend xs out)
      | .error f => (.error (.refused f), out) := by
  change Update.runOn (Update.require (K.requirements out.size xs) >>= fun _ =>
    set (K.rule.mapInto backend xs out)) out = _
  unfold Update.require
  cases verify (K.requirements out.size xs) with
  | ok _ => rfl
  | error f => rfl

/-- How a kernel in place ends and what it leaves. -/
theorem runOn_writeInPlace (K : Kernel (n + 1)) (backend : Backend) (rest : Vector (Array Word) n)
    (out : Array Word) :
    (K.writeInPlace backend rest).runOn out =
      match verify (K.requirements out.size (rest.insertIdx 0 out n.zero_le)) with
      | .ok () => (.ok (), K.rule.mapInPlace backend rest out)
      | .error f => (.error (.refused f), out) := by
  change Update.runOn (Update.require (K.requirements out.size _) >>= fun _ =>
    set (K.rule.mapInPlace backend rest out)) out = _
  unfold Update.require
  cases verify (K.requirements out.size (rest.insertIdx 0 out n.zero_le)) with
  | ok _ => rfl
  | error f => rfl

/-- A kernel in place runs as the kernel beside the buffer on the words that the buffer holds. -/
theorem runOn_writeInPlace_eq (K : Kernel (n + 1)) (backend : Backend)
    (rest : Vector (Array Word) n) (out : Array Word) :
    (K.writeInPlace backend rest).runOn out =
      (K.write backend (rest.insertIdx 0 out n.zero_le)).runOn out := by
  rw [runOn_writeInPlace, runOn_write, Rule.mapInPlace_eq_mapInto]

/-- A kernel whose requirements hold for buffers of `m` words succeeds on them. -/
theorem writes_of_holds (K : Kernel n) (backend : Backend) (xs : Vector (Array Word) n) (m : ℕ)
    (h : ∀ r ∈ K.requirements m xs, r.Holds) :
    (K.write backend xs).Writes m
      (Array.ofFn fun i : Fin m => K.rule.evalWord (xs.map fun x => x.getD i 0)) := by
  rintro out rfl
  rw [runOn_write, verify_eq_ok_iff.2 h, ← K.rule.mapInto_eq_ofFn backend]

/-- A kernel succeeds exactly if its requirements hold. -/
theorem runOn_write_ok_iff (K : Kernel n) (backend : Backend) (xs : Vector (Array Word) n)
    (out : Array Word) :
    ((K.write backend xs).runOn out).1 = .ok () ↔ ∀ r ∈ K.requirements out.size xs, r.Holds := by
  rw [runOn_write, ← verify_eq_ok_iff]
  cases verify (K.requirements out.size xs) with
  | ok _ => exact iff_of_true rfl rfl
  | error f => exact iff_of_false nofun nofun

/-- A kernel whose requirements hold on the operands `xs` leaves at every position the value of its
rule on their words there, on every machine, in every buffer of the size of the first operand and
in place. -/
theorem exists_gives (K : Kernel (n + 1)) (a : Array Word) (rest : Vector (Array Word) n)
    (xs : Vector (Array Word) (n + 1)) (hxs : rest.insertIdx 0 a n.zero_le = xs)
    (h : ∀ r ∈ K.requirements a.size xs, r.Holds) :
    ∃ y : Array Word, (∀ backend, (K.write backend xs).Writes a.size y ∧
      (K.writeInPlace backend rest).runOn a = (.ok (), y)) ∧ y.size = a.size ∧
      ∀ i < a.size, ∃ env : Vector Word (n + 1), (∀ j, env.get j = (xs.get j).getD i 0) ∧
        y.getD i 0 = K.rule.evalWord env := by
  have hwrites := fun backend => writes_of_holds K backend xs a.size h
  refine ⟨_, fun backend => ⟨hwrites backend, ?_⟩, Array.size_ofFn, fun i hi => ⟨_, fun j => ?_,
    getD_ofFn _ 0 hi⟩⟩
  · rw [runOn_writeInPlace_eq, hxs]
    exact hwrites backend a rfl
  · simp [Vector.get]

/-- A kernel with one operand, by what its rule makes of each word of it. -/
theorem exists_gives_sole (K : Kernel 1) {a : Array Word} {P : Word → Word → Prop}
    (h : ∀ r ∈ K.requirements a.size #v[a], r.Holds)
    (hword : ∀ env : Vector Word 1, env.get only ∈ a → P (env.get only) (K.rule.evalWord env)) :
    ∃ y : Array Word, (∀ backend, (K.write backend #v[a]).Writes a.size y ∧
      (K.writeInPlace backend #v[]).runOn a = (.ok (), y)) ∧ y.size = a.size ∧
      ∀ i < a.size, P (a.getD i 0) (y.getD i 0) := by
  obtain ⟨y, hy, hsize, hvalue⟩ := exists_gives K a #v[] #v[a] (by simp) h
  refine ⟨y, hy, hsize, fun i hi => ?_⟩
  obtain ⟨env, henv, heq⟩ := hvalue i hi
  have hx : env.get only = a.getD i 0 := henv only
  rw [heq, ← hx]
  exact hword env (hx ▸ getD_mem hi 0)

/-- A kernel with two operands of one size, by what its rule makes of each pair of words. -/
theorem exists_gives_pair (K : Kernel 2) {a b : Array Word} {P : Word → Word → Word → Prop}
    (hb : b.size = a.size) (h : ∀ r ∈ K.requirements a.size #v[a, b], r.Holds)
    (hword : ∀ env : Vector Word 2, env.get first ∈ a → env.get second ∈ b →
      P (env.get first) (env.get second) (K.rule.evalWord env)) :
    ∃ y : Array Word, (∀ backend, (K.write backend #v[a, b]).Writes a.size y ∧
      (K.writeInPlace backend #v[b]).runOn a = (.ok (), y)) ∧ y.size = a.size ∧
      ∀ i < a.size, P (a.getD i 0) (b.getD i 0) (y.getD i 0) := by
  obtain ⟨y, hy, hsize, hvalue⟩ := exists_gives K a #v[b] #v[a, b] (by simp) h
  refine ⟨y, hy, hsize, fun i hi => ?_⟩
  obtain ⟨env, henv, heq⟩ := hvalue i hi
  have hx : env.get first = a.getD i 0 := henv first
  have hy : env.get second = b.getD i 0 := henv second
  rw [heq, ← hx, ← hy]
  exact hword env (hx ▸ getD_mem hi 0) (hy ▸ getD_mem (hb.symm ▸ hi) 0)

end Kernel

end Negacyclic
