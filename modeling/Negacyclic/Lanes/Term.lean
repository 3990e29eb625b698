import Negacyclic.Lanes.Basic

/-!
# Lane terms

A `Term n` is an expression over `n` inputs in the operations of `Lanes`. It says once what becomes
of one element; `Term.eval` runs it on the registers of any machine and `Term.evalWord` on single
words. `Term.getElem_eval` is the reason why the choice of machine never shows: on a lawful machine
every lane of the value is the value on the words of that lane.

`bind` names the value of a term for use in another, where it is the input after the last.
-/

namespace Negacyclic

/-- An expression over `n` inputs. -/
inductive Term : Nat → Type where
  | input {n : Nat} (i : Fin n) : Term n
  | word {n : Nat} (w : Word) : Term n
  | add {n : Nat} (x y : Term n) : Term n
  | sub {n : Nat} (x y : Term n) : Term n
  | mulLow {n : Nat} (x y : Term n) : Term n
  | mulHigh {n : Nat} (p : Precision) (x y : Term n) : Term n
  /-- The third term where the first two compare as stated, else the fourth. -/
  | select {n : Nat} (c : Comparison) (x y yes no : Term n) : Term n
  | reduceOnce {n : Nat} (x m : Term n) : Term n
  | mulLazy {n : Nat} (p : Precision) (x w r q : Term n) : Term n
  | barrettLazy {n : Nat} (x r q : Term n) : Term n
  | bind {n : Nat} (x : Term n) (body : Term (n + 1)) : Term n

namespace Term

variable {L : Nat}

/-- The value of a term on the registers of a machine. -/
def eval (R : Lanes L) : {n : Nat} → Term n → Vector (Register L) n → Register L
  | _, input i, env => env.get i
  | _, word w, _ => R.splat w
  | _, add x y, env => R.add (x.eval R env) (y.eval R env)
  | _, sub x y, env => R.sub (x.eval R env) (y.eval R env)
  | _, mulLow x y, env => R.mulLow (x.eval R env) (y.eval R env)
  | _, mulHigh p x y, env => R.mulHigh p (x.eval R env) (y.eval R env)
  | _, select c x y yes no, env =>
      R.select (R.compare c (x.eval R env) (y.eval R env)) (yes.eval R env) (no.eval R env)
  | _, reduceOnce x m, env => R.reduceOnce (x.eval R env) (m.eval R env)
  | _, mulLazy p x w r q, env =>
      R.mulLazy p (x.eval R env) (w.eval R env) (r.eval R env) (q.eval R env)
  | _, barrettLazy x r q, env => R.barrettLazy (x.eval R env) (r.eval R env) (q.eval R env)
  | _, bind x body, env => body.eval R (env.push (x.eval R env))

/-- The value of a term on words. -/
def evalWord : {n : Nat} → Term n → Vector Word n → Word
  | _, input i, env => env.get i
  | _, word w, _ => w
  | _, add x y, env => x.evalWord env + y.evalWord env
  | _, sub x y, env => x.evalWord env - y.evalWord env
  | _, mulLow x y, env => x.evalWord env * y.evalWord env
  | _, mulHigh p x y, env => Word.mulHigh p (x.evalWord env) (y.evalWord env)
  | _, select c x y yes no, env =>
      if c.holds (x.evalWord env) (y.evalWord env) then yes.evalWord env else no.evalWord env
  | _, reduceOnce x m, env => Word.reduceOnce (x.evalWord env) (m.evalWord env)
  | _, mulLazy p x w r q, env =>
      Word.mulLazy p (x.evalWord env) (w.evalWord env) (r.evalWord env) (q.evalWord env)
  | _, barrettLazy x r q, env =>
      Word.barrettLazy (x.evalWord env) (r.evalWord env) (q.evalWord env)
  | _, bind x body, env => body.evalWord (env.push (x.evalWord env))

/-- On a lawful machine every lane of the value is the value on the words of that lane. -/
theorem getElem_eval {R : Lanes L} (law : R.Lawful) {n : Nat} (t : Term n)
    (env : Vector (Register L) n) (i : Nat) (h : i < L) :
    (t.eval R env)[i] = t.evalWord (env.map fun x => x[i]) := by
  induction t with
  | input k => simp [eval, evalWord, Vector.get]
  | word w => simp [eval, evalWord, law.getElem_splat]
  | add x y hx hy => simp [eval, evalWord, law.getElem_add, hx, hy]
  | sub x y hx hy => simp [eval, evalWord, law.getElem_sub, hx, hy]
  | mulLow x y hx hy => simp [eval, evalWord, law.getElem_mulLow, hx, hy]
  | mulHigh p x y hx hy => simp [eval, evalWord, law.getElem_mulHigh, hx, hy]
  | select c x y yes no hx hy hyes hno =>
      simp [eval, evalWord, law.getElem_select, law.getElem_compare, hx, hy, hyes, hno]
  | reduceOnce x m hx hm => simp [eval, evalWord, law.getElem_reduceOnce, hx, hm]
  | mulLazy p x w r q hx hw hr hq =>
      simp [eval, evalWord, law.getElem_mulLazy, hx, hw, hr, hq]
  | barrettLazy x r q hx hr hq => simp [eval, evalWord, law.getElem_barrettLazy, hx, hr, hq]
  | bind x body hx hbody => simp [eval, evalWord, hbody, hx]

end Term

end Negacyclic
