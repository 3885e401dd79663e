import Mathlib.Logic.Basic

/-!
# Recursion with a limit

A function that calls itself is given by its body: for an argument, a program that returns or calls the
function and goes on with the result.  `Prog.eval body n x` makes at most `n` calls inside each other; the
body gets a limit, too, and `none` says that a limit was too small.

* `limit_mono`, `ite_mono`  a larger limit changes no result;
* `eval_endless`            a call that begins with the same call has no result, whatever the limit.
-/

namespace OsZ

theorem limit_mono {α : Type*} {f : Nat → Option α} (hf : ∀ n a, f n = some a → f (n + 1) = some a) {n m : Nat} {a : α}
    (hnm : n ≤ m) (h : f n = some a) : f m = some a := by
  induction hnm with
  | refl => exact h
  | step _ ih => exact hf _ a ih

theorem ite_mono {α : Type*} {c : Prop} [Decidable c] {x x' y y' : Option α} {a : α} (hx : x = some a → x' = some a)
    (hy : y = some a → y' = some a) (h : (if c then x else y) = some a) : (if c then x' else y') = some a := by
  split at h
  · rw [if_pos (by assumption)]
    exact hx h
  · rw [if_neg (by assumption)]
    exact hy h

inductive Prog (X R : Type) where
  | ret (r : R)
  | call (x : X) (k : R → Prog X R)

namespace Prog

section
variable {X R : Type}

/-- with the function `f` for the calls -/
def run (f : X → Option R) : Prog X R → Option R
  | ret r => some r
  | call x k => (f x).bind fun r => (k r).run f

def eval (body : Nat → X → Option (Prog X R)) : Nat → X → Option R
  | 0, _ => none
  | n+1, x => (body n x).bind fun p => p.run (eval body n)

variable {body : Nat → X → Option (Prog X R)}

theorem eval_ret {n : Nat} {x : X} {r : R} (h : body n x = some (ret r)) : eval body (n + 1) x = some r := by
  rw [eval, h]
  rfl

theorem eval_tail {n : Nat} {x y : X} (h : body n x = some (call y ret)) : eval body (n + 1) x = eval body n y := by
  rw [eval, h, Option.bind_some, run]
  cases eval body n y with
  | none => rfl
  | some r => rfl

theorem eval_endless (hb : ∀ n x p, body n x = some p → body (n + 1) x = some p) {m : Nat} {x : X} {k : R → Prog X R}
    (h : body m x = some (call x k)) (n : Nat) : eval body n x = none := by
  induction n with
  | zero => rfl
  | succ n ih =>
    rw [eval]
    cases hn : body n x with
    | none => rfl
    | some p =>
      -- with the larger one of the two limits the body is the same program
      have hl := limit_mono (fun n => hb n x) (Nat.le_max_left n m) hn
      have hr := limit_mono (fun n => hb n x) (Nat.le_max_right n m) h
      obtain rfl : p = call x k := Option.some.inj (hl.symm.trans hr)
      rw [Option.bind_some, run, ih]
      rfl

end

end Prog

end OsZ
