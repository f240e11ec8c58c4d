import Mathlib
import SymCalc.Proofs.EvaluationRules

/-!
# Calls in progress

A call is put on the stack when the body of its function starts, and taken off when the body ends
with a value or by a return statement. Main statements: after a statement no call is in progress,
and what a statement comes to depends on the bindings only.
-/

namespace SymCalc

variable {M : Type}

namespace Eval

variable {α β : Type}

/-- With a value or by a return statement an evaluation ends with the calls in progress that there
were when it started. -/
def KeepsStack (p : Eval M α) : Prop :=
  ∀ m, match p m with
    | .ok _ t => t.stack = m.stack
    | .error (.returned _) t => t.stack = m.stack
    | .error _ _ => True

namespace KeepsStack

/-- One evaluation after another. -/
theorem bind {p : Eval M α} {k : α → Eval M β} (hp : KeepsStack p) (hk : ∀ a, KeepsStack (k a)) :
    KeepsStack (p >>= k) := by
  intro m
  have hfirst := hp m
  change match EStateM.bind p k m with
    | .ok _ t => t.stack = m.stack
    | .error (.returned _) t => t.stack = m.stack
    | .error _ _ => True
  rw [EStateM.bind]
  cases hpm : p m with
  | error x t =>
    rw [hpm] at hfirst
    cases x <;> exact hfirst
  | ok a t =>
    rw [hpm] at hfirst
    have hsecond := hk a t
    rw [show t.stack = m.stack from hfirst] at hsecond
    exact hsecond

/-- Elementary evaluations leave the calls in progress, whatever names they bind. -/
theorem closed : Closed (fun _ => True) fun α => @KeepsStack M α where
  pure _ _ := rfl
  throw x _ := by
    cases x with
    | returned v => rfl
    | fault cause => trivial
    | stray op => trivial
  bind := bind
  get _ := rfl
  moveTo _ _ := rfl
  close _ _ _ := rfl
  assign _ _ _ := rfl

/-- A call is taken off the stack when the body of the function has ended. -/
theorem invoke {run : List (Expr M) → Eval M (Value M)} (hrun : ∀ body, KeepsStack (run body))
    (frame : Frame M) (c : Closure M) : KeepsStack (Eval.invoke run frame c) := by
  intro m
  have hbody := hrun c.body
    { m with env := ⟨c.locals frame.args, m.env.made⟩, stack := frame :: m.stack }
  unfold Eval.invoke
  dsimp only
  generalize run c.body _ = result at hbody
  cases result with
  | ok v t => exact congrArg List.tail hbody
  | error x t =>
    cases x with
    | returned v => exact congrArg List.tail hbody
    | fault cause => trivial
    | stray op => trivial

end KeepsStack

end Eval

open Eval

variable [Numeric M]

/-- Every expression keeps the stack if the bodies of functions do. -/
theorem Expr.evalWith_keepsStack {calls : Calls M}
    (hcalls : ∀ run ∈ calls, ∀ body, KeepsStack (run body)) (e : Expr M) :
    KeepsStack (e.evalWith .standard calls) :=
  KeepsStack.closed.evalWith (fun run hrun => KeepsStack.invoke (hcalls run hrun)) e
    fun _ _ => trivial

/-- Statements keep the stack with any number of levels of calls left. -/
theorem Eval.block_keepsStack (levels : Nat) (statements : List (Expr M)) :
    KeepsStack (Eval.block .standard levels statements) := by
  induction levels generalizing statements with
  | zero =>
    exact KeepsStack.closed.evalBlockWith .unit fun e _ =>
      Expr.evalWith_keepsStack (fun run hrun => absurd hrun (Option.not_mem_none run)) e
  | succ levels ih =>
    refine KeepsStack.closed.evalBlockWith .unit fun e _ => Expr.evalWith_keepsStack ?_ e
    rintro run ⟨⟩ body
    exact ih body

/-- How the bodies of functions are run when so many levels of calls are left. -/
def Calls.left : Nat → Calls M
  | 0 => none
  | levels + 1 => some (Eval.block .standard levels)

/-- Statements are evaluated with the levels of calls that are left. -/
theorem Eval.block_eq (levels : Nat) (statements : List (Expr M)) :
    Eval.block .standard levels statements =
      Expr.evalBlockWith .standard (Calls.left levels) .unit statements := by
  cases levels <;> rfl

/-- Every expression keeps the stack with any number of levels of calls left. -/
theorem Expr.evalWith_left_keepsStack (levels : Nat) (e : Expr M) :
    Eval.KeepsStack (e.evalWith .standard (Calls.left levels)) := by
  refine evalWith_keepsStack (fun run hrun body => ?_) e
  cases levels with
  | zero => cases hrun
  | succ levels =>
    cases hrun
    exact Eval.block_keepsStack levels body

/-- Evaluating statements is evaluating the first one and then, unless it ended the evaluation,
the others. -/
theorem Expr.evalBlockWith_cons (calls : Calls M) (last : Value M) (e : Expr M)
    (es : List (Expr M)) (m : Machine M) :
    evalBlockWith .standard calls last (e :: es) m =
      match e.evalWith .standard calls m with
      | .ok v t => evalBlockWith .standard calls v es t
      | .error x t => .error x t := by
  rw [evalBlockWith]
  change EStateM.bind _ _ m = _
  rw [EStateM.bind]
  cases e.evalWith .standard calls m <;> rfl

/-- A single statement is evaluated as an expression. -/
theorem Eval.block_singleton (levels : Nat) (e : Expr M) (m : Machine M) :
    Eval.block .standard levels [e] m = e.evalWith .standard (Calls.left levels) m := by
  rw [block_eq, Expr.evalBlockWith_cons]
  cases e.evalWith .standard (Calls.left levels) m <;> rfl

/-- The position that an evaluation starts with does not matter: every kind of node first moves to
its own. -/
theorem Expr.evalWith_of_env (calls : Calls M) (e : Expr M) {m n : Machine M}
    (hstack : m.stack = n.stack) (henv : m.env = n.env) :
    e.evalWith .standard calls m = e.evalWith .standard calls n := by
  obtain ⟨env, pos, stack⟩ := m
  obtain ⟨env', pos', stack'⟩ := n
  obtain rfl : stack = stack' := hstack
  obtain rfl : env = env' := henv
  cases e <;> (rw [evalWith]; rfl)

namespace Machine

variable (limit : Nat) (statements : List (Expr M)) (statement : Expr M) {m : Machine M}

/-- After a run no call is in progress. -/
theorem stack_run (h : m.stack = []) : (m.run limit statements).2.stack = [] := by
  have hkeeps := Eval.block_keepsStack (limit - m.stack.length) statements m
  unfold run runUsing
  generalize Eval.block .standard (limit - m.stack.length) statements m = result at hkeeps
  cases result with
  | ok v t => exact Eq.trans hkeeps h
  | error x t => cases x <;> rfl

/-- A statement is run as a program of its own, up to the bindings that are left. -/
theorem runStatement_eq (m : Machine M) :
    (m.runStatement limit statement).1 = (m.run limit [statement]).1 ∧
      (m.runStatement limit statement).2.stack = (m.run limit [statement]).2.stack := by
  rcases m.runStatement_cases limit statement with h | h
  · rw [h]
    exact ⟨rfl, rfl⟩
  · rw [h]
    exact ⟨rfl, rfl⟩

/-- After a statement no call is in progress. -/
theorem stack_runStatement (h : m.stack = []) : (m.runStatement limit statement).2.stack = [] :=
  (runStatement_eq limit statement m).2.trans (stack_run limit [statement] h)

/-- What statements come to, and the bindings they leave, depend on the bindings, where no call is
in progress. If there is a statement the whole machine does. -/
theorem run_of_env {n : Machine M} (hm : m.stack = []) (hn : n.stack = []) (henv : m.env = n.env) :
    (m.run limit statements).1 = (n.run limit statements).1 ∧
      (m.run limit statements).2.env = (n.run limit statements).2.env ∧
      (statements ≠ [] → m.run limit statements = n.run limit statements) := by
  cases statements with
  | nil =>
    have hnothing (m : Machine M) : m.run limit [] = (.value .unit, m) := by
      rw [run, runUsing, Eval.block_eq]
      rfl
    rw [hnothing, hnothing]
    exact ⟨rfl, henv, fun hne => absurd rfl hne⟩
  | cons e es =>
    have hrun : m.run limit (e :: es) = n.run limit (e :: es) := by
      rw [run, run, runUsing, runUsing, hm, hn, Eval.block_eq, Expr.evalBlockWith_cons,
        Expr.evalBlockWith_cons, e.evalWith_of_env _ (hm.trans hn.symm) henv]
    rw [hrun]
    exact ⟨rfl, rfl, fun _ => rfl⟩

/-- What a statement comes to depends on the bindings, where no call is in progress. -/
theorem runStatement_of_env {n : Machine M} (hm : m.stack = []) (hn : n.stack = [])
    (henv : m.env = n.env) :
    m.runStatement limit statement = n.runStatement limit statement := by
  obtain ⟨-, -, hrun⟩ := run_of_env limit [statement] hm hn henv
  rw [runStatement, runStatement, hrun (List.cons_ne_nil statement []), henv]

end Machine

end SymCalc
