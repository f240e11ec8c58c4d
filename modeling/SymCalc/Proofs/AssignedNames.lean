import Mathlib
import SymCalc.Proofs.EvaluationRules
import SymCalc.Proofs.Invariant
import SymCalc.Proofs.Magnitude

/-!
# Names that a statement assigns

An assignment binds a name in the bindings in force. A function has bindings of its own, and those
of the caller are in force again however its call ends; so what functions assign does not matter.
Main statement: however a run of statements ends, no binding is removed, and every name that is not
assigned in the statements, outside of the functions written there, is bound as before or still
unbound.
-/

namespace SymCalc

variable {M : Type} {writes : Text → Prop}

/-- Bindings after others: those differ in names of a kind only, and none is removed. -/
structure Bindings.Updates (writes : Text → Prop) (before after : Bindings M) : Prop where
  /-- Other names are bound as before, or still unbound. -/
  same : ∀ name, ¬writes name → after.find? name = before.find? name
  /-- What was bound is bound. -/
  kept : ∀ name, before.find? name ≠ none → after.find? name ≠ none

namespace Bindings.Updates

variable {before after : Bindings M}

/-- The same bindings. -/
theorem refl (bs : Bindings M) : Updates writes bs bs := ⟨fun _ _ => rfl, fun _ h => h⟩

/-- Binding a name of the kind. -/
theorem insert (h : Updates writes before after) {name : Text} (hname : writes name)
    (value : Value M) : Updates writes before (after.insert name value) := by
  constructor
  · intro other hother
    have hne : other ≠ name := by
      rintro rfl
      exact hother hname
    rw [find?_insert_of_ne hne]
    exact h.same other hother
  · intro other hbound
    by_cases heq : other = name
    · rw [heq, find?_insert_self]
      exact Option.some_ne_none value
    · rw [find?_insert_of_ne heq]
      exact h.kept other hbound

end Bindings.Updates

namespace Eval

variable {α : Type}

/-- However an evaluation ends, it has changed names of a kind only, and removed none. -/
def Confined (writes : Text → Prop) (p : Eval M α) : Prop :=
  ∀ before : Bindings M,
    Keeps (fun m => before.Updates writes m.env.bindings) (fun _ => True) (fun _ => True) p

namespace Confined

/-- Elementary evaluations bind names of the kind. -/
theorem closed : Closed writes fun α => @Confined M α writes where
  pure _ _ := .pure trivial
  throw _ _ := .throw trivial
  bind hp hk before := (hp before).bind fun a _ => hk a before
  get _ := Keeps.get.mono fun _ _ => trivial
  moveTo _ _ := .modify fun _ h => h
  close _ _ _ _ h := ⟨h, trivial⟩
  assign value hname _ := .modify fun _ h => h.insert hname value

/-- However a call ends, the bindings of the caller are in force again. -/
theorem invoke (run : List (Expr M) → Eval M (Value M)) (frame : Frame M) (c : Closure M) :
    Confined writes (Eval.invoke run frame c) := by
  intro before m hm
  unfold Eval.invoke
  dsimp only
  generalize run c.body _ = result
  cases result with
  | ok v t => exact ⟨hm, trivial⟩
  | error x t => cases x <;> exact ⟨hm, trivial⟩

variable [Numeric M]

/-- An expression changes the names that it assigns, whatever the functions do that it calls. -/
theorem evalWith (calls : Calls M) (e : Expr M) (h : ∀ name, e.Assigns name → writes name) :
    Confined writes (e.evalWith .standard calls) :=
  closed.evalWith (fun run _ => invoke run) e h

/-- Statements change the names that they assign. -/
theorem block (levels : Nat) (statements : List (Expr M)) :
    Confined (fun name => ∃ e ∈ statements, e.Assigns name)
      (Eval.block .standard levels statements) := by
  have hstatement (calls : Calls M) : ∀ e ∈ statements,
      Confined (fun name => ∃ e ∈ statements, e.Assigns name) (e.evalWith .standard calls) :=
    fun e he => evalWith calls e fun _ h => ⟨e, he, h⟩
  cases levels with
  | zero => exact closed.evalBlockWith .unit (hstatement none)
  | succ levels =>
    exact closed.evalBlockWith .unit (hstatement (some (Eval.block .standard levels)))

end Confined

end Eval

namespace Machine

variable [Numeric M]

/-- A run changes the names that its statements assign, however it ends. -/
theorem updates_run (limit : Nat) (statements : List (Expr M)) (m : Machine M) :
    m.env.bindings.Updates (fun name => ∃ e ∈ statements, e.Assigns name)
      (m.run limit statements).2.env.bindings := by
  have hblock := Eval.Confined.block (limit - m.stack.length) statements m.env.bindings m (.refl _)
  unfold run runUsing
  generalize Eval.block .standard (limit - m.stack.length) statements m = result at hblock
  cases result with
  | ok v t => exact hblock.1
  | error x t => cases x <;> exact hblock.1

/-- A single statement changes the names that it assigns, and none if it fails. -/
theorem updates_runStatement (limit : Nat) (e : Expr M) (m : Machine M) :
    m.env.bindings.Updates e.Assigns (m.runStatement limit e).2.env.bindings := by
  have hrun := updates_run limit [e] m
  simp only [List.mem_singleton, exists_eq_left] at hrun
  rcases m.runStatement_cases limit e with h | h
  · rw [h]
    exact hrun
  · rw [h]
    exact .refl _

end Machine

/-- The name of an assignment that is made is bound to the value of the right side. -/
theorem Expr.find?_of_assign [Numeric M] {calls : Calls M} {pos : Position} {target : Ref}
    {right : Expr M} {m t : Machine M} {u : Value M}
    (h : (Expr.assign pos target right).evalWith .standard calls m = .ok u t) :
    ∃ v s, right.evalWith .standard calls { m with pos := pos } = .ok v s ∧
      t.env.bindings.find? target.name = some v := by
  rw [evalWith] at h
  obtain ⟨_, _, hmoved, h⟩ := exists_of_bind_eq_ok h
  cases hmoved
  obtain ⟨v, s, hright, h⟩ := exists_of_bind_eq_ok h
  cases h
  exact ⟨v, s, hright, Bindings.find?_insert_self _ _ _⟩

/-- Evaluation writes what the statements assign, and nothing else. However a run of statements
ends, on any machine, no binding is removed, and every name that no statement assigns outside of
the functions written in it has the value it had, or is still unbound, whatever functions are called
and whatever these assign. The same holds of a single statement. An assignment that is made binds
its name to the value of its right side. -/
theorem evaluation_writes_only_assigned_names [Numeric M] :
    (∀ (limit : Nat) (statements : List (Expr M)) (m : Machine M),
      let left := (m.run limit statements).2.env.bindings
      (∀ name, m.env.bindings.find? name ≠ none → left.find? name ≠ none) ∧
      ∀ name, (∀ e ∈ statements, ¬e.Assigns name) →
        left.find? name = m.env.bindings.find? name) ∧
    (∀ (limit : Nat) (e : Expr M) (m : Machine M),
      let left := (m.runStatement limit e).2.env.bindings
      (∀ name, m.env.bindings.find? name ≠ none → left.find? name ≠ none) ∧
      ∀ name, ¬e.Assigns name → left.find? name = m.env.bindings.find? name) ∧
    ∀ (calls : Calls M) (pos : Position) (target : Ref) (right : Expr M) (m t : Machine M)
      (u : Value M), (Expr.assign pos target right).evalWith .standard calls m = .ok u t →
        ∃ v s, right.evalWith .standard calls { m with pos := pos } = .ok v s ∧
          t.env.bindings.find? target.name = some v := by
  refine ⟨fun limit statements m => ?_, fun limit e m => ?_, fun _ _ _ _ _ _ _ h =>
    Expr.find?_of_assign h⟩
  · have hrun := m.updates_run limit statements
    refine ⟨hrun.kept, fun name hname => hrun.same name ?_⟩
    rintro ⟨e, he, hassigns⟩
    exact hname e he hassigns
  · have hrun := m.updates_runStatement limit e
    exact ⟨hrun.kept, hrun.same⟩

/-- A statement assigns `y` and then calls a function that assigns `x`, which the caller has bound
too, and fails at a name that is missing. The run leaves `y` bound, and `x` as it was. -/
theorem failing_call_leaves_names_of_caller :
    let e : Expr ℚ := .tuple ⟨1, 1⟩
      [.assign ⟨1, 2⟩ ⟨⟨1, 2⟩, "y"⟩ (.literal ⟨1, 6⟩ (.boolean true)), .call ⟨1, 12⟩ "f" []]
    let body : List (Expr ℚ) := [
      .assign ⟨2, 1⟩ ⟨⟨2, 1⟩, "x"⟩ (.literal ⟨2, 5⟩ (.boolean true)), .reference ⟨⟨3, 1⟩, "q"⟩]
    let m : Machine ℚ :=
      { env := ⟨[("f", .closure ⟨0, [], [], body⟩), ("x", .boolean false)], 1⟩ }
    ¬e.Assigns "x" ∧ (∃ f, (m.run 10 [e]).1 = .failure f ∧ f.fault = .undefined "q") ∧
      (m.run 10 [e]).2.env.bindings.find? "x" = some (.boolean false) ∧
      (m.run 10 [e]).2.env.bindings.find? "y" = some (.boolean true) := by
  intro e body m
  have hassigns : ¬e.Assigns "x" := by
    rintro ⟨pos, target, right, hholds, hname⟩
    have hnode : .assign pos target right ∈ e :: e.parts ++ e.parts.flatMap Expr.parts :=
      hholds.mem_of_parts List.mem_cons_self (by simp [e, Expr.parts, Expr.children])
    simp only [e, Expr.parts, Expr.children, List.flatMap_cons, List.flatMap_nil, List.append_nil,
      List.cons_append, List.nil_append, List.mem_cons, List.not_mem_nil, reduceCtorEq, or_false,
      false_or, Expr.assign.injEq] at hnode
    obtain ⟨-, rfl, -⟩ := hnode
    exact absurd hname (by decide)
  obtain ⟨hrun, -⟩ := evaluation_writes_only_assigned_names (M := ℚ)
  refine ⟨hassigns, ⟨_, rfl, rfl⟩, ?_, rfl⟩
  rw [(hrun 10 [e] m).2 "x" (List.forall_mem_singleton.mpr hassigns)]
  rfl

end SymCalc
