import Mathlib
import SymCalc.Machine.Eval
import SymCalc.Proofs.Nodes

/-!
# What holds of every evaluation

An evaluation is put together from elementary ones. Main statement: a property that these have, and
that evaluations one after the other have if each has it, holds of the evaluation of every
expression, if it holds of the calls that the expression makes and of the names that it assigns.
-/

namespace SymCalc

variable {M : Type}

/-- A tree assigns a name, outside of the functions written in it. -/
def Expr.Assigns (e : Expr M) (name : Text) : Prop :=
  ∃ pos target right, e.Holds (.assign pos target right) ∧ target.name = name

/-- What is assigned in a part of a node is assigned in the node. -/
theorem Expr.Assigns.of_part {e x : Expr M} {name : Text} (mem : x ∈ e.parts)
    (h : x.Assigns name) : e.Assigns name := by
  obtain ⟨pos, target, right, hholds, hname⟩ := h
  exact ⟨pos, target, right, hholds.of_part mem, hname⟩

/-- A property of evaluations that elementary ones have, with the assignment of names of a kind, and
that evaluations one after the other have if each has it. -/
structure Eval.Closed (writes : Text → Prop) (C : (α : Type) → Eval M α → Prop) : Prop where
  /-- A result at hand. -/
  pure {α : Type} (a : α) : C α (Pure.pure a)
  /-- An end without a result. -/
  throw {α : Type} (x : Exit M) : C α (MonadExcept.throw x)
  /-- One evaluation after another. -/
  bind {α β : Type} {p : Eval M α} {k : α → Eval M β} (hp : C α p) (hk : ∀ a, C β (k a)) :
    C β (p >>= k)
  /-- Looking at the machine. -/
  get : C (Machine M) MonadState.get
  /-- Moving to a position. -/
  moveTo (pos : Position) : C Unit (Eval.moveTo pos)
  /-- Making a function. -/
  close (params : List Text) (body : List (Expr M)) : C (Value M) (Eval.close params body)
  /-- Binding a name. -/
  assign {name : Text} (value : Value M) (h : writes name) : C Unit (Eval.assign name value)

namespace Eval.Closed

variable {writes : Text → Prop} {C : (α : Type) → Eval M α → Prop} {α : Type}

/-- A fault. -/
theorem raise (hC : Closed writes C) (fault : Fault) : C α (Eval.raise fault) :=
  hC.throw (.fault fault)

/-- The result of an operation, or its fault. -/
theorem lift (hC : Closed writes C) (x : Except Fault α) : C α (Eval.lift x) := by
  cases x with
  | ok a => exact hC.pure a
  | error fault => exact hC.raise fault

/-- The value of a name. -/
theorem lookup (hC : Closed writes C) (name : Text) : C (Value M) (Eval.lookup name) := by
  refine hC.bind hC.get fun m => ?_
  cases m.env.bindings.find? name with
  | none => exact hC.raise _
  | some v => exact hC.pure v

/-- The function that a name is bound to. -/
theorem callee (hC : Closed writes C) (name : Text) (args : Nat) :
    C (Closure M) (Eval.callee name args) := by
  refine hC.bind (hC.lookup name) fun v => ?_
  cases v with
  | closure c =>
    dsimp only
    split
    · exact hC.pure c
    · exact hC.raise _
  | _ => exact hC.raise _

variable [Numeric M] {calls : Calls M} {es : List (Expr M)}

/-- Several expressions one after the other. -/
theorem evalAllWith (hC : Closed writes C)
    (h : ∀ e ∈ es, C (Value M) (e.evalWith .standard calls)) :
    C (List (Value M)) (Expr.evalAllWith .standard calls es) := by
  induction es with
  | nil => exact hC.pure []
  | cons e es ih =>
    obtain ⟨he, hes⟩ := List.forall_mem_cons.mp h
    rw [Expr.evalAllWith]
    exact hC.bind he fun v => hC.bind (ih hes) fun vs => hC.pure (v :: vs)

/-- The cells of a row one after the other. -/
theorem evalCellsWith (hC : Closed writes C)
    (h : ∀ e ∈ es, C (Value M) (e.evalWith .standard calls)) :
    C (List (Scalar M)) (Expr.evalCellsWith .standard calls es) := by
  induction es with
  | nil => exact hC.pure []
  | cons e es ih =>
    obtain ⟨he, hes⟩ := List.forall_mem_cons.mp h
    rw [Expr.evalCellsWith]
    refine hC.bind he fun v => ?_
    cases v.asScalar? with
    | none => exact hC.raise _
    | some s => exact hC.bind (ih hes) fun cells => hC.pure (s :: cells)

/-- The rows of a matrix one after the other. -/
theorem evalRowsWith (hC : Closed writes C) {rows : List (List (Expr M))}
    (h : ∀ e ∈ rows.flatten, C (Value M) (e.evalWith .standard calls)) :
    C (List (List (Scalar M))) (Expr.evalRowsWith .standard calls rows) := by
  induction rows with
  | nil => exact hC.pure []
  | cons row rows ih =>
    rw [List.flatten_cons, List.forall_mem_append] at h
    rw [Expr.evalRowsWith]
    exact hC.bind (hC.evalCellsWith h.1) fun cells =>
      hC.bind (ih h.2) fun rest => hC.pure (cells :: rest)

/-- Statements one after the other. -/
theorem evalBlockWith (hC : Closed writes C) (last : Value M)
    (h : ∀ e ∈ es, C (Value M) (e.evalWith .standard calls)) :
    C (Value M) (Expr.evalBlockWith .standard calls last es) := by
  induction es generalizing last with
  | nil => exact hC.pure last
  | cons e es ih =>
    obtain ⟨he, hes⟩ := List.forall_mem_cons.mp h
    rw [Expr.evalBlockWith]
    exact hC.bind he fun v => ih v hes

/-- Every expression, if the property holds of the calls that are made, and the names that the
expression assigns are of the kind. -/
theorem evalWith (hC : Closed writes C)
    (hcalls : ∀ run ∈ calls, ∀ frame c, C (Value M) (Eval.invoke run frame c)) (e : Expr M)
    (he : ∀ name, e.Assigns name → writes name) : C (Value M) (e.evalWith .standard calls) := by
  induction e using Expr.children_induction with
  | h e ih =>
  have hpart (x : Expr M) (mem : x ∈ e.children) (hparts : e.parts = e.children) :
      C (Value M) (x.evalWith .standard calls) :=
    ih x mem fun name hname => he name (hname.of_part (hparts ▸ mem))
  cases e with
  | literal pos c =>
    rw [Expr.evalWith]
    exact hC.bind (hC.moveTo pos) fun _ => hC.pure _
  | reference ref =>
    rw [Expr.evalWith]
    exact hC.bind (hC.moveTo ref.pos) fun _ => hC.lookup ref.name
  | operator op =>
    rw [Expr.evalWith]
    exact hC.bind (hC.moveTo op.pos) fun _ => hC.throw _
  | unary pos op right =>
    rw [Expr.evalWith]
    refine hC.bind (hC.moveTo pos) fun _ =>
      hC.bind (hpart right (by simp [Expr.children]) rfl) fun v => ?_
    exact hC.bind (hC.moveTo op.pos) fun _ => hC.lift _
  | binary pos left op right =>
    rw [Expr.evalWith]
    refine hC.bind (hC.moveTo pos) fun _ =>
      hC.bind (hpart left (by simp [Expr.children]) rfl) fun u => ?_
    refine hC.bind (hpart right (by simp [Expr.children]) rfl) fun v => ?_
    exact hC.bind (hC.moveTo op.pos) fun _ => hC.lift _
  | assign pos target right =>
    rw [Expr.evalWith]
    refine hC.bind (hC.moveTo pos) fun _ =>
      hC.bind (hpart right (by simp [Expr.children]) rfl) fun v => ?_
    have htarget : writes target.name := he _ ⟨pos, target, right, .root, rfl⟩
    exact hC.bind (hC.assign v htarget) fun _ => hC.pure _
  | tuple pos items =>
    rw [Expr.evalWith]
    refine hC.bind (hC.moveTo pos) fun _ =>
      hC.bind (hC.evalAllWith fun x mem => hpart x mem rfl) fun vs => ?_
    split <;> exact hC.pure _
  | matrix pos rows =>
    rw [Expr.evalWith]
    refine hC.bind (hC.moveTo pos) fun _ =>
      hC.bind (hC.evalRowsWith fun x mem => hpart x mem rfl) fun cells => ?_
    exact hC.bind (hC.moveTo pos) fun _ => hC.bind (hC.lift _) fun m => hC.pure _
  | ifThen pos test yes =>
    rw [Expr.evalWith]
    refine hC.bind (hC.moveTo pos) fun _ =>
      hC.bind (hpart test (by simp [Expr.children]) rfl) fun v => ?_
    split
    · exact hpart yes (by simp [Expr.children]) rfl
    · exact hC.pure _
    · exact hC.bind (hC.moveTo pos) fun _ => hC.raise _
  | ifElse pos test yes no =>
    rw [Expr.evalWith]
    refine hC.bind (hC.moveTo pos) fun _ =>
      hC.bind (hpart test (by simp [Expr.children]) rfl) fun v => ?_
    split
    · exact hpart yes (by simp [Expr.children]) rfl
    · exact hpart no (by simp [Expr.children]) rfl
    · exact hC.bind (hC.moveTo pos) fun _ => hC.raise _
  | lambda pos params bodyPos body =>
    rw [Expr.evalWith]
    exact hC.bind (hC.moveTo pos) fun _ => hC.close _ _
  | call pos name args =>
    rw [Expr.evalWith]
    refine hC.bind (hC.moveTo pos) fun _ => hC.bind (hC.callee name args.length) fun c => ?_
    refine hC.bind (hC.evalAllWith fun x mem => hpart x mem rfl) fun vs => ?_
    refine hC.bind (hC.moveTo pos) fun _ => ?_
    cases calls with
    | none => exact hC.raise _
    | some run => exact hcalls run rfl ⟨pos, name, vs⟩ c
  | ret pos value =>
    rw [Expr.evalWith]
    exact hC.bind (hC.moveTo pos) fun _ =>
      hC.bind (hpart value (by simp [Expr.children]) rfl) fun v => hC.throw _
  | declare pos words =>
    rw [Expr.evalWith]
    exact hC.bind (hC.moveTo pos) fun _ => hC.raise _
  | program pos statements =>
    rw [Expr.evalWith]
    exact hC.bind (hC.moveTo pos) fun _ =>
      hC.evalBlockWith .unit fun x mem => hpart x mem rfl

end Eval.Closed

end SymCalc
