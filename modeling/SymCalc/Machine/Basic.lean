import SymCalc.Value.Operation
import SymCalc.Expr.Printer

/-!
# The machine

A machine evaluates expressions: it holds the bindings in force, the position of the node being
evaluated and the calls in progress. An evaluation ends with a value, by a return statement, or
by a fault; in each case the machine is left as it was at that moment.
-/

namespace SymCalc

/-- A call in progress. -/
structure Frame (M : Type) where
  /-- Where the call was made. -/
  pos : Position
  /-- The name called. -/
  name : Text
  /-- The values of the arguments. -/
  args : List (Value M)

/-- The state of an evaluation. -/
structure Machine (M : Type) where
  /-- The bindings in force. -/
  env : Env M := {}
  /-- The position of the node being evaluated. -/
  pos : Position := {}
  /-- The calls in progress, innermost first. -/
  stack : List (Frame M) := []

/-- How an evaluation ends other than with a value. -/
inductive Exit (M : Type) where
  /-- By a return statement. -/
  | returned (value : Value M)
  /-- By a fault. -/
  | fault (fault : Fault)
  /-- By an operator where a value is needed, which no program text leads to. -/
  | stray (op : Operator)

/-- An evaluation: it changes the machine, and ends with a result or in another way. -/
abbrev Eval (M : Type) := EStateM (Exit M) (Machine M)

namespace Eval

variable {M : Type}

/-- Ends the evaluation by a fault. -/
def raise {α : Type} (fault : Fault) : Eval M α := throw (.fault fault)

/-- The result of an operation, or its fault. -/
def lift {α : Type} : Except Fault α → Eval M α
  | .ok a => pure a
  | .error fault => raise fault

/-- Makes a position the one being evaluated. -/
def moveTo (pos : Position) : Eval M Unit := modify fun m => { m with pos := pos }

/-- The value of a name. -/
def lookup (name : Text) : Eval M (Value M) := do
  match (← get).env.bindings.find? name with
  | some v => return v
  | none => raise (.undefined name)

/-- A name has a value or not; the machine stays as it is. -/
theorem lookup_eq (name : Text) (m : Machine M) :
    lookup name m = match m.env.bindings.find? name with
      | some v => .ok v m
      | none => .error (.fault (.undefined name)) m := by
  change (match m.env.bindings.find? name with
    | some v => pure v
    | none => raise (.undefined name) : Eval M (Value M)) m = _
  cases m.env.bindings.find? name <;> rfl

/-- Binds a name to a value. -/
def assign (name : Text) (value : Value M) : Eval M Unit :=
  modify fun m => { m with env := { m.env with bindings := m.env.bindings.insert name value } }

/-- Makes a function in the bindings in force. -/
def close (params : List Text) (body : List (Expr M)) : Eval M (Value M) := fun m =>
  .ok (.closure ⟨m.env.made, params, m.env.bindings, body⟩)
    { m with env := { m.env with made := m.env.made + 1 } }

/-- The function that a name is bound to, which must take that many arguments. -/
def callee (name : Text) (args : Nat) : Eval M (Closure M) := do
  match ← lookup name with
  | .closure c =>
    if args = c.params.length then return c
    else raise (.argumentCount name args c.params.length)
  | v => raise (.notCallable name v.kind)

end Eval

namespace Closure

variable {M : Type}

/-- The bindings that a body runs in: those captured, and the parameters bound to arguments. -/
def bindArgs : List Text → List (Value M) → Bindings M → Bindings M
  | x :: xs, v :: vs, bindings => bindArgs xs vs (bindings.insert x v)
  | _, _, bindings => bindings

/-- What parameters are bound to are arguments; the other bindings are those captured. -/
theorem mem_bindArgs {params : List Text} {args : List (Value M)} {bs : Bindings M}
    {b : Text × Value M} (h : b ∈ bindArgs params args bs) : b.2 ∈ args ∨ b ∈ bs := by
  induction params generalizing args bs with
  | nil => exact .inr h
  | cons x xs ih =>
    cases args with
    | nil => exact .inr h
    | cons v vs =>
      rcases ih h with hmem | hmem
      · exact .inl (List.mem_cons.mpr (.inr hmem))
      · rcases Bindings.mem_insert hmem with rfl | hmem
        · exact .inl (List.mem_cons.mpr (.inl rfl))
        · exact .inr hmem

/-- The bindings that the body of a function runs in. -/
def locals (c : Closure M) (args : List (Value M)) : Bindings M := bindArgs c.params args c.captured

end Closure

/-- Runs the body of a function in its own bindings, with the call on the stack. A return
statement in it gives the result. Afterwards the bindings of the caller are in force again;
after a fault the call stays on the stack. -/
def Eval.invoke {M : Type} (run : List (Expr M) → Eval M (Value M)) (frame : Frame M)
    (c : Closure M) : Eval M (Value M) := fun m =>
  let resume (m' : Machine M) : Machine M := { m' with env := { m.env with made := m'.env.made } }
  let pop (m' : Machine M) : Machine M := { m' with stack := m'.stack.tail }
  let entered : Machine M :=
    { m with env := ⟨c.locals frame.args, m.env.made⟩, stack := frame :: m.stack }
  match run c.body entered with
  | .ok v m' => .ok v (pop (resume m'))
  | .error (.returned v) m' => .ok v (pop (resume m'))
  | .error exit m' => .error exit (resume m')

end SymCalc
