import SymCalc.Machine.Basic

/-!
# Evaluation

An expression is evaluated by recursion on it. A call needs one more level of calls, and with
none left it is a fault; so the evaluation of a function body is a recursion on the levels left,
and every evaluation ends.
-/

namespace SymCalc

open Eval

variable {M : Type} [Numeric M]

/-- What operators do with the values of their operands. -/
structure Operators (M : Type) where
  /-- The prefix operators. -/
  unary : Operator → Value M → Eval M (Value M)
  /-- The binary operators. -/
  binary : Value M → Operator → Value M → Eval M (Value M)

/-- The operators that the symbols stand for. -/
def Operators.standard : Operators M where
  unary op v := lift (Value.unary op.symbol v)
  binary u op v := lift (Value.binary u op.symbol v)

@[simp] theorem Operators.standard_unary (op : Operator) (v : Value M) :
    standard.unary op v = lift (Value.unary op.symbol v) := rfl

@[simp] theorem Operators.standard_binary (u : Value M) (op : Operator) (v : Value M) :
    standard.binary u op v = lift (Value.binary u op.symbol v) := rfl

/-- How the body of a function is run, or nothing when no level of calls is left. -/
abbrev Calls (M : Type) := Option (List (Expr M) → Eval M (Value M))

namespace Expr

variable (ops : Operators M)

mutual

/-- Evaluates an expression with given operators. -/
def evalWith (calls : Calls M) : Expr M → Eval M (Value M)
  | literal pos c => do
    moveTo pos
    return c.value
  | reference ref => do
    moveTo ref.pos
    lookup ref.name
  | operator op => do
    moveTo op.pos
    throw (.stray op)
  | unary pos op right => do
    moveTo pos
    let v ← evalWith calls right
    moveTo op.pos
    ops.unary op v
  | binary pos left op right => do
    moveTo pos
    let u ← evalWith calls left
    let v ← evalWith calls right
    moveTo op.pos
    ops.binary u op v
  | assign pos target right => do
    moveTo pos
    let v ← evalWith calls right
    Eval.assign target.name v
    return .unit
  | tuple pos items => do
    moveTo pos
    match ← evalAllWith calls items with
    | [v] => return v
    | vs => return .tuple vs
  | matrix pos rows => do
    moveTo pos
    let cells ← evalRowsWith calls rows
    moveTo pos
    return .matrix (← lift (Matrix.ofRows cells))
  | ifThen pos test yes => do
    moveTo pos
    match ← evalWith calls test with
    | .boolean true => evalWith calls yes
    | .boolean false => return .unit
    | v =>
      moveTo pos
      raise (.condition v.kind)
  | ifElse pos test yes no => do
    moveTo pos
    match ← evalWith calls test with
    | .boolean true => evalWith calls yes
    | .boolean false => evalWith calls no
    | v =>
      moveTo pos
      raise (.condition v.kind)
  | lambda pos params _ body => do
    moveTo pos
    close (params.map (·.name)) body
  | call pos name args => do
    moveTo pos
    let c ← callee name args.length
    let vs ← evalAllWith calls args
    moveTo pos
    match calls with
    | none => raise (.stackOverflow name)
    | some run => invoke run ⟨pos, name, vs⟩ c
  | ret pos value => do
    moveTo pos
    throw (.returned (← evalWith calls value))
  | declare pos _ => do
    moveTo pos
    raise .declaration
  | program pos statements => do
    moveTo pos
    evalBlockWith calls .unit statements
termination_by structural e => e

/-- Evaluates expressions in order. -/
def evalAllWith (calls : Calls M) : List (Expr M) → Eval M (List (Value M))
  | [] => pure []
  | e :: es => do
    let v ← evalWith calls e
    let vs ← evalAllWith calls es
    return v :: vs
termination_by structural es => es

/-- Evaluates the cells of a row, which must be scalars. -/
def evalCellsWith (calls : Calls M) : List (Expr M) → Eval M (List (Scalar M))
  | [] => pure []
  | e :: es => do
    let v ← evalWith calls e
    match v.asScalar? with
    | none => raise (.cell v.kind)
    | some s =>
      let cells ← evalCellsWith calls es
      return s :: cells
termination_by structural es => es

/-- Evaluates the rows of a matrix. -/
def evalRowsWith (calls : Calls M) : List (List (Expr M)) → Eval M (List (List (Scalar M)))
  | [] => pure []
  | row :: rows => do
    let cells ← evalCellsWith calls row
    let rest ← evalRowsWith calls rows
    return cells :: rest
termination_by structural rows => rows

/-- Evaluates statements in order; the value is that of the last, or the one given if there
are none. -/
def evalBlockWith (calls : Calls M) (last : Value M) : List (Expr M) → Eval M (Value M)
  | [] => pure last
  | e :: es => do
    let v ← evalWith calls e
    evalBlockWith calls v es
termination_by structural es => es

end

end Expr

/-- Runs statements with so many levels of calls left. -/
def Eval.block (ops : Operators M) : (levels : Nat) → List (Expr M) → Eval M (Value M)
  | 0 => Expr.evalBlockWith ops none .unit
  | levels + 1 => Expr.evalBlockWith ops (some (Eval.block ops levels)) .unit

/-- A fault with the place where it happened. -/
structure Failure (M : Type) where
  /-- The position of the node that was evaluated. -/
  pos : Position
  /-- What went wrong. -/
  fault : Fault
  /-- The calls in progress, innermost first. -/
  stack : List (Frame M)

/-- How a run of statements ends. -/
inductive Outcome (M : Type) where
  /-- With a value, that of the last statement or of a return statement. -/
  | value (value : Value M)
  /-- With a failure. -/
  | failure (failure : Failure M)
  /-- At an operator where a value is needed. -/
  | stray (op : Operator)

namespace Machine

/-- Runs statements with given operators; calls nest at most to the depth limit. A run that is
broken off leaves no call in progress. -/
def runUsing (ops : Operators M) (limit : Nat) (statements : List (Expr M)) (m : Machine M) :
    Outcome M × Machine M :=
  match Eval.block ops (limit - m.stack.length) statements m with
  | .ok v m => (.value v, m)
  | .error (.returned v) m => (.value v, { m with stack := [] })
  | .error (.fault fault) m => (.failure ⟨m.pos, fault, m.stack⟩, { m with stack := [] })
  | .error (.stray op) m => (.stray op, { m with stack := [] })

/-- Runs statements. -/
def run (limit : Nat) (statements : List (Expr M)) (m : Machine M) : Outcome M × Machine M :=
  m.runUsing .standard limit statements

/-- Runs one statement. Unless it ends with a value the bindings stay as they were. -/
def runStatement (limit : Nat) (statement : Expr M) (m : Machine M) : Outcome M × Machine M :=
  match m.run limit [statement] with
  | (.value v, m') => (.value v, m')
  | (outcome, m') => (outcome, { m' with env := m.env })

/-- A statement ends as a program of its own does, with the bindings that it leaves or with those
that there were. -/
theorem runStatement_cases (limit : Nat) (statement : Expr M) (m : Machine M) :
    m.runStatement limit statement = m.run limit [statement] ∨
      m.runStatement limit statement = ((m.run limit [statement]).1,
        { (m.run limit [statement]).2 with env := m.env }) := by
  unfold runStatement
  rcases m.run limit [statement] with ⟨outcome, t⟩
  cases outcome with
  | value v => exact .inl rfl
  | failure f => exact .inr rfl
  | stray op => exact .inr rfl

end Machine

end SymCalc
