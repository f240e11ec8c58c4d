import Mathlib
import SymCalc.Proofs.CallStack

/-!
# Evaluation step by step

An evaluation as a process: what it is busy with, what waits for the value, and the machine. A
step does what can be done without evaluating anything else. Steps are not counted, and of the
calls only those in progress are, when a call is made. Main statement: every process that starts
with statements halts, with what their run comes to.
-/

namespace SymCalc

open Eval StateTransition

variable {M : Type}

/-- What values are wanted for. -/
inductive Use (M : Type) where
  /-- They are the items of a tuple. -/
  | tuple
  /-- They are the arguments of a call. -/
  | call (pos : Position) (name : Text) (callee : Closure M)

/-- What a process is busy with. -/
inductive Focus (M : Type) where
  /-- An expression is to be evaluated. -/
  | eval (e : Expr M)
  /-- There is a value. -/
  | value (v : Value M)
  /-- There is an end without a value. -/
  | exit (x : Exit M)
  /-- Values are there, and others are to come. -/
  | gather (use : Use M) (values : List (Value M)) (later : List (Expr M))
  /-- Rows of a matrix are there, and others are to come. -/
  | rows (pos : Position) (done : List (List (Scalar M))) (later : List (List (Expr M)))
  /-- Cells of a row are there, and others are to come, and other rows. -/
  | cells (pos : Position) (done : List (List (Scalar M))) (cells : List (Scalar M))
      (later : List (Expr M)) (rows : List (List (Expr M)))
  /-- Statements are to come. -/
  | block (last : Value M) (later : List (Expr M))

/-- What waits for a value. -/
inductive Wait (M : Type) where
  /-- A prefix operator. -/
  | unary (op : Operator)
  /-- A binary operator whose right operand is to come. -/
  | left (op : Operator) (right : Expr M)
  /-- A binary operator whose left operand is there. -/
  | right (left : Value M) (op : Operator)
  /-- A name. -/
  | assign (name : Text)
  /-- Values. -/
  | gather (use : Use M) (values : List (Value M)) (later : List (Expr M))
  /-- Cells of a row. -/
  | cells (pos : Position) (done : List (List (Scalar M))) (cells : List (Scalar M))
      (later : List (Expr M)) (rows : List (List (Expr M)))
  /-- A condition, whose second branch may be missing. -/
  | branch (pos : Position) (yes : Expr M) (no : Option (Expr M))
  /-- A return statement. -/
  | ret
  /-- The statements that follow. -/
  | block (later : List (Expr M))
  /-- A call, with the bindings of the caller. -/
  | body (caller : Bindings M)

/-- An evaluation in progress. -/
structure Process (M : Type) where
  /-- What it is busy with. -/
  focus : Focus M
  /-- What waits for the value, innermost first. -/
  waits : List (Wait M)
  /-- The machine. -/
  machine : Machine M

namespace Process

/-- A process that has a value. -/
def give (v : Value M) (waits : List (Wait M)) (m : Machine M) : Process M := ⟨.value v, waits, m⟩

/-- A process that goes on with a result, or has an end without a value. -/
def settle {α : Type} (f : α → List (Wait M) → Machine M → Process M) (waits : List (Wait M)) :
    EStateM.Result (Exit M) (Machine M) α → Process M
  | .ok a m => f a waits m
  | .error x m => ⟨.exit x, waits, m⟩

/-- Starts on an expression. -/
def start (e : Expr M) (waits : List (Wait M)) (m : Machine M) : Process M :=
  let m : Machine M := { m with pos := e.pos }
  match e with
  | .literal _ c => ⟨.value c.value, waits, m⟩
  | .reference ref => settle give waits (lookup ref.name m)
  | .operator op => ⟨.exit (.stray op), waits, m⟩
  | .unary _ op right => ⟨.eval right, .unary op :: waits, m⟩
  | .binary _ left op right => ⟨.eval left, .left op right :: waits, m⟩
  | .assign _ target right => ⟨.eval right, .assign target.name :: waits, m⟩
  | .tuple _ items => ⟨.gather .tuple [] items, waits, m⟩
  | .matrix pos rows => ⟨.rows pos [] rows, waits, m⟩
  | .ifThen pos test yes => ⟨.eval test, .branch pos yes none :: waits, m⟩
  | .ifElse pos test yes no => ⟨.eval test, .branch pos yes (some no) :: waits, m⟩
  | .lambda _ params _ body => settle give waits (close (params.map (·.name)) body m)
  | .call pos name args =>
    settle (fun c waits m => ⟨.gather (.call pos name c) [] args, waits, m⟩) waits
      (callee name args.length m)
  | .ret _ value => ⟨.eval value, .ret :: waits, m⟩
  | .declare _ _ => ⟨.exit (.fault .declaration), waits, m⟩
  | .program _ statements => ⟨.block .unit statements, waits, m⟩

/-- Uses values that are all there. A call is made if fewer calls than the limit are in progress. -/
def apply (limit : Nat) (use : Use M) (values : List (Value M)) (waits : List (Wait M))
    (m : Machine M) : Process M :=
  match use with
  | .tuple =>
    match values with
    | [v] => ⟨.value v, waits, m⟩
    | values => ⟨.value (.tuple values), waits, m⟩
  | .call pos name c =>
    if m.stack.length < limit then
      ⟨.block .unit c.body, .body m.env.bindings :: waits,
        ⟨⟨c.locals values, m.env.made⟩, pos, ⟨pos, name, values⟩ :: m.stack⟩⟩
    else ⟨.exit (.fault (.stackOverflow name)), waits, { m with pos := pos }⟩

variable [Numeric M]

/-- Goes on with a value. -/
def resume (v : Value M) (wait : Wait M) (waits : List (Wait M)) (m : Machine M) : Process M :=
  match wait with
  | .unary op => settle give waits (lift (Value.unary op.symbol v) { m with pos := op.pos })
  | .left op right => ⟨.eval right, .right v op :: waits, m⟩
  | .right u op => settle give waits (lift (Value.binary u op.symbol v) { m with pos := op.pos })
  | .assign name =>
    ⟨.value .unit, waits, { m with env := { m.env with bindings := m.env.bindings.insert name v } }⟩
  | .gather use values later => ⟨.gather use (values ++ [v]) later, waits, m⟩
  | .cells pos done cells later rows =>
    match v.asScalar? with
    | none => ⟨.exit (.fault (.cell v.kind)), waits, m⟩
    | some s => ⟨.cells pos done (cells ++ [s]) later rows, waits, m⟩
  | .branch pos yes no =>
    match v, no with
    | .boolean true, _ => ⟨.eval yes, waits, m⟩
    | .boolean false, some no => ⟨.eval no, waits, m⟩
    | .boolean false, none => ⟨.value .unit, waits, m⟩
    | v, _ => ⟨.exit (.fault (.condition v.kind)), waits, { m with pos := pos }⟩
  | .ret => ⟨.exit (.returned v), waits, m⟩
  | .block later => ⟨.block v later, waits, m⟩
  | .body caller =>
    ⟨.value v, waits, { m with env := ⟨caller, m.env.made⟩, stack := m.stack.tail }⟩

omit [Numeric M] in
/-- Gives up what waits for a value that there is not. The body of a function is ended by a return
statement. -/
def unwind (x : Exit M) (wait : Wait M) (waits : List (Wait M)) (m : Machine M) : Process M :=
  match wait, x with
  | .body caller, .returned v =>
    ⟨.value v, waits, { m with env := ⟨caller, m.env.made⟩, stack := m.stack.tail }⟩
  | .body caller, x => ⟨.exit x, waits, { m with env := ⟨caller, m.env.made⟩ }⟩
  | _, x => ⟨.exit x, waits, m⟩

/-- One step, unless nothing waits any more. -/
def step (limit : Nat) : Process M → Option (Process M)
  | ⟨.eval e, waits, m⟩ => some (start e waits m)
  | ⟨.gather use values [], waits, m⟩ => some (apply limit use values waits m)
  | ⟨.gather use values (e :: es), waits, m⟩ => some ⟨.eval e, .gather use values es :: waits, m⟩
  | ⟨.rows pos done [], waits, m⟩ =>
    some (settle give waits (lift ((Matrix.ofRows done).map .matrix) { m with pos := pos }))
  | ⟨.rows pos done (row :: rows), waits, m⟩ => some ⟨.cells pos done [] row rows, waits, m⟩
  | ⟨.cells pos done cells [] rows, waits, m⟩ => some ⟨.rows pos (done ++ [cells]) rows, waits, m⟩
  | ⟨.cells pos done cells (e :: es) rows, waits, m⟩ =>
    some ⟨.eval e, .cells pos done cells es rows :: waits, m⟩
  | ⟨.block last [], waits, m⟩ => some ⟨.value last, waits, m⟩
  | ⟨.block _ (e :: es), waits, m⟩ => some ⟨.eval e, .block es :: waits, m⟩
  | ⟨.value v, wait :: waits, m⟩ => some (resume v wait waits m)
  | ⟨.exit x, wait :: waits, m⟩ => some (unwind x wait waits m)
  | ⟨.value _, [], _⟩ | ⟨.exit _, [], _⟩ => none

section

variable {α β : Type} {limit levels : Nat} {p q : List (Wait M) → Machine M → Process M}
  {x : Eval M α} {k : α → Eval M β} {f : α → List (Wait M) → Machine M → Process M}
  {g : β → List (Wait M) → Machine M → Process M}

variable (limit levels) in
/-- A process performs an evaluation: whatever waits, and with so many levels of calls left, it
comes to the process that stands for the result, or to an end without a value. -/
def Performs (p : List (Wait M) → Machine M → Process M) (x : Eval M α)
    (f : α → List (Wait M) → Machine M → Process M) : Prop :=
  ∀ waits m, levels = limit - m.stack.length →
    Reaches (step limit) (p waits m) (settle f waits (x m))

namespace Performs

/-- A result at hand. -/
theorem pure {a : α} (h : ∀ waits m, p waits m = f a waits m) :
    Performs limit levels p (Pure.pure a) f := by
  intro waits m _
  rw [h waits m]
  exact .refl

/-- An elementary evaluation. -/
theorem result (x : Eval M α) (f : α → List (Wait M) → Machine M → Process M) :
    Performs limit levels (fun waits m => settle f waits (x m)) x f :=
  fun _ _ _ => .refl

/-- An end without a value. -/
theorem throw (exit : Exit M) :
    Performs limit levels (fun waits m => ⟨.exit exit, waits, m⟩) (MonadExcept.throw exit) f :=
  fun _ _ _ => .refl

/-- A step first. -/
theorem step (hstep : ∀ waits m, (p waits m).step limit = some (q waits m))
    (h : Performs limit levels q x f) : Performs limit levels p x f :=
  fun waits m hm => .head (hstep waits m) (h waits m hm)

/-- Moving to a position first. -/
theorem moveTo (pos : Position) (h : Performs limit levels p x f) :
    Performs limit levels (fun waits m => p waits { m with pos := pos })
      (Eval.moveTo pos >>= fun _ => x) f :=
  fun waits m hm => h waits { m with pos := pos } hm

/-- One evaluation after another, which starts with as many calls in progress. -/
theorem bind (hx : Performs limit levels p x f) (hkeeps : KeepsStack x)
    (hk : ∀ a, Performs limit levels (f a) (k a) g) : Performs limit levels p (x >>= k) g := by
  intro waits m hm
  have hfirst := hx waits m hm
  have hstack := hkeeps m
  change Reaches _ _ (settle g waits (EStateM.bind x k m))
  rw [EStateM.bind]
  cases hresult : x m with
  | ok a t =>
    rw [hresult] at hfirst hstack
    have hstack : t.stack = m.stack := hstack
    exact hfirst.trans (hk a waits t (by rw [hstack]; exact hm))
  | error exit t =>
    rw [hresult] at hfirst
    exact hfirst

end Performs

variable {e : Expr M} {es : List (Expr M)}

variable (limit levels) in
/-- A process that is busy with an expression evaluates it. -/
def Evaluates (e : Expr M) : Prop :=
  Performs limit levels (fun waits m => ⟨.eval e, waits, m⟩)
    (e.evalWith .standard (Calls.left levels))
    give

/-- An operand is evaluated while something waits for it, and then that goes on. -/
theorem Evaluates.operand (he : Evaluates limit levels e) {wait : Wait M}
    (hexit : ∀ exit waits m, unwind exit wait waits m = ⟨.exit exit, waits, m⟩)
    {k : Value M → Eval M α} (hk : ∀ v, Performs limit levels (resume v wait) (k v) f) :
    Performs limit levels (fun waits m => ⟨.eval e, wait :: waits, m⟩)
      (e.evalWith .standard (Calls.left levels) >>= k) f := by
  refine Performs.bind (f := fun v waits m => ⟨.value v, wait :: waits, m⟩) (fun waits m hm => ?_)
    (e.evalWith_left_keepsStack levels) fun v => .step (fun _ _ => rfl) (hk v)
  have hfirst := he (wait :: waits) m hm
  cases hresult : e.evalWith .standard (Calls.left levels) m with
  | ok v t =>
    rw [hresult] at hfirst
    exact hfirst
  | error exit t =>
    rw [hresult] at hfirst
    exact hfirst.tail (congrArg some (hexit exit waits t))

/-- Values are gathered one after the other. -/
theorem gather_performs (hes : ∀ e ∈ es, Evaluates limit levels e) (use : Use M)
    (values : List (Value M)) :
    Performs limit levels (fun waits m => ⟨.gather use values es, waits, m⟩)
      (Expr.evalAllWith .standard (Calls.left levels) es)
      fun vs waits m => ⟨.gather use (values ++ vs) [], waits, m⟩ := by
  induction es generalizing values with
  | nil =>
    rw [Expr.evalAllWith]
    exact .pure fun _ _ => by rw [List.append_nil]
  | cons e es ih =>
    obtain ⟨he, hes⟩ := List.forall_mem_cons.mp hes
    rw [Expr.evalAllWith]
    refine .step (fun _ _ => rfl) (he.operand (fun _ _ _ => rfl) fun v => ?_)
    refine (ih hes (values ++ [v])).bind
      (KeepsStack.closed.evalAllWith fun e _ => e.evalWith_left_keepsStack levels) fun vs => ?_
    exact .pure fun _ _ => by rw [← List.append_cons]

/-- Cells are gathered one after the other. -/
theorem cells_performs (hes : ∀ e ∈ es, Evaluates limit levels e) (pos : Position)
    (done : List (List (Scalar M))) (cells : List (Scalar M)) (rows : List (List (Expr M))) :
    Performs limit levels (fun waits m => ⟨.cells pos done cells es rows, waits, m⟩)
      (Expr.evalCellsWith .standard (Calls.left levels) es)
      fun row waits m => ⟨.rows pos (done ++ [cells ++ row]) rows, waits, m⟩ := by
  induction es generalizing cells with
  | nil =>
    rw [Expr.evalCellsWith]
    refine .step (fun _ _ => rfl) (.pure fun _ _ => ?_)
    rw [List.append_nil]
  | cons e es ih =>
    obtain ⟨he, hes⟩ := List.forall_mem_cons.mp hes
    rw [Expr.evalCellsWith]
    refine .step (fun _ _ => rfl) (he.operand (fun _ _ _ => rfl) fun v => ?_)
    unfold resume
    dsimp only
    cases v.asScalar? with
    | none => exact .throw _
    | some s =>
      refine (ih hes (cells ++ [s])).bind
        (KeepsStack.closed.evalCellsWith fun e _ => e.evalWith_left_keepsStack levels) fun row => ?_
      exact .pure fun _ _ => by rw [← List.append_cons]

/-- Rows are gathered one after the other. -/
theorem rows_performs {rows : List (List (Expr M))}
    (hes : ∀ e ∈ rows.flatten, Evaluates limit levels e) (pos : Position)
    (done : List (List (Scalar M))) :
    Performs limit levels (fun waits m => ⟨.rows pos done rows, waits, m⟩)
      (Expr.evalRowsWith .standard (Calls.left levels) rows)
      fun cells waits m => ⟨.rows pos (done ++ cells) [], waits, m⟩ := by
  induction rows generalizing done with
  | nil =>
    rw [Expr.evalRowsWith]
    exact .pure fun _ _ => by rw [List.append_nil]
  | cons row rows ih =>
    rw [List.flatten_cons, List.forall_mem_append] at hes
    rw [Expr.evalRowsWith]
    refine .step (fun _ _ => rfl) ((cells_performs hes.1 pos done [] rows).bind
      (KeepsStack.closed.evalCellsWith fun e _ => e.evalWith_left_keepsStack levels)
      fun cells => ?_)
    refine (ih hes.2 (done ++ [cells])).bind
      (KeepsStack.closed.evalRowsWith fun e _ => e.evalWith_left_keepsStack levels) fun rest => ?_
    exact .pure fun _ _ => by rw [← List.append_cons]

/-- Statements are evaluated one after the other. -/
theorem block_performs (hes : ∀ e ∈ es, Evaluates limit levels e) (last : Value M) :
    Performs limit levels (fun waits m => ⟨.block last es, waits, m⟩)
      (Expr.evalBlockWith .standard (Calls.left levels) last es)
      give := by
  induction es generalizing last with
  | nil =>
    rw [Expr.evalBlockWith]
    exact .step (fun _ _ => rfl) (.pure fun _ _ => rfl)
  | cons e es ih =>
    obtain ⟨he, hes⟩ := List.forall_mem_cons.mp hes
    rw [Expr.evalBlockWith]
    exact .step (fun _ _ => rfl) (he.operand (fun _ _ _ => rfl) fun v => ih hes v)

/-- The body of a function is run with one level of calls less, and the call is taken off the
stack when it ends. -/
theorem invoke_performs (hbody : ∀ e : Expr M, Evaluates limit levels e) (pos : Position)
    (name : Text) (c : Closure M) (args : List (Value M)) :
    Performs limit (levels + 1) (apply limit (.call pos name c) args)
      (Eval.moveTo pos >>= fun _ => Eval.invoke (Eval.block .standard levels) ⟨pos, name, args⟩ c)
      give := by
  intro waits m hm
  have hless : m.stack.length < limit := by omega
  let entered : Machine M :=
    ⟨⟨c.locals args, m.env.made⟩, pos, ⟨pos, name, args⟩ :: m.stack⟩
  have hentered : levels = limit - entered.stack.length := by
    change levels = limit - (m.stack.length + 1)
    omega
  have hrun := block_performs (fun e (_ : e ∈ c.body) => hbody e) .unit
    (.body m.env.bindings :: waits) entered hentered
  rw [← Eval.block_eq] at hrun
  have hmoved : (Eval.moveTo pos >>= fun _ =>
      Eval.invoke (Eval.block .standard levels) ⟨pos, name, args⟩ c) m =
        Eval.invoke (Eval.block .standard levels) ⟨pos, name, args⟩ c { m with pos := pos } := rfl
  rw [hmoved, apply, if_pos hless, Eval.invoke]
  dsimp only
  cases hresult : Eval.block .standard levels c.body entered with
  | ok v t =>
    rw [hresult] at hrun
    exact hrun.tail rfl
  | error exit t =>
    rw [hresult] at hrun
    cases exit with
    | returned v => exact hrun.tail rfl
    | fault cause => exact hrun.tail rfl
    | stray op => exact hrun.tail rfl

/-- Arguments are used in a call if a level of calls is left. -/
theorem call_performs (hbody : ∀ below, levels = below + 1 → ∀ e : Expr M, Evaluates limit below e)
    (pos : Position) (name : Text) (c : Closure M) (args : List (Value M)) :
    Performs limit levels (apply limit (.call pos name c) args)
      (Eval.moveTo pos >>= fun _ =>
        match (Calls.left levels : Calls M) with
        | none => raise (.stackOverflow name)
        | some run => Eval.invoke run ⟨pos, name, args⟩ c)
      give := by
  cases levels with
  | zero =>
    intro waits m hm
    have hless : ¬m.stack.length < limit := by omega
    rw [apply, if_neg hless]
    exact .refl
  | succ levels => exact invoke_performs (hbody levels rfl) pos name c args

/-- Every expression is evaluated if the bodies of functions are. -/
theorem evaluates_of_bodies
    (hbody : ∀ below, levels = below + 1 → ∀ e : Expr M, Evaluates limit below e) (e : Expr M) :
    Evaluates limit levels e := by
  induction e using Expr.children_induction with
  | h e ih =>
  refine .step (fun _ _ => rfl) ?_
  cases e with
  | literal pos c =>
    rw [Expr.evalWith]
    exact .moveTo pos (.pure fun _ _ => rfl)
  | reference ref =>
    rw [Expr.evalWith]
    exact .moveTo ref.pos (.result _ give)
  | operator op =>
    rw [Expr.evalWith]
    exact .moveTo op.pos (.throw _)
  | unary pos op right =>
    rw [Expr.evalWith]
    refine .moveTo pos ((ih right (by simp [Expr.children])).operand (fun _ _ _ => rfl) fun v => ?_)
    exact .moveTo op.pos (.result _ give)
  | binary pos left op right =>
    rw [Expr.evalWith]
    refine .moveTo pos ((ih left (by simp [Expr.children])).operand (fun _ _ _ => rfl) fun u => ?_)
    refine (ih right (by simp [Expr.children])).operand (fun _ _ _ => rfl) fun v => ?_
    exact .moveTo op.pos (.result _ give)
  | assign pos target right =>
    rw [Expr.evalWith]
    refine .moveTo pos ((ih right (by simp [Expr.children])).operand (fun _ _ _ => rfl) fun v => ?_)
    exact fun _ _ _ => .refl
  | tuple pos items =>
    rw [Expr.evalWith]
    refine .moveTo pos ((gather_performs ih .tuple []).bind
      (KeepsStack.closed.evalAllWith fun e _ => e.evalWith_left_keepsStack levels) fun vs => ?_)
    refine .step (fun _ _ => rfl) (q := apply limit .tuple vs) ?_
    rcases vs with _ | ⟨v, _ | ⟨u, vs⟩⟩
    · exact .pure fun _ _ => rfl
    · exact .pure fun _ _ => rfl
    · exact .pure fun _ _ => rfl
  | matrix pos rows =>
    rw [Expr.evalWith]
    refine .moveTo pos ((rows_performs ih pos []).bind
      (KeepsStack.closed.evalRowsWith fun e _ => e.evalWith_left_keepsStack levels) fun cells => ?_)
    have hrows : Performs limit levels
        (fun waits m => settle give waits (lift ((Matrix.ofRows cells).map .matrix) m))
        (do return .matrix (← lift (Matrix.ofRows cells))) give := by
      cases Matrix.ofRows cells with
      | ok a => exact fun _ _ _ => .refl
      | error fault => exact fun _ _ _ => .refl
    exact .step (fun _ _ => rfl) (hrows.moveTo pos)
  | ifThen pos test yes =>
    rw [Expr.evalWith]
    refine .moveTo pos ((ih test (by simp [Expr.children])).operand (fun _ _ _ => rfl) fun v => ?_)
    unfold resume
    cases v with
    | boolean b =>
      cases b with
      | true => exact ih yes (by simp [Expr.children])
      | false => exact .pure fun _ _ => rfl
    | _ => exact .moveTo pos (.throw _)
  | ifElse pos test yes no =>
    rw [Expr.evalWith]
    refine .moveTo pos ((ih test (by simp [Expr.children])).operand (fun _ _ _ => rfl) fun v => ?_)
    unfold resume
    cases v with
    | boolean b =>
      cases b with
      | true => exact ih yes (by simp [Expr.children])
      | false => exact ih no (by simp [Expr.children])
    | _ => exact .moveTo pos (.throw _)
  | lambda pos params bodyPos body =>
    rw [Expr.evalWith]
    exact .moveTo pos (.result (close (params.map (·.name)) body) give)
  | call pos name args =>
    rw [Expr.evalWith]
    refine .moveTo pos ((Performs.result (callee name args.length) fun c waits m =>
      ⟨.gather (.call pos name c) [] args, waits, m⟩).bind
        (KeepsStack.closed.callee name args.length) fun c => ?_)
    refine (gather_performs ih (.call pos name c) []).bind
      (KeepsStack.closed.evalAllWith fun e _ => e.evalWith_left_keepsStack levels) fun vs => ?_
    exact .step (fun _ _ => rfl) (call_performs hbody pos name c vs)
  | ret pos value =>
    rw [Expr.evalWith]
    exact .moveTo pos ((ih value (by simp [Expr.children])).operand (fun _ _ _ => rfl) fun v =>
      .throw _)
  | declare pos words =>
    rw [Expr.evalWith]
    exact .moveTo pos (.throw _)
  | program pos statements =>
    rw [Expr.evalWith]
    exact .moveTo pos (block_performs ih .unit)

end

/-- Every expression is evaluated, with any number of levels of calls left. -/
theorem evaluates (limit levels : Nat) (e : Expr M) : Evaluates limit levels e := by
  induction levels generalizing e with
  | zero => exact evaluates_of_bodies (fun _ hnone => absurd hnone (Nat.succ_ne_zero _).symm) e
  | succ levels ih =>
    refine evaluates_of_bodies (fun below hbelow => ?_) e
    cases hbelow
    exact ih

omit [Numeric M] in
/-- A process that starts with statements. -/
def ofStatements (statements : List (Expr M)) (m : Machine M) : Process M :=
  ⟨.block .unit statements, [], m⟩

/-- The process after so many steps, or where it has halted before. -/
def after (limit : Nat) : Nat → Process M → Process M
  | 0, p => p
  | n + 1, p =>
    match p.step limit with
    | none => p
    | some q => after limit n q

/-- What a process has come to, if nothing waits any more. Afterwards no call is in progress. -/
def outcome : Process M → Option (Outcome M × Machine M)
  | ⟨.value v, [], m⟩ => some (.value v, m)
  | ⟨.exit (.returned v), [], m⟩ => some (.value v, { m with stack := [] })
  | ⟨.exit (.fault fault), [], m⟩ =>
    some (.failure ⟨m.pos, fault, m.stack⟩, { m with stack := [] })
  | ⟨.exit (.stray op), [], m⟩ => some (.stray op, { m with stack := [] })
  | _ => none

/-- After finitely many steps there is no other step, and the process has come to something. -/
def HaltsWith (limit : Nat) (p : Process M) (result : Outcome M × Machine M) : Prop :=
  ∃ n, (p.after limit n).step limit = none ∧ (p.after limit n).outcome = some result

/-- What can be reached is reached after some number of steps. -/
theorem exists_after {limit : Nat} {p q : Process M} (h : Reaches (step limit) p q) :
    ∃ n, p.after limit n = q := by
  induction h using Relation.ReflTransGen.head_induction_on with
  | refl => exact ⟨0, rfl⟩
  | head hstep _ ih =>
    obtain ⟨n, hn⟩ := ih
    refine ⟨n + 1, ?_⟩
    rw [after, Option.mem_def.mp hstep]
    exact hn

/-- Statements halt, with what their run comes to. -/
theorem haltsWith_run (limit : Nat) (statements : List (Expr M)) (m : Machine M) :
    (ofStatements statements m).HaltsWith limit (m.run limit statements) := by
  have hreaches := block_performs
    (fun e (_ : e ∈ statements) => evaluates limit (limit - m.stack.length) e) .unit [] m rfl
  rw [← Eval.block_eq] at hreaches
  obtain ⟨n, hn⟩ := exists_after hreaches
  refine ⟨n, ?_⟩
  rw [ofStatements, hn, Machine.run, Machine.runUsing]
  cases Eval.block .standard (limit - m.stack.length) statements m with
  | ok v t => exact ⟨rfl, rfl⟩
  | error exit t => cases exit <;> exact ⟨rfl, rfl⟩

end Process

end SymCalc
