import Mathlib
import SymCalc.Proofs.CheckedOperators
import SymCalc.Proofs.Magnitude
import SymCalc.Proofs.Process

/-!
# The stack of calls

The stack holds the calls that were in progress when an evaluation started and, above them, one
call for each function whose body is being run. What a step does to the stack is said once, and the
rest follows from it. Main statement: an evaluation that ends with a value or by a return statement
leaves the stack as it was; the stack never grows beyond the limit; a failure is recorded with the
calls that were there and those made since, and a call beyond the limit with as many as the limit;
and since a machine in use has no call in progress between its runs, it goes on as a new one.
-/

namespace SymCalc

open Eval

variable {M : Type}

/-- Whether a fault is a call beyond the depth limit. -/
def Fault.isOverflow : Fault → Bool
  | .stackOverflow _ => true
  | _ => false

/-- What is computed without a call: its fault, if there is one, is no call beyond the limit. -/
def Mild {α : Type} (x : Except Fault α) : Prop :=
  ∀ fault, x = .error fault → fault.isOverflow = false

namespace Mild

variable {α β : Type} {x : Except Fault α}

/-- A result is no fault. -/
theorem ok (a : α) : Mild (.ok a : Except Fault α) := by
  intro fault h
  cases h

/-- A fault that is not a call beyond the limit. -/
theorem error {fault : Fault} (h : fault.isOverflow = false) :
    Mild (.error fault : Except Fault α) := by
  intro other hother
  cases hother
  exact h

/-- Changing the result leaves the fault. -/
theorem map (h : Mild x) (f : α → β) : Mild (x.map f) := by
  cases x with
  | ok a => exact ok (f a)
  | error fault => exact error (h fault rfl)

end Mild

/-- Making a matrix is no call. -/
theorem Matrix.mild_ofRows (rows : List (List (Scalar M))) : Mild (Matrix.ofRows rows) := by
  have hragged (want number : Nat) (rows : List (List (Scalar M))) :
      ∀ fault ∈ raggedRow? want number rows, fault.isOverflow = false := by
    induction rows generalizing number with
    | nil => exact fun fault h => absurd h (Option.not_mem_none fault)
    | cons row rows ih =>
      rw [raggedRow?]
      split
      · rintro fault ⟨⟩
        rfl
      · exact ih (number + 1)
  unfold Matrix.ofRows
  split
  · exact .error rfl
  · exact .error rfl
  · split
    · rename_i hrow
      exact .error (hragged _ _ _ _ hrow)
    · exact .ok _

section

variable [Magnitude M]

/-- Binary operators are no calls. -/
theorem Value.mild_binary (u : Value M) (symbol : Text) (v : Value M) :
    Mild (u.binary symbol v) := by
  have hadd (m n : Matrix M) : Mild (m.add n) := by
    unfold Matrix.add
    split
    · exact .ok _
    · exact .error rfl
  have hmul (m n : Matrix M) : Mild (m.mul n) := by
    unfold Matrix.mul
    split
    · exact .ok _
    · exact .error rfl
  have hdiv (s t : Scalar M) : Mild (s.div t) := by
    intro fault h
    rw [Scalar.div_eq_error h]
    rfl
  unfold Value.binary
  cases BinaryOp.ofSymbol? symbol with
  | none => exact .error rfl
  | some op =>
    dsimp only
    unfold Value.operate
    split
    case h_2 | h_4 => exact (hadd _ _).map _
    case h_8 => exact (hmul _ _).map _
    case h_9 => exact (hdiv _ _).map _
    case h_13 => exact .error rfl
    all_goals exact .ok _

/-- Unary operators are no calls. -/
theorem Value.mild_unary (symbol : Text) (v : Value M) : Mild (Value.unary symbol v) := by
  unfold Value.unary
  cases UnaryOp.ofSymbol? symbol with
  | none => exact .error rfl
  | some op =>
    dsimp only
    unfold Value.operateUnary
    split
    case h_5 => exact .error rfl
    all_goals exact .ok _

end

/-- A function that is called is bound, or there is a fault; the machine stays as it is. -/
theorem Eval.callee_cases (name : Text) (args : Nat) (m : Machine M) :
    (∃ c, (name, .closure c) ∈ m.env.bindings ∧ callee name args m = .ok c m) ∨
      ∃ fault, fault.isOverflow = false ∧ callee name args m = .error (.fault fault) m := by
  unfold callee
  change (∃ c, _ ∧ EStateM.bind _ _ m = _) ∨ ∃ fault, _ ∧ EStateM.bind _ _ m = _
  simp only [EStateM.bind, lookup_eq]
  cases hfind : m.env.bindings.find? name with
  | none => exact .inr ⟨_, rfl, rfl⟩
  | some v =>
    cases v with
    | closure c =>
      dsimp only
      split
      · exact .inl ⟨c, Bindings.mem_of_find? hfind, rfl⟩
      · exact .inr ⟨_, rfl, rfl⟩
    | _ => exact .inr ⟨_, rfl, rfl⟩

/-- Whether a process goes on, or ends with a value or by a return statement. -/
def Focus.isAlive : Focus M → Bool
  | .exit (.fault _) | .exit (.stray _) => false
  | _ => true

/-- Whether a process has made a call beyond the limit. -/
def Focus.isOverflow : Focus M → Bool
  | .exit (.fault fault) => fault.isOverflow
  | _ => false

/-- Whether the body of a function is what waits. -/
def Wait.isCall : Wait M → Bool
  | .body _ => true
  | _ => false

namespace Process

/-- How many functions have their bodies run. -/
def depth (p : Process M) : Nat := p.waits.countP Wait.isCall

/-- What a step does to the calls in progress. -/
inductive StackStep (limit : Nat) (p q : Process M) : Prop where
  /-- It leaves them, and no call is beyond the limit. -/
  | stays (alive : p.focus.isAlive = true) (mild : q.focus.isOverflow = false)
      (stack : q.machine.stack = p.machine.stack) (depth : q.depth = p.depth)
  /-- It makes a call, for which there is room. -/
  | enters (alive : p.focus.isAlive = true) (alive' : q.focus.isAlive = true) {frame : Frame M}
      (room : p.machine.stack.length < limit)
      (stack : q.machine.stack = frame :: p.machine.stack) (depth : q.depth = p.depth + 1)
  /-- It makes a call for which there is no room. -/
  | refused (overflow : q.focus.isOverflow = true) (full : limit ≤ p.machine.stack.length)
      (stack : q.machine.stack = p.machine.stack)
  /-- The body of a function has ended with a value or by a return statement. -/
  | leaves (alive : p.focus.isAlive = true) (alive' : q.focus.isAlive = true)
      (stack : q.machine.stack = p.machine.stack.tail) (depth : p.depth = q.depth + 1)
  /-- A failure is passed on. -/
  | fails (failed : p.focus.isAlive = false) (focus : q.focus = p.focus)
      (stack : q.machine.stack = p.machine.stack)

/-- What has made a call beyond the limit does not go on. -/
theorem isAlive_of_isOverflow {focus : Focus M} (h : focus.isOverflow = true) :
    focus.isAlive = false := by
  unfold Focus.isOverflow at h
  split at h
  · rfl
  · cases h

variable {limit : Nat} {ws : List (Wait M)} {m : Machine M}

/-- An operation leaves the calls in progress. -/
theorem stackStep_lift {focus : Focus M} {before : List (Wait M)} {pos : Position}
    {x : Except Fault (Value M)} (hx : Mild x) (halive : focus.isAlive = true)
    (hdepth : ws.countP Wait.isCall = before.countP Wait.isCall) :
    StackStep limit ⟨focus, before, m⟩ (settle give ws (lift x { m with pos := pos })) := by
  cases x with
  | ok v => exact .stays halive rfl rfl hdepth
  | error fault => exact .stays halive (hx fault rfl) rfl hdepth

/-- Starting on an expression leaves the calls in progress. -/
theorem stackStep_start (e : Expr M) : StackStep limit ⟨.eval e, ws, m⟩ (start e ws m) := by
  cases e with
  | reference ref =>
    rw [start, lookup_eq]
    dsimp only
    cases m.env.bindings.find? ref.name <;> exact .stays rfl rfl rfl rfl
  | call pos name args =>
    rw [start]
    rcases callee_cases name args.length { m with pos := (Expr.call pos name args).pos } with
      ⟨c, -, heq⟩ | ⟨fault, hmild, heq⟩
    · rw [heq]
      exact .stays rfl rfl rfl rfl
    · rw [heq]
      exact .stays rfl hmild rfl rfl
  | _ => exact .stays rfl rfl rfl rfl

/-- Using values makes a call if there is room. -/
theorem stackStep_apply (use : Use M) (values : List (Value M)) :
    StackStep limit ⟨.gather use values [], ws, m⟩ (apply limit use values ws m) := by
  cases use with
  | tuple => rcases values with _ | ⟨v, _ | ⟨u, values⟩⟩ <;> exact .stays rfl rfl rfl rfl
  | call pos name c =>
    rw [apply]
    split
    · rename_i hroom
      exact .enters rfl rfl hroom rfl (List.countP_cons_of_pos rfl)
    · rename_i hfull
      exact .refused rfl (Nat.le_of_not_lt hfull) rfl

/-- A failure is passed on to whatever waits. -/
theorem stackStep_unwind (x : Exit M) (w : Wait M) :
    StackStep limit ⟨.exit x, w :: ws, m⟩ (unwind x w ws m) := by
  cases x with
  | returned v =>
    cases w with
    | body caller => exact .leaves rfl rfl rfl (List.countP_cons_of_pos rfl)
    | _ => exact .stays rfl rfl rfl rfl
  | fault cause => cases w <;> exact .fails rfl rfl rfl
  | stray op => cases w <;> exact .fails rfl rfl rfl

variable [Numeric M]

/-- Going on with a value ends the body of a function if that waits. -/
theorem stackStep_resume (v : Value M) (w : Wait M) :
    StackStep limit ⟨.value v, w :: ws, m⟩ (resume v w ws m) := by
  cases w with
  | unary op => exact stackStep_lift (Value.mild_unary _ _) rfl rfl
  | right u op => exact stackStep_lift (Value.mild_binary _ _ _) rfl rfl
  | cells pos done cells later rows =>
    unfold resume
    dsimp only
    split <;> exact .stays rfl rfl rfl rfl
  | branch pos yes no =>
    unfold resume
    dsimp only
    split <;> exact .stays rfl rfl rfl rfl
  | body caller => exact .leaves rfl rfl rfl (List.countP_cons_of_pos rfl)
  | _ => exact .stays rfl rfl rfl rfl

/-- What a step does to the calls in progress. -/
theorem stackStep {p q : Process M} (hstep : p.step limit = some q) : StackStep limit p q := by
  obtain ⟨focus, ws, m⟩ := p
  cases focus with
  | eval e =>
    cases hstep
    exact stackStep_start e
  | gather use values later =>
    cases later with
    | nil =>
      cases hstep
      exact stackStep_apply use values
    | cons e es =>
      cases hstep
      exact .stays rfl rfl rfl rfl
  | rows pos done later =>
    cases later with
    | nil =>
      cases hstep
      exact stackStep_lift ((Matrix.mild_ofRows done).map _) rfl rfl
    | cons row rows =>
      cases hstep
      exact .stays rfl rfl rfl rfl
  | cells pos done cells later rows => cases later <;> cases hstep <;> exact .stays rfl rfl rfl rfl
  | block last later => cases later <;> cases hstep <;> exact .stays rfl rfl rfl rfl
  | value v =>
    cases ws with
    | nil => cases hstep
    | cons w ws =>
      cases hstep
      exact stackStep_resume v w
  | exit x =>
    cases ws with
    | nil => cases hstep
    | cons w ws =>
      cases hstep
      exact stackStep_unwind x w

/-- No number of steps makes more calls than the limit allows. -/
theorem stack_after (limit n : Nat) (p : Process M) :
    (p.after limit n).machine.stack.length ≤ max limit p.machine.stack.length := by
  induction n generalizing p with
  | zero => exact le_max_right _ _
  | succ n ih =>
    rw [after]
    split
    · exact le_max_right _ _
    · rename_i q hstep
      refine (ih q).trans (max_le (le_max_left _ _) ?_)
      cases stackStep hstep with
      | stays _ _ stack => exact stack ▸ le_max_right _ _
      | enters _ _ room stack =>
        rw [stack]
        exact le_max_of_le_left room
      | refused _ _ stack => exact stack ▸ le_max_right _ _
      | leaves _ _ stack =>
        rw [stack, List.length_tail]
        exact le_max_of_le_right (Nat.sub_le _ _)
      | fails _ _ stack => exact stack ▸ le_max_right _ _

/-- The stack of a process that was started with the calls `base` in progress. -/
structure StackedOn (limit : Nat) (base : List (Frame M)) (p : Process M) : Prop where
  /-- The calls that were in progress still are. -/
  above : base <:+ p.machine.stack
  /-- Unless it has failed, there is one call more for each body that is run. -/
  exact : p.focus.isAlive = true → p.machine.stack.length = p.depth + base.length
  /-- After a call beyond the limit there are as many calls as the limit allows. -/
  full : p.focus.isOverflow = true → limit ≤ p.machine.stack.length

variable {base : List (Frame M)} {p q : Process M}

/-- A step keeps the calls that were in progress, and takes off only what was put on since. -/
theorem StackedOn.step (h : p.StackedOn limit base) (hstep : p.step limit = some q) :
    q.StackedOn limit base := by
  cases stackStep hstep with
  | stays alive mild stack depth =>
    refine ⟨stack ▸ h.above, fun _ => ?_, fun hover => ?_⟩
    · rw [stack, depth]
      exact h.exact alive
    · rw [mild] at hover
      cases hover
  | enters alive alive' room stack depth =>
    refine ⟨?_, fun _ => ?_, fun hover => ?_⟩
    · rw [stack]
      exact h.above.trans (List.suffix_cons _ _)
    · have hbefore := h.exact alive
      rw [stack, depth, List.length_cons]
      omega
    · rw [isAlive_of_isOverflow hover] at alive'
      cases alive'
  | refused overflow full stack =>
    refine ⟨stack ▸ h.above, fun halive => ?_, fun _ => stack ▸ full⟩
    rw [isAlive_of_isOverflow overflow] at halive
    cases halive
  | leaves alive alive' stack depth =>
    obtain ⟨since, hstack⟩ := h.above
    have hlength := h.exact alive
    rw [← hstack, List.length_append] at hlength
    -- the call that is taken off is not one of those that were in progress
    cases since with
    | nil =>
      rw [List.length_nil] at hlength
      omega
    | cons frame since =>
      rw [List.length_cons] at hlength
      rw [← hstack, List.cons_append, List.tail_cons] at stack
      refine ⟨⟨since, stack.symm⟩, fun _ => ?_, fun hover => ?_⟩
      · rw [stack, List.length_append]
        omega
      · rw [isAlive_of_isOverflow hover] at alive'
        cases alive'
  | fails failed focus stack =>
    refine ⟨stack ▸ h.above, fun halive => ?_, fun hover => ?_⟩
    · rw [focus, failed] at halive
      cases halive
    · rw [stack]
      exact h.full (focus ▸ hover)

/-- No number of steps takes off a call that was in progress. -/
theorem StackedOn.after (h : p.StackedOn limit base) (n : Nat) :
    (p.after limit n).StackedOn limit base := by
  induction n generalizing p with
  | zero => exact h
  | succ n ih =>
    rw [Process.after]
    split
    · exact h
    · rename_i q hstep
      exact ih (h.step hstep)

omit [Numeric M] in
/-- A process that starts. -/
theorem StackedOn.start {focus : Focus M} (halive : focus.isAlive = true) :
    StackedOn limit m.stack ⟨focus, [], m⟩ where
  above := List.suffix_refl _
  exact _ := (Nat.zero_add _).symm
  full hover := by
    rw [isAlive_of_isOverflow hover] at halive
    cases halive

end Process

/-- The calls that a fault is recorded with, where `base` were in progress before. -/
structure Fault.Recorded (fault : Fault) (limit : Nat) (base stack : List (Frame M)) : Prop where
  /-- Those in progress before, and those made since. -/
  above : base <:+ stack
  /-- No more than the limit allows. -/
  bounded : stack.length ≤ limit
  /-- As many as the limit allows, if a call beyond it was made. -/
  full : fault.isOverflow = true → stack.length = limit

variable [Numeric M] {m : Machine M}

/-- A process that has failed has recorded the calls in progress. -/
theorem Process.recorded_of_after {focus : Focus M} {fault : Fault} {ws : List (Wait M)}
    {limit n : Nat} {t : Machine M} (halive : focus.isAlive = true) (hm : m.stack.length ≤ limit)
    (h : Process.after limit n ⟨focus, [], m⟩ = ⟨.exit (.fault fault), ws, t⟩) :
    fault.Recorded limit m.stack t.stack := by
  have hstacked : StackedOn limit m.stack (Process.after limit n ⟨focus, [], m⟩) :=
    (StackedOn.start halive).after n
  have hbound := stack_after limit n ⟨focus, [], m⟩
  rw [h] at hstacked hbound
  have hbound : t.stack.length ≤ limit := hbound.trans (max_le le_rfl hm)
  exact ⟨hstacked.above, hbound, fun hfull => hbound.antisymm (hstacked.full hfull)⟩

/-- What a machine is given to do, with the limit of calls. -/
inductive Task (M : Type) where
  /-- A program is to be run. -/
  | program (limit : Nat) (statements : List (Expr M))
  /-- A single statement is to be run. -/
  | single (limit : Nat) (statement : Expr M)

namespace Task

omit [Numeric M] in
/-- The limit of calls. -/
def limit : Task M → Nat
  | program limit _ | single limit _ => limit

omit [Numeric M] in
/-- The statements to be run. -/
def statements : Task M → List (Expr M)
  | program _ statements => statements
  | single _ statement => [statement]

/-- What the task comes to. -/
def perform (m : Machine M) : Task M → Outcome M × Machine M
  | program limit statements => m.run limit statements
  | single limit statement => m.runStatement limit statement

/-- A task comes to what the run of its statements comes to, up to the bindings that are left. -/
theorem perform_eq (task : Task M) (m : Machine M) :
    (task.perform m).1 = (m.run task.limit task.statements).1 ∧
      (task.perform m).2.stack = (m.run task.limit task.statements).2.stack := by
  cases task with
  | program limit statements => exact ⟨rfl, rfl⟩
  | single limit statement => exact m.runStatement_eq limit statement

/-- What a task comes to depends on the bindings, where no call is in progress. -/
theorem perform_of_env (task : Task M) {m n : Machine M} (hm : m.stack = []) (hn : n.stack = [])
    (henv : m.env = n.env) :
    (task.perform m).1 = (task.perform n).1 ∧ (task.perform m).2.env = (task.perform n).2.env := by
  cases task with
  | program limit statements =>
    obtain ⟨houtcome, hleft, -⟩ := Machine.run_of_env limit statements hm hn henv
    exact ⟨houtcome, hleft⟩
  | single limit statement =>
    have hsame := Machine.runStatement_of_env limit statement hm hn henv
    exact ⟨congrArg Prod.fst hsame, congrArg (fun r => r.2.env) hsame⟩

end Task

namespace Machine

/-- A failure of a run is recorded with the calls in progress. -/
theorem recorded_of_run {limit : Nat} {statements : List (Expr M)} {f : Failure M}
    (hm : m.stack.length ≤ limit) (h : (m.run limit statements).1 = .failure f) :
    f.fault.Recorded limit m.stack f.stack := by
  obtain ⟨n, -, houtcome⟩ := Process.haltsWith_run limit statements m
  generalize hrun : m.run limit statements = result at h houtcome
  obtain ⟨outcome, t⟩ := result
  cases h
  generalize hlast : (Process.ofStatements statements m).after limit n = last at houtcome
  unfold Process.outcome at houtcome
  split at houtcome
  case h_3 =>
    cases houtcome
    exact Process.recorded_of_after rfl hm hlast
  all_goals cases houtcome

/-- A run that ends normally leaves the calls in progress, and one that is broken off leaves
none. -/
theorem stack_run_of_block (limit : Nat) (statements : List (Expr M)) (m : Machine M) :
    (∀ v t, Eval.block .standard (limit - m.stack.length) statements m = .ok v t →
      (m.run limit statements).1 = .value v ∧ (m.run limit statements).2.stack = m.stack) ∧
    ∀ x t, Eval.block .standard (limit - m.stack.length) statements m = .error x t →
      (m.run limit statements).2.stack = [] := by
  have hkeeps := Eval.block_keepsStack (limit - m.stack.length) statements m
  unfold run runUsing
  constructor
  · intro v t h
    rw [h] at hkeeps ⊢
    exact ⟨rfl, hkeeps⟩
  · intro x t h
    rw [h]
    cases x <;> rfl

/-- Machines in use: new ones, what tasks leave, and what is left when bindings are exchanged. -/
inductive InUse : Machine M → Prop where
  | new (env : Env M) : InUse { env := env }
  | performed {m : Machine M} (h : InUse m) (task : Task M) : InUse (task.perform m).2
  | rebound {m : Machine M} (h : InUse m) (env : Env M) : InUse { m with env := env }

/-- No call is in progress in a machine in use. -/
theorem InUse.stack_eq (h : m.InUse) : m.stack = [] := by
  induction h with
  | new env => rfl
  | performed h task ih => exact (task.perform_eq _).2.trans (stack_run _ _ ih)
  | rebound h env ih => exact ih

/-- What a machine that is used again and again comes to, and the bindings that it leaves. -/
def performAll : List (Task M) → Machine M → List (Outcome M × Env M)
  | [], _ => []
  | task :: tasks, m =>
    ((task.perform m).1, (task.perform m).2.env) :: performAll tasks (task.perform m).2

end Machine

/-- What new machines come to, one for each task, and the bindings that they leave for the next. -/
def Env.performAll : List (Task M) → Env M → List (Outcome M × Env M)
  | [], _ => []
  | task :: tasks, env =>
    let m : Machine M := { env := env }
    ((task.perform m).1, (task.perform m).2.env) :: performAll tasks (task.perform m).2.env

/-- A machine without calls in progress does what new machines do. -/
theorem Machine.performAll_eq (tasks : List (Task M)) (hm : m.stack = []) :
    m.performAll tasks = m.env.performAll tasks := by
  induction tasks generalizing m with
  | nil => rfl
  | cons task tasks ih =>
    obtain ⟨houtcome, henv⟩ := task.perform_of_env (n := { env := m.env }) hm rfl rfl
    have hstack : (task.perform m).2.stack = [] :=
      (task.perform_eq m).2.trans (stack_run _ _ hm)
    rw [performAll, Env.performAll, ih hstack, houtcome, henv]

/-- The stack of calls is balanced and bounded, and leaves no trace. An expression is evaluated
where calls are in progress, not more than the limit allows. At every step these are still there,
and together with those made since they are not more than the limit allows. If the evaluation ends
with a value or by a return statement, the stack is what it was; a fault is recorded with the calls
in progress, and a call beyond the limit with as many as the limit allows. The failures of programs
and statements are recorded alike. A program or statement that ends normally leaves the calls that
were in progress; one that ends by a failure or by a return statement of its own leaves none. So no
machine in use has any, and one that is used again comes to the same outcomes and bindings as new
machines, one for each task. -/
theorem call_stack_discipline :
    (∀ (limit : Nat) (e : Expr M) (m : Machine M), m.stack.length ≤ limit →
      let process : Process M := ⟨.eval e, [], m⟩
      let result := e.evalWith .standard (Calls.left (limit - m.stack.length)) m
      (∃ n, process.after limit n = .settle .give [] result) ∧
      (∀ n, m.stack <:+ (process.after limit n).machine.stack ∧
        (process.after limit n).machine.stack.length ≤ limit) ∧
      (∀ v t, result = .ok v t → t.stack = m.stack) ∧
      (∀ v t, result = .error (.returned v) t → t.stack = m.stack) ∧
      ∀ fault t, result = .error (.fault fault) t → fault.Recorded limit m.stack t.stack) ∧
    (∀ (task : Task M) (m : Machine M) (f : Failure M), m.stack.length ≤ task.limit →
      (task.perform m).1 = .failure f → f.fault.Recorded task.limit m.stack f.stack) ∧
    (∀ (task : Task M) (m : Machine M),
      (∀ v t, Eval.block .standard (task.limit - m.stack.length) task.statements m = .ok v t →
        (task.perform m).1 = .value v ∧ (task.perform m).2.stack = m.stack) ∧
      ∀ x t, Eval.block .standard (task.limit - m.stack.length) task.statements m = .error x t →
        (task.perform m).2.stack = []) ∧
    ∀ m : Machine M, m.InUse → m.stack = [] ∧
      ∀ tasks, m.performAll tasks = m.env.performAll tasks := by
  refine ⟨?_, ?_, ?_, ?_⟩
  · intro limit e m hm process result
    obtain ⟨n, hn⟩ := Process.exists_after
      (Process.evaluates limit (limit - m.stack.length) e [] m rfl)
    have hstacked (n : Nat) : Process.StackedOn limit m.stack (process.after limit n) :=
      (Process.StackedOn.start rfl).after n
    have hkeeps := e.evalWith_left_keepsStack (limit - m.stack.length) m
    refine ⟨⟨n, hn⟩, fun n => ⟨(hstacked n).above, ?_⟩, fun v t h => ?_, fun v t h => ?_,
      fun fault t h => ?_⟩
    · exact (Process.stack_after limit n process).trans (max_le le_rfl hm)
    · change e.evalWith .standard _ m = _ at h
      rw [h] at hkeeps
      exact hkeeps
    · change e.evalWith .standard _ m = _ at h
      rw [h] at hkeeps
      exact hkeeps
    · change e.evalWith .standard _ m = _ at h
      rw [h] at hn
      exact Process.recorded_of_after rfl hm hn
  · intro task m f hm h
    exact Machine.recorded_of_run hm ((task.perform_eq m).1.symm.trans h)
  · intro task m
    rw [(task.perform_eq m).1, (task.perform_eq m).2]
    exact m.stack_run_of_block task.limit task.statements
  · intro m hm
    exact ⟨hm.stack_eq, fun tasks => m.performAll_eq tasks hm.stack_eq⟩

/-- A function that calls its argument with itself is called with itself, where one call is in
progress and three are allowed. -/
theorem call_stack_of_self_application :
    let base : Frame ℚ := ⟨⟨9, 1⟩, "main", []⟩
    let body : Expr ℚ := .call ⟨1, 18⟩ "g" [.reference ⟨⟨1, 20⟩, "g"⟩]
    let e : Expr ℚ := .call ⟨2, 1⟩ "f" [.reference ⟨⟨2, 3⟩, "f"⟩]
    let m : Machine ℚ := ⟨⟨[("f", .closure ⟨0, ["g"], [], [body]⟩)], 1⟩, {}, [base]⟩
    m.stack.length ≤ 3 ∧
      (∃ t, e.evalWith .standard (Calls.left 2) m = .error (.fault (.stackOverflow "g")) t ∧
        [base] <:+ t.stack ∧ t.stack.length = 3) ∧
      ∃ f, ((Task.single 3 e).perform { m with stack := [] }).1 = .failure f ∧
        f.fault = .stackOverflow "g" ∧ f.stack.length = 3 := by
  intro base body e m
  obtain ⟨heval, hfail, -, -⟩ := call_stack_discipline (M := ℚ)
  obtain ⟨-, -, -, -, hfault⟩ := heval 3 e m (by decide)
  obtain ⟨t, ht⟩ : ∃ t, e.evalWith .standard (Calls.left 2) m =
      .error (.fault (.stackOverflow "g")) t :=
    ⟨_, rfl⟩
  obtain ⟨f, hf, hover⟩ : ∃ f, ((Task.single 3 e).perform { m with stack := [] }).1 = .failure f ∧
      f.fault = .stackOverflow "g" := ⟨_, rfl, rfl⟩
  have hrecorded := hfault (.stackOverflow "g") t ht
  have hfull := (hfail (.single 3 e) { m with stack := [] } f (by decide) hf).full
  refine ⟨by decide, ⟨t, ht, hrecorded.above, hrecorded.full rfl⟩, f, hf, hover, hfull ?_⟩
  rw [hover]
  rfl

/-- A call that was in progress before is still in progress after a run that ends with a value: a
literal is run as a program and as a statement, and neither run leaves the stack empty. -/
theorem call_in_progress_after_literal :
    let base : Frame ℚ := ⟨⟨9, 1⟩, "main", []⟩
    let e : Expr ℚ := .literal ⟨1, 1⟩ (.boolean true)
    let m : Machine ℚ := ⟨{}, {}, [base]⟩
    m.stack.length ≤ 3 ∧
      ((Task.program 3 [e]).perform m).1 = .value (.boolean true) ∧
      ((Task.program 3 [e]).perform m).2.stack = [base] ∧
      ((Task.single 3 e).perform m).1 = .value (.boolean true) ∧
      ((Task.single 3 e).perform m).2.stack = [base] ∧
      ¬∀ (task : Task ℚ) (m : Machine ℚ), m.stack.length ≤ task.limit →
        (task.perform m).2.stack = [] := by
  intro base e m
  have hleft : ((Task.program 3 [e]).perform m).2.stack = [base] := rfl
  refine ⟨by decide, rfl, hleft, rfl, rfl, fun hempty => ?_⟩
  have hnone : [base] = [] := hleft.symm.trans (hempty (.program 3 [e]) m (by decide))
  exact List.cons_ne_nil base [] hnone

end SymCalc
