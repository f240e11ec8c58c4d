import Mathlib
import SymCalc.Proofs.Termination

/-!
# Failures point into the code that was running

The machine holds one position, which every node that is evaluated overwrites, also those in the
body of a function that has returned since. So evaluation is followed step by step along with a
trace: the statement being run, the functions whose calls are in progress, and the function that
has returned and whose body the position still points into, if there is one. Main statement: a
failure points into the statement, or into the body of the function called last, outside of the
functions written there, and each call in progress was made by a call written in the code around
it; the one exception is a cell that is not a scalar, which is reported where its evaluation has
left the position, also when that is the body of a function that has returned.
-/

namespace SymCalc

open Eval

variable {M : Type}

namespace Expr

/-- The position of a node and that of its operator. -/
def places : Expr M → List Position
  | unary pos op _ => [pos, op.pos]
  | binary pos _ op _ => [pos, op.pos]
  | e => [e.pos]

/-- A node has its own position. -/
theorem pos_mem_places (e : Expr M) : e.pos ∈ e.places := by
  cases e <;> exact List.mem_cons_self

end Expr

/-- A node stands in statements, and not inside the body of a function. -/
def InCode (code : List (Expr M)) (node : Expr M) : Prop := ∃ e ∈ code, e.Holds node

/-- A position is that of a node or of an operator in statements, and not inside the body of a
function. -/
def PointsInto (code : List (Expr M)) (pos : Position) : Prop :=
  ∃ node, InCode code node ∧ pos ∈ node.places

/-- A call in progress was made by a call that stands in statements. -/
def Frame.MadeIn (code : List (Expr M)) (frame : Frame M) : Prop :=
  ∃ args, InCode code (.call frame.pos frame.name args) ∧ args.length = frame.args.length

section

variable {code : List (Expr M)} {e x : Expr M} {pos : Position}

/-- A statement stands in its own code. -/
theorem inCode_of_mem (h : e ∈ code) : InCode code e := ⟨e, h, .root⟩

/-- A part of a node stands where the node does. -/
theorem InCode.part (h : InCode code e) (mem : x ∈ e.parts) : InCode code x := by
  obtain ⟨s, hs, hholds⟩ := h
  exact ⟨s, hs, hholds.part mem⟩

/-- The position of a node. -/
theorem InCode.points (h : InCode code e) : PointsInto code e.pos := ⟨e, h, e.pos_mem_places⟩

/-- A call points to where it was made. -/
theorem Frame.MadeIn.points {frame : Frame M} (h : frame.MadeIn code) :
    PointsInto code frame.pos := by
  obtain ⟨args, hcall, -⟩ := h
  exact hcall.points

/-- No position points into nothing. -/
theorem not_pointsInto_nil : ¬PointsInto ([] : List (Expr M)) pos := by
  rintro ⟨node, ⟨e, he, -⟩, -⟩
  cases he

end

/-- What is being run. -/
structure Trace (M : Type) where
  /-- The statement of the program. -/
  statement : Option (Expr M) := none
  /-- The functions whose calls are in progress, innermost first. -/
  calls : List (Closure M) := []
  /-- The function that has returned and whose body the position points into, unless the position
  has been moved since. -/
  returned : Option (Closure M) := none

/-- The statements that are run: the body of the function called last, or else the statement of
the program. -/
def runningCode (statement : Option (Expr M)) : List (Closure M) → List (Expr M)
  | [] => statement.toList
  | c :: _ => c.body

namespace Trace

/-- The statements that are run. -/
def code (t : Trace M) : List (Expr M) := runningCode t.statement t.calls

/-- The position is moved to a node or an operator of the code that is run. -/
def move (t : Trace M) : Trace M := { t with returned := none }

/-- A function is called. -/
def enter (c : Closure M) (t : Trace M) : Trace M := { t with calls := c :: t.calls }

/-- The function called last returns. If its body is not empty the position has been moved there. -/
def leave (t : Trace M) : Trace M :=
  match t.calls with
  | [] => t
  | c :: calls =>
    { t with
      calls := calls
      returned := t.returned <|> if c.body.isEmpty then none else some c }

/-- What is being run after the step that a process takes. -/
def next (limit : Nat) (p : Process M) (t : Trace M) : Trace M :=
  match p.focus, p.waits with
  | .block _ (e :: _), [] => { t with statement := some e }
  | .eval _, _ | .rows _ _ [], _ | .value _, .unary _ :: _ | .value _, .right _ _ :: _ => t.move
  -- A condition is decided where it is, and a value that is none is reported at the node.
  | .value (.boolean _), .branch _ _ _ :: _ => t
  | .value _, .branch _ _ _ :: _ => t.move
  | .gather (.call _ _ c) _ [], _ =>
    if p.machine.stack.length < limit then t.move.enter c else t.move
  | .value _, .body _ :: _ | .exit (.returned _), .body _ :: _ => t.leave
  | _, _ => t

/-- What is being run after so many steps of a process. -/
def after [Numeric M] (limit : Nat) : Nat → Process M → Trace M → Trace M
  | 0, _, t => t
  | n + 1, p, t =>
    match p.step limit with
    | none => t
    | some q => after limit n q (t.next limit p)

end Trace

/-- Each call in progress was made by a call that stands in the code around it: in the body of the
function called before, or in the statement of the program. -/
inductive Called (statement : Option (Expr M)) : List (Frame M) → List (Closure M) → Prop where
  /-- No call is in progress. -/
  | none : Called statement [] []
  /-- A call is in progress in the code around it. -/
  | call {frame : Frame M} {frames : List (Frame M)} {c : Closure M} {calls : List (Closure M)}
      (made : frame.MadeIn (runningCode statement calls)) (outer : Called statement frames calls) :
      Called statement (frame :: frames) (c :: calls)

/-- Without calls in progress no function is being called. -/
theorem Called.calls_eq_nil {statement : Option (Expr M)} {calls : List (Closure M)}
    (h : Called statement [] calls) : calls = [] := by
  cases h
  rfl

/-- A failure of what is being run: the calls in progress were made where they should be, and the
position points into the code that is run, or else a cell was not a scalar and the position points
into the body of the function that has returned. -/
structure Failure.Of (statements : List (Expr M)) (t : Trace M) (f : Failure M) : Prop where
  /-- A statement of the program is run. -/
  statement : ∃ s ∈ statements, t.statement = some s
  /-- The calls in progress. -/
  called : Called t.statement f.stack t.calls
  /-- The position points into the code that is run. -/
  running : t.returned = none → PointsInto t.code f.pos
  /-- The position points into the body of a function that has returned. -/
  stale : ∀ c, t.returned = some c → (∃ kind, f.fault = .cell kind) ∧ PointsInto c.body f.pos

/-- Values are wanted for a node of the code, with so many of them. -/
def Use.Fits (code : List (Expr M)) (count : Nat) : Use M → Prop
  | .tuple => True
  | .call pos name _ => ∃ args, InCode code (.call pos name args) ∧ args.length = count

/-- What waits for a value stands in the code. -/
def Wait.Fits (code : List (Expr M)) : Wait M → Prop
  | .unary op => PointsInto code op.pos
  | .left op operand => PointsInto code op.pos ∧ InCode code operand
  | .right _ op => PointsInto code op.pos
  | .assign _ | .ret => True
  | .gather use values later =>
    use.Fits code (values.length + 1 + later.length) ∧ ∀ e ∈ later, InCode code e
  | .cells pos _ _ later others =>
    PointsInto code pos ∧ (∀ e ∈ later, InCode code e) ∧ ∀ e ∈ others.flatten, InCode code e
  | .branch pos yes no =>
    PointsInto code pos ∧ InCode code yes ∧ ∀ e ∈ no.toList, InCode code e
  | .block later => ∀ e ∈ later, InCode code e
  | .body _ => False

/-- What waits is neither the statements that follow nor a call. -/
def Wait.isOperand : Wait M → Bool
  | .block _ | .body _ => false
  | _ => true

/-- The position points into the body of the function that has returned, or else into the code that
is run. Before the first statement of a body it points to the call. -/
def Trace.Located (t : Trace M) (m : Machine M) : Prop :=
  match t.returned with
  | some c => PointsInto c.body m.pos
  | none => PointsInto t.code m.pos ∨ t.code = [] ∧ ∃ frame ∈ m.stack.head?, frame.pos = m.pos

/-- What a process is busy with stands in the code that is run. -/
def Focus.Fits (t : Trace M) (m : Machine M) : Focus M → Prop
  | .eval e => InCode t.code e
  | .value _ | .exit (.returned _) => t.Located m
  | .exit _ => False
  | .gather use values later =>
    use.Fits t.code (values.length + later.length) ∧ (∀ e ∈ later, InCode t.code e) ∧ t.Located m
  | .rows pos _ later => PointsInto t.code pos ∧ ∀ e ∈ later.flatten, InCode t.code e
  | .cells pos _ _ later others =>
    PointsInto t.code pos ∧ (∀ e ∈ later, InCode t.code e) ∧ ∀ e ∈ others.flatten, InCode t.code e
  | .block _ later => (∀ e ∈ later, InCode t.code e) ∧ (later = [] → t.Located m)

/-- What waits stands in the code of the calls in progress, each in its own, and after the outermost
come the other statements of the program. -/
inductive Backed (statements : List (Expr M)) (statement : Option (Expr M)) :
    List (Wait M) → List (Frame M) → List (Closure M) → Prop where
  /-- The statements of the program that follow. -/
  | rest {later : List (Expr M)} (h : ∀ e ∈ later, e ∈ statements) :
      Backed statements statement [.block later] [] []
  /-- Something in the code that is run. -/
  | wait {w : Wait M} {ws : List (Wait M)} {frames : List (Frame M)} {calls : List (Closure M)}
      (fits : w.Fits (runningCode statement calls))
      (outer : Backed statements statement ws frames calls) :
      Backed statements statement (w :: ws) frames calls
  /-- A call. -/
  | body {caller : Bindings M} {ws : List (Wait M)} {frame : Frame M} {frames : List (Frame M)}
      {c : Closure M} {calls : List (Closure M)} (made : frame.MadeIn (runningCode statement calls))
      (outer : Backed statements statement ws frames calls) :
      Backed statements statement (.body caller :: ws) (frame :: frames) (c :: calls)

namespace Backed

variable {statements later : List (Expr M)} {statement : Option (Expr M)} {w : Wait M}
  {ws : List (Wait M)} {frames : List (Frame M)} {calls : List (Closure M)} {caller : Bindings M}

/-- The calls in progress were made where they should be. -/
theorem called (h : Backed statements statement ws frames calls) :
    Called statement frames calls := by
  induction h with
  | rest _ => exact .none
  | wait _ _ ih => exact ih
  | body made _ ih => exact .call made ih

/-- An operand is wanted in the code that is run. -/
theorem operand (h : Backed statements statement (w :: ws) frames calls)
    (hw : w.isOperand = true) :
    w.Fits (runningCode statement calls) ∧ Backed statements statement ws frames calls := by
  cases h with
  | rest _ => cases hw
  | wait fits outer => exact ⟨fits, outer⟩
  | body _ _ => cases hw

/-- The statements that follow are those of the code that is run, or of the program. -/
theorem block (h : Backed statements statement (.block later :: ws) frames calls) :
    (ws = [] ∧ frames = [] ∧ calls = [] ∧ ∀ e ∈ later, e ∈ statements) ∨
      ((∀ e ∈ later, InCode (runningCode statement calls) e) ∧
        Backed statements statement ws frames calls) := by
  cases h with
  | rest h => exact .inl ⟨rfl, rfl, rfl, h⟩
  | wait fits outer => exact .inr ⟨fits, outer⟩

/-- A call is in progress. -/
theorem exists_call (h : Backed statements statement (.body caller :: ws) frames calls) :
    ∃ frame frames' c calls', frames = frame :: frames' ∧ calls = c :: calls' ∧
      frame.MadeIn (runningCode statement calls') ∧
      Backed statements statement ws frames' calls' := by
  cases h with
  | wait fits _ => exact fits.elim
  | body made outer => exact ⟨_, _, _, _, rfl, rfl, made, outer⟩

end Backed

/-- A statement of the program is run, and what waits stands in the code around. -/
structure Trace.Runs (statements : List (Expr M)) (t : Trace M) (ws : List (Wait M))
    (m : Machine M) : Prop where
  /-- A statement of the program is run. -/
  statement : ∃ s ∈ statements, t.statement = some s
  /-- What waits. -/
  backed : Backed statements t.statement ws m.stack t.calls

/-- A process that runs statements, and what is being run. -/
inductive Process.Traced (statements : List (Expr M)) : Process M → Trace M → Prop where
  /-- Between two statements of the program. -/
  | between {last : Value M} {later : List (Expr M)} {m : Machine M} {t : Trace M}
      (mem : ∀ e ∈ later, e ∈ statements) (stack : m.stack = []) (calls : t.calls = []) :
      Traced statements ⟨.block last later, [], m⟩ t
  /-- In a statement of the program. -/
  | inside {focus : Focus M} {ws : List (Wait M)} {m : Machine M} {t : Trace M}
      (runs : t.Runs statements ws m) (fits : focus.Fits t m) : Traced statements ⟨focus, ws, m⟩ t
  /-- After a failure. -/
  | failed {fault : Fault} {ws : List (Wait M)} {m : Machine M} {t : Trace M}
      (of : Failure.Of statements t ⟨m.pos, fault, m.stack⟩) :
      Traced statements ⟨.exit (.fault fault), ws, m⟩ t
  /-- After an operator where a value is needed. -/
  | stray {op : Operator} {ws : List (Wait M)} {m : Machine M} {t : Trace M} :
      Traced statements ⟨.exit (.stray op), ws, m⟩ t
  /-- At the end, with a value. -/
  | value {v : Value M} {m : Machine M} {t : Trace M} : Traced statements ⟨.value v, [], m⟩ t
  /-- At the end, by a return statement. -/
  | returned {v : Value M} {m : Machine M} {t : Trace M} :
      Traced statements ⟨.exit (.returned v), [], m⟩ t

namespace Trace

variable {statements : List (Expr M)} {t : Trace M} {ws : List (Wait M)} {m : Machine M}
  {pos : Position}

/-- The position is moved into the code that is run. -/
theorem located_move (h : PointsInto t.code pos) : t.move.Located { m with pos := pos } := .inl h

/-- Moving the position leaves what is run. -/
theorem Runs.move (h : t.Runs statements ws m) (pos : Position) :
    t.move.Runs statements ws { m with pos := pos } :=
  ⟨h.statement, h.backed⟩

/-- A fault at a position in the code that is run. -/
theorem Runs.fail (h : t.Runs statements ws m) (hpos : PointsInto t.code pos) (fault : Fault)
    (ws' : List (Wait M)) :
    Process.Traced statements ⟨.exit (.fault fault), ws', { m with pos := pos }⟩ t.move := by
  refine .failed ⟨h.statement, h.backed.called, fun _ => hpos, fun c hc => ?_⟩
  cases hc

/-- A value at a position in the code that is run. -/
theorem Runs.give (h : t.Runs statements ws m) (hpos : PointsInto t.code pos) (v : Value M) :
    Process.Traced statements ⟨.value v, ws, { m with pos := pos }⟩ t.move :=
  .inside (h.move pos) (located_move hpos)

/-- The result of an operation at a position in the code that is run. -/
theorem Runs.lift (h : t.Runs statements ws m) (hpos : PointsInto t.code pos)
    (x : Except Fault (Value M)) :
    Process.Traced statements
      (Process.settle Process.give ws (Eval.lift x { m with pos := pos })) t.move := by
  cases x with
  | ok v => exact h.give hpos v
  | error fault => exact h.fail hpos fault ws

/-- Starting on a node moves the position there and goes on with its parts. -/
theorem Runs.start (h : t.Runs statements ws m) {e : Expr M} (he : InCode t.code e) :
    Process.Traced statements (Process.start e ws m) t.move := by
  have hpos := he.points
  have hmoved := h.move e.pos
  have hat : t.move.Located { m with pos := e.pos } := located_move hpos
  -- An operand is evaluated while something in the code waits for it.
  have hpush {w : Wait M} {x : Expr M} (hw : w.Fits t.code) (hx : x ∈ e.parts) :
      Process.Traced statements ⟨.eval x, w :: ws, { m with pos := e.pos }⟩ t.move :=
    .inside ⟨hmoved.statement, .wait hw hmoved.backed⟩ (he.part hx)
  cases e with
  | literal pos c => exact h.give hpos c.value
  | reference ref =>
    rw [Process.start, lookup_eq]
    dsimp only
    cases m.env.bindings.find? ref.name with
    | none => exact h.fail hpos _ ws
    | some v => exact h.give hpos v
  | operator op => exact .stray
  | unary pos op right =>
    exact hpush ⟨_, he, by simp [Expr.places]⟩ (by simp [Expr.parts, Expr.children])
  | binary pos left op right =>
    refine hpush ⟨⟨_, he, by simp [Expr.places]⟩, he.part ?_⟩ ?_
    · simp [Expr.parts, Expr.children]
    · simp [Expr.parts, Expr.children]
  | assign pos target right => exact hpush trivial (by simp [Expr.parts, Expr.children])
  | tuple pos items => exact .inside hmoved ⟨trivial, fun x hx => he.part hx, hat⟩
  | matrix pos rows => exact .inside hmoved ⟨hpos, fun x hx => he.part hx⟩
  | ifThen pos test yes =>
    refine hpush ⟨hpos, he.part ?_, by simp⟩ ?_
    · simp [Expr.parts, Expr.children]
    · simp [Expr.parts, Expr.children]
  | ifElse pos test yes no =>
    refine hpush ⟨hpos, he.part ?_, List.forall_mem_singleton.mpr (he.part ?_)⟩ ?_
    · simp [Expr.parts, Expr.children]
    · simp [Expr.parts, Expr.children]
    · simp [Expr.parts, Expr.children]
  | lambda pos params bodyPos body => exact .inside ⟨hmoved.statement, hmoved.backed⟩ hat
  | call pos name args =>
    rw [Process.start]
    rcases callee_cases name args.length { m with pos := (Expr.call pos name args).pos } with
      ⟨c, -, heq⟩ | ⟨fault, -, heq⟩
    · rw [heq]
      exact .inside hmoved ⟨⟨args, he, (Nat.zero_add _).symm⟩, fun x hx => he.part hx, hat⟩
    · rw [heq]
      exact h.fail hpos fault ws
  | ret pos value => exact hpush trivial (by simp [Expr.parts, Expr.children])
  | declare pos words => exact h.fail hpos _ ws
  | program pos statements => exact .inside hmoved ⟨fun x hx => he.part hx, fun _ => hat⟩

/-- Using values makes a call in the code that is run, or fails at its position. -/
theorem Runs.apply (h : t.Runs statements ws m) {use : Use M} {values : List (Value M)}
    (hfits : (Focus.gather use values []).Fits t m) (limit : Nat) :
    Process.Traced statements (Process.apply limit use values ws m)
      (t.next limit ⟨.gather use values [], ws, m⟩) := by
  obtain ⟨huse, -, hat⟩ := hfits
  cases use with
  | tuple =>
    rcases values with _ | ⟨v, _ | ⟨u, values⟩⟩
    · exact .inside h hat
    · exact .inside h hat
    · exact .inside h hat
  | call pos name c =>
    obtain ⟨args, hcall, hlength⟩ := huse
    have hnext : t.next limit ⟨.gather (.call pos name c) values [], ws, m⟩ =
        if m.stack.length < limit then t.move.enter c else t.move := rfl
    rw [hnext, Process.apply]
    split
    · have hmade : Frame.MadeIn t.code ⟨pos, name, values⟩ := ⟨args, hcall, hlength⟩
      refine .inside ⟨h.statement, .body hmade h.backed⟩ ⟨fun e he => inCode_of_mem he, ?_⟩
      exact fun hempty => .inr ⟨hempty, ⟨pos, name, values⟩, rfl, rfl⟩
    · exact h.fail hcall.points _ ws

/-- When a function returns its caller goes on, and the position points into the body of that
function, unless a function that it has called has left it elsewhere or the body is empty. -/
theorem Runs.leave {caller : Bindings M} (h : t.Runs statements (.body caller :: ws) m)
    (hat : t.Located m) (env : Env M) :
    t.leave.Runs statements ws { m with env := env, stack := m.stack.tail } ∧
      t.leave.Located { m with env := env, stack := m.stack.tail } := by
  obtain ⟨frame, frames, c, calls, hframes, hcalls, hmade, houter⟩ := h.backed.exists_call
  obtain ⟨statement, _, returned⟩ := t
  cases hcalls
  refine ⟨⟨h.statement, by rwa [hframes]⟩, ?_⟩
  cases returned with
  | some d => exact hat
  | none =>
    cases hbody : c.body with
    | nil =>
      have hleave : leave ⟨statement, c :: calls, none⟩ = ⟨statement, calls, none⟩ := by
        simp [leave, hbody]
      obtain hpoints | ⟨-, _, hhead, hpos⟩ := hat
      · have hpoints : PointsInto c.body m.pos := hpoints
        rw [hbody] at hpoints
        exact absurd hpoints not_pointsInto_nil
      · -- Nothing in the body has moved the position away from the call.
        rw [hframes] at hhead
        cases hhead
        rw [hleave]
        exact .inl (hpos ▸ hmade.points)
    | cons e es =>
      have hleave : leave ⟨statement, c :: calls, none⟩ = ⟨statement, calls, some c⟩ := by
        simp [leave, hbody]
      obtain hpoints | ⟨hempty, -⟩ := hat
      · rw [hleave]
        exact hpoints
      · have hempty : c.body = [] := hempty
        rw [hbody] at hempty
        cases hempty

/-- A cell that is not a scalar is reported where the position is. -/
theorem Runs.fail_cell (h : t.Runs statements ws m) (hat : t.Located m)
    (hcode : PointsInto t.code pos) (kind : ValueKind) :
    Failure.Of statements t ⟨m.pos, .cell kind, m.stack⟩ := by
  refine ⟨h.statement, h.backed.called, fun hnone => ?_, fun c hsome => ⟨⟨kind, rfl⟩, ?_⟩⟩
  · rw [Located, hnone] at hat
    obtain hpoints | ⟨hempty, -⟩ := hat
    · exact hpoints
    · rw [hempty] at hcode
      exact absurd hcode not_pointsInto_nil
  · rw [Located, hsome] at hat
    exact hat

variable [Numeric M]

/-- Going on with a value stays in the code that is run, or goes back to the code of the caller. -/
theorem Runs.resume {w : Wait M} (h : t.Runs statements (w :: ws) m) (hat : t.Located m)
    (v : Value M) (limit : Nat) :
    Process.Traced statements (Process.resume v w ws m)
      (t.next limit ⟨.value v, w :: ws, m⟩) := by
  cases w with
  | unary op =>
    obtain ⟨hop, houter⟩ := h.backed.operand rfl
    exact Runs.lift ⟨h.statement, houter⟩ hop _
  | left op right =>
    obtain ⟨⟨hop, hright⟩, houter⟩ := h.backed.operand rfl
    exact .inside ⟨h.statement, .wait hop houter⟩ hright
  | right u op =>
    obtain ⟨hop, houter⟩ := h.backed.operand rfl
    exact Runs.lift ⟨h.statement, houter⟩ hop _
  | assign name =>
    obtain ⟨-, houter⟩ := h.backed.operand rfl
    exact .inside ⟨h.statement, houter⟩ hat
  | gather use values later =>
    obtain ⟨⟨huse, hlater⟩, houter⟩ := h.backed.operand rfl
    refine .inside ⟨h.statement, houter⟩ ⟨?_, hlater, hat⟩
    rw [List.length_append]
    exact huse
  | cells pos done cells later rows =>
    obtain ⟨hfits, houter⟩ := h.backed.operand rfl
    rw [Process.resume]
    split
    · exact .failed (Runs.fail_cell ⟨h.statement, houter⟩ hat hfits.1 _)
    · exact .inside ⟨h.statement, houter⟩ hfits
  | branch pos yes no =>
    obtain ⟨⟨hpos, hyes, hno⟩, houter⟩ := h.backed.operand rfl
    have hruns : t.Runs statements ws m := ⟨h.statement, houter⟩
    cases v with
    | boolean b =>
      cases b with
      | true => exact .inside hruns hyes
      | false =>
        cases no with
        | none => exact .inside hruns hat
        | some no => exact .inside hruns (hno no List.mem_cons_self)
    | _ => exact hruns.fail hpos _ ws
  | ret =>
    obtain ⟨-, houter⟩ := h.backed.operand rfl
    exact .inside ⟨h.statement, houter⟩ hat
  | block later =>
    obtain ⟨rfl, hstack, hcalls, hmem⟩ | ⟨hlater, houter⟩ := h.backed.block
    · exact .between hmem hstack hcalls
    · exact .inside ⟨h.statement, houter⟩ ⟨hlater, fun _ => hat⟩
  | body caller =>
    obtain ⟨hruns, hleft⟩ := h.leave hat ⟨caller, m.env.made⟩
    exact .inside hruns hleft

omit [Numeric M] in
/-- A return statement gives up what waits in the code that is run, and ends the function. -/
theorem Runs.unwind {w : Wait M} (h : t.Runs statements (w :: ws) m) (hat : t.Located m)
    (v : Value M) (limit : Nat) :
    Process.Traced statements (Process.unwind (.returned v) w ws m)
      (t.next limit ⟨.exit (.returned v), w :: ws, m⟩) := by
  cases w with
  | block later =>
    obtain ⟨rfl, -⟩ | ⟨-, houter⟩ := h.backed.block
    · exact .returned
    · exact .inside ⟨h.statement, houter⟩ hat
  | body caller =>
    obtain ⟨hruns, hleft⟩ := h.leave hat ⟨caller, m.env.made⟩
    exact .inside hruns hleft
  | _ =>
    obtain ⟨-, houter⟩ := h.backed.operand rfl
    exact .inside ⟨h.statement, houter⟩ hat

end Trace

namespace Process.Traced

variable [Numeric M] {statements : List (Expr M)} {t : Trace M} {p q : Process M} {limit : Nat}

/-- A step keeps the process and its trace together. -/
theorem step (h : Traced statements p t) (hstep : p.step limit = some q) :
    Traced statements q (t.next limit p) := by
  cases h with
  | @between last later m t mem stack calls =>
    cases later with
    | nil =>
      cases hstep
      exact .value
    | cons e es =>
      cases hstep
      obtain ⟨he, hes⟩ := List.forall_mem_cons.mp mem
      refine .inside ⟨⟨e, he, rfl⟩, ?_⟩ ?_
      · change Backed statements (some e) [.block es] m.stack t.calls
        rw [stack, calls]
        exact .rest hes
      · change InCode (runningCode (some e) t.calls) e
        rw [calls]
        exact inCode_of_mem List.mem_cons_self
  | @inside focus ws m t runs fits =>
    cases focus with
    | eval e =>
      cases hstep
      exact runs.start fits
    | value v =>
      cases ws with
      | nil => cases hstep
      | cons w ws =>
        cases hstep
        exact runs.resume fits v limit
    | exit x =>
      cases ws with
      | nil => cases hstep
      | cons w ws =>
        cases hstep
        cases x with
        | returned v => exact runs.unwind fits v limit
        | fault cause => exact fits.elim
        | stray op => exact fits.elim
    | gather use values later =>
      cases later with
      | nil =>
        cases hstep
        exact runs.apply fits limit
      | cons e es =>
        cases hstep
        obtain ⟨huse, hlater, -⟩ := fits
        obtain ⟨he, hes⟩ := List.forall_mem_cons.mp hlater
        have hcount : values.length + (e :: es).length = values.length + 1 + es.length := by
          rw [List.length_cons]
          omega
        rw [hcount] at huse
        have hnext : t.next limit ⟨.gather use values (e :: es), ws, m⟩ = t := by
          cases use <;> rfl
        rw [hnext]
        exact .inside ⟨runs.statement, .wait ⟨huse, hes⟩ runs.backed⟩ he
    | rows pos done later =>
      obtain ⟨hpos, hcells⟩ := fits
      cases later with
      | nil =>
        cases hstep
        exact runs.lift hpos _
      | cons row rows =>
        cases hstep
        rw [List.flatten_cons, List.forall_mem_append] at hcells
        exact .inside runs ⟨hpos, hcells⟩
    | cells pos done cells later rows =>
      obtain ⟨hpos, hlater, hrows⟩ := fits
      cases later with
      | nil =>
        cases hstep
        exact .inside runs ⟨hpos, hrows⟩
      | cons e es =>
        cases hstep
        obtain ⟨he, hes⟩ := List.forall_mem_cons.mp hlater
        exact .inside ⟨runs.statement, .wait ⟨hpos, hes, hrows⟩ runs.backed⟩ he
    | block last later =>
      obtain ⟨hlater, hat⟩ := fits
      cases later with
      | nil =>
        cases hstep
        exact .inside runs (hat rfl)
      | cons e es =>
        cases hstep
        obtain ⟨he, hes⟩ := List.forall_mem_cons.mp hlater
        -- Something waits, so these are not the statements of the program.
        cases ws with
        | nil => cases runs.backed
        | cons w ws => exact .inside ⟨runs.statement, .wait hes runs.backed⟩ he
  | @failed fault ws m t of =>
    cases ws with
    | nil => cases hstep
    | cons w ws =>
      cases hstep
      cases w <;> exact .failed of
  | @stray op ws m t =>
    cases ws with
    | nil => cases hstep
    | cons w ws =>
      cases hstep
      cases w <;> exact .stray
  | value => cases hstep
  | returned => cases hstep

/-- A run keeps the process and its trace together. -/
theorem after (h : Traced statements p t) (limit n : Nat) :
    Traced statements (p.after limit n) (t.after limit n p) := by
  induction n generalizing p t with
  | zero => exact h
  | succ n ih =>
    rw [Process.after, Trace.after]
    cases hstep : p.step limit with
    | none => exact h
    | some q => exact ih (h.step hstep)

omit [Numeric M] in
/-- A process that has come to a failure. -/
theorem failure {f : Failure M} {m : Machine M} (h : Traced statements p t)
    (houtcome : p.outcome = some (.failure f, m)) : f.Of statements t := by
  unfold outcome at houtcome
  split at houtcome
  · cases houtcome
  · cases houtcome
  · cases houtcome
    cases h with
    | inside _ fits => exact fits.elim
    | failed of => exact of
  · cases houtcome
  · cases houtcome

end Process.Traced

/-- Failures point into the code that was running. Whenever statements, in any bindings and with
any limit of calls, come to a failure, following the run step by step to the failure tells which
statement was being run and which functions were being called. Each call on the stack was made by a
call, with that name and that many arguments, in the body of the function called before it, or in
the statement for the outermost one, and not inside a function written there. The position is that
of a node or an operator of the body of the function called last, or of the statement if no call is
in progress, and not inside a function written there; but a cell that is not a scalar is reported
where the position was left, which is in the body of the function that has returned if nothing has
moved the position since. -/
theorem failures_point_into_running_code [Numeric M] (limit : Nat) (statements : List (Expr M))
    (env : Env M) (pos : Position) (f : Failure M) (m : Machine M)
    (h : Machine.run limit statements ⟨env, pos, []⟩ = (.failure f, m)) :
    ∃ n statement, statement ∈ statements ∧
      let p := Process.ofStatements statements ⟨env, pos, []⟩
      let t := Trace.after limit n p {}
      (p.after limit n).outcome = some (.failure f, m) ∧
      t.statement = some statement ∧ Called (some statement) f.stack t.calls ∧
      (t.returned = none → PointsInto (runningCode (some statement) t.calls) f.pos) ∧
      ∀ c, t.returned = some c → (∃ kind, f.fault = .cell kind) ∧ PointsInto c.body f.pos := by
  obtain ⟨n, -, houtcome⟩ := Process.haltsWith_run limit statements ⟨env, pos, []⟩
  rw [h] at houtcome
  have hstart : Process.Traced statements (Process.ofStatements statements ⟨env, pos, []⟩) {} :=
    .between (fun _ he => he) rfl rfl
  have hfailure := (hstart.after limit n).failure houtcome
  obtain ⟨statement, hmem, hstatement⟩ := hfailure.statement
  have hcalled := hfailure.called
  have hrunning := hfailure.running
  rw [hstatement] at hcalled
  rw [Trace.code, hstatement] at hrunning
  exact ⟨n, statement, hmem, houtcome, hstatement, hcalled, hrunning, hfailure.stale⟩

/-- A function that gives a Boolean is bound on the first line and called in a cell on the second.
The failure is reported with no call in progress at a position that is in neither of the two
statements: the one in the body of the function, which has returned. -/
theorem cell_failure_points_into_returned_body :
    let first : Expr ℚ := .assign ⟨1, 1⟩ ⟨⟨1, 1⟩, "f"⟩
      (.lambda ⟨1, 5⟩ [⟨⟨1, 13⟩, "a"⟩] ⟨1, 16⟩ [.literal ⟨1, 18⟩ (.boolean true)])
    let second : Expr ℚ := .matrix ⟨2, 1⟩
      [[.call ⟨2, 2⟩ "f" [.literal ⟨2, 4⟩ (.scalar (.number 1))]]]
    let machine : Machine ℚ := ⟨{}, {}, []⟩
    ∃ f m, Machine.run 10 [first, second] machine = (.failure f, m) ∧
      f.pos = ⟨1, 18⟩ ∧ f.fault = .cell .boolean ∧ f.stack = [] ∧
      (∀ s ∈ [first, second], ¬PointsInto [s] f.pos) ∧
      ∃ n c, (Trace.after 10 n (Process.ofStatements [first, second] machine) {}).returned =
        some c ∧ PointsInto c.body f.pos := by
  intro first second machine
  have hrun : ∃ f m, Machine.run 10 [first, second] machine = (.failure f, m) ∧
      f.pos = ⟨1, 18⟩ ∧ f.fault = .cell .boolean ∧ f.stack = [] := ⟨_, _, rfl, rfl, rfl, rfl⟩
  obtain ⟨f, m, hrun, hpos, hfault, hstack⟩ := hrun
  have hfirst : ¬PointsInto [first] f.pos := by
    rintro ⟨node, ⟨_, hmem, hholds⟩, hplaces⟩
    cases List.mem_singleton.mp hmem
    have hnode : node ∈ first :: first.parts :=
      hholds.mem_of_parts List.mem_cons_self (by simp [first, Expr.parts, Expr.children])
    rw [hpos] at hplaces
    rcases List.mem_cons.mp hnode with rfl | hnode
    · simp [first, Expr.places, Expr.pos] at hplaces
    · cases List.mem_singleton.mp hnode
      simp [Expr.places, Expr.pos] at hplaces
  have hsecond : ¬PointsInto [second] f.pos := by
    rintro ⟨node, ⟨_, hmem, hholds⟩, hplaces⟩
    cases List.mem_singleton.mp hmem
    have hnode : node ∈ second :: second.parts ++ second.parts.flatMap Expr.parts :=
      hholds.mem_of_parts List.mem_cons_self (by simp [second, Expr.parts, Expr.children])
    rw [hpos] at hplaces
    simp only [second, Expr.parts, Expr.children, List.flatten_cons, List.flatten_nil,
      List.append_nil, List.flatMap_cons, List.flatMap_nil, List.mem_append, List.mem_cons,
      List.not_mem_nil, or_false] at hnode
    rcases hnode with (rfl | rfl) | rfl <;> simp [Expr.places, Expr.pos] at hplaces
  have hneither : ∀ s ∈ [first, second], ¬PointsInto [s] f.pos := by
    simp [hfirst, hsecond]
  refine ⟨f, m, hrun, hpos, hfault, hstack, hneither, ?_⟩
  obtain ⟨n, statement, hmem, -, -, hcalled, hrunning, hstale⟩ :=
    failures_point_into_running_code 10 [first, second] {} {} f m hrun
  -- No call is in progress, so the position would have to point into one of the statements.
  rw [hstack] at hcalled
  have hreturned : (Trace.after 10 n (Process.ofStatements [first, second] machine) {}).returned ≠
      none := by
    intro hnone
    have hpoints := hrunning hnone
    rw [hcalled.calls_eq_nil] at hpoints
    exact hneither statement hmem hpoints
  obtain ⟨c, hc⟩ := Option.ne_none_iff_exists'.mp hreturned
  exact ⟨n, c, hc, (hstale c hc).2⟩

end SymCalc
