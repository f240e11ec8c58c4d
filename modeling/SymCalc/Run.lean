import SymCalc.Expr.Parser
import SymCalc.Machine.Trace

/-!
# Running programs

A program is run as a whole, or statement by statement as it is read, from a text or from lines
that are asked for. Results go to the output, errors to the error output; an erroneous statement
leaves the bindings as they were, and the next statement is run.
-/

namespace SymCalc

variable {M : Type} [Numeric M]

/-- What stops a run at once. -/
inductive Interrupt where
  /-- A syntax error, when the first error is to stop the run. -/
  | badText (error : SyntaxError)
  /-- A fault, when the first error is to stop the run. -/
  | fault (fault : Fault)
  /-- An operator where a value is needed. -/
  | stray (op : Operator)

/-- The state of a run. -/
structure Progress (M : Type) where
  /-- Where reading stands. -/
  cursor : Cursor
  /-- The machine that evaluates statements. -/
  machine : Machine M := {}
  /-- What has been written to the output. -/
  out : Text := ""
  /-- What has been written to the error output. -/
  err : Text := ""
  /-- Whether every statement has succeeded. -/
  ok : Bool := true
  /-- What stopped the run, if something did. -/
  interrupt : Option Interrupt := none

/-- What is printed for a value: a line, but nothing for a statement without a value. -/
def printed (settings : Settings) (v : Value M) : Text :=
  if v.isUnit then "" else v.render (Numeric.format settings.format) ++ "\n"

/-- The line that stands for the time that a statement took. -/
def timeLine : Text := "(cpu)\n"

namespace Progress

/-- Writes to the output. -/
def print (p : Progress M) (text : Text) : Progress M := { p with out := p.out ++ text }

/-- Writes a line to the error output and remembers that something failed. -/
def complain (p : Progress M) (report : Text) : Progress M :=
  { p with err := p.err ++ report ++ "\n", ok := false }

/-- Goes on from a cursor, after what it has logged was written to the output. -/
def moveTo (p : Progress M) (c : Cursor) : Progress M :=
  { p with
    out := p.out ++ c.scanner.log
    cursor := { c with scanner := { c.scanner with log := "" } } }

/-- Stops the run. -/
def stop (p : Progress M) (interrupt : Interrupt) : Progress M :=
  { p with interrupt := some interrupt, ok := false }

/-- Takes note of a syntax error. In a conversation the rest of the line is dropped. -/
def reject (settings : Settings) (interactive : Bool) (p : Progress M) (e : SyntaxError) :
    Progress M :=
  if settings.debug.stop then p.stop (.badText e)
  else
    let p := p.complain e.report
    if interactive then { p with cursor := p.cursor.discard } else p

/-- Evaluates a statement and prints its value or its failure. -/
def evaluate (settings : Settings) (interactive : Bool) (p : Progress M) (e : Expr M) :
    Progress M :=
  let (outcome, machine) := p.machine.runStatement settings.maxDepth e
  let p := { p with machine := machine }
  let p := if interactive && settings.debug.cpu then p.print timeLine else p
  match outcome with
  | .value v => p.print (printed settings v)
  | .failure f => if settings.debug.stop then p.stop (.fault f.fault) else p.complain f.report
  | .stray op => p.stop (.stray op)

/-- Reads and runs one statement. -/
def step (settings : Settings) (interactive : Bool) (p : Progress M) : Progress M :=
  let (result, c) := p.cursor.statement settings
  let p := p.moveTo c
  match result with
  | .error e => p.reject settings interactive e
  | .ok e => p.evaluate settings interactive e

/-- Reads and runs statements, for as many rounds as there may be tokens. -/
def loopWithin (settings : Settings) (interactive : Bool) : (rounds : Nat) → Progress M → Progress M
  | 0, p => p
  | rounds + 1, p =>
    let (ends, c) := p.cursor.atEnd
    let p := p.moveTo c
    if ends then p
    else
      let p := p.step settings interactive
      if p.interrupt.isSome then p else loopWithin settings interactive rounds p

/-- Reads and runs statements to the end of the input. -/
def loop (settings : Settings) (interactive : Bool) (p : Progress M) : Progress M :=
  p.loopWithin settings interactive p.cursor.scanner.size

end Progress

/-- Runs the statements of a source one after the other. -/
def runSource (settings : Settings) (name : Text) (source : Source) (env : Env M)
    (interactive : Bool) : Progress M :=
  let p : Progress M := { cursor := Cursor.start settings name source, machine := { env := env } }
  p.loop settings interactive

/-- A conversation: runs statements from lines that are asked for. -/
def converse (settings : Settings) (lines : List Line) (env : Env M) : Progress M :=
  runSource settings "" (.ofLines lines) env true

/-- What comes of running a whole program. -/
structure FileReport (M : Type) where
  /-- The bindings at the end, if nothing failed. -/
  env : Option (Env M)
  /-- What was written to the output. -/
  out : Text
  /-- What was written to the error output. -/
  err : Text
  /-- What stopped the run, if something did. -/
  interrupt : Option Interrupt := none

/-- Whether a whole program ran without an error. -/
def FileReport.ok (r : FileReport M) : Bool := r.env.isSome

/-- Runs a whole program in an empty environment, if it has no syntax errors, and prints its
value. -/
def runFile (settings : Settings) (name : Text) (text : Text) : FileReport M :=
  let (result, c) := (Cursor.start settings name (.ofText text)).program (M := M) settings
  let out := c.scanner.log
  match result with
  | .error errors =>
    match settings.debug.stop, errors with
    | true, e :: _ => ⟨none, out, "", some (.badText e)⟩
    | _, _ => ⟨none, out, SyntaxError.reportAll errors ++ "\n", none⟩
  | .ok statements =>
    match Machine.run settings.maxDepth statements {} with
    | (.value v, m) => ⟨some m.env, out ++ printed settings v, "", none⟩
    | (.failure f, _) =>
      if settings.debug.stop then ⟨none, out, "", some (.fault f.fault)⟩
      else ⟨none, out, name ++ ":" ++ f.report ++ "\n", none⟩
    | (.stray op, _) => ⟨none, out, "", some (.stray op)⟩

end SymCalc
