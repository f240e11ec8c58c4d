import SymCalc.Machine.Eval
import SymCalc.Text.Basic

/-!
# Traces

A failure is reported with its position and the calls in progress, the innermost last. Long
arguments are cut, and of many calls only the innermost are shown.
-/

namespace SymCalc

variable {M : Type} [Numeric M]

/-- The number of bytes shown of an argument. -/
def argumentLimit : Nat := 50

/-- The number of calls shown. -/
def traceLimit : Nat := 25

/-- A printed value on one line, cut to a number of bytes. -/
def shorten (t : Text) : Text :=
  let bytes := t.bytes.map fun b => if b = Text.newline then 0x20 else b
  if argumentLimit < bytes.length then Text.ofBytes (bytes.take argumentLimit) ++ "..."
  else Text.ofBytes bytes

/-- A call as traces show it. -/
def Frame.text (f : Frame M) : Text :=
  let args := f.args.map fun v => shorten (v.render Numeric.write)
  f.name ++ "(" ++ Text.join ", " args ++ ") at " ++ f.pos.text

namespace Failure

/-- The innermost calls up to a number, outermost first. -/
def innermost (f : Failure M) (count : Nat) : List (Frame M) := (f.stack.take count).reverse

/-- A failure as it is reported. -/
def report (f : Failure M) : Text :=
  let head : Text := f.pos.text ++ ": " ++ f.fault.message
  let note : Text :=
    if traceLimit < f.stack.length then
      "\n\t•> stack truncated: " ++ toString f.stack.length ++ " calls total; showing innermost"
    else ""
  let calls : List Text := (f.innermost traceLimit).map fun frame => "\n\t•> " ++ frame.text
  head ++ note ++ Text.join "" calls

end Failure

/-- What is said of an operator where a value is needed. -/
def strayMessage (op : Operator) : Text :=
  "exec: operator " ++ Text.quote op.symbol ++ " evaluated outside an operation at " ++ op.pos.text

end SymCalc
