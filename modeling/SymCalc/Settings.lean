import SymCalc.Text.Basic

/-!
# Settings

What a user can set: how magnitudes are written, the prompt, the depth of calls, and flags
that show the inner workings.
-/

namespace SymCalc

/-- Flags that show the inner workings. -/
structure Debug where
  /-- Report the time of each statement of a conversation. -/
  cpu : Bool := false
  /-- Stop at the first error instead of reporting it. -/
  stop : Bool := false
  /-- Show the outline of each statement. -/
  outline : Bool := false
  /-- Show each token. -/
  tokens : Bool := false
  deriving DecidableEq, Repr

namespace Debug

/-- The names of the flags, in order, with their states. -/
def flags (d : Debug) : List (String × Bool) :=
  [("cpu", d.cpu), ("panic", d.stop), ("parse", d.outline), ("tokens", d.tokens)]

/-- Sets the flag with a name. Other names have no effect. -/
def set (d : Debug) (name : Text) (state : Bool) : Debug :=
  if name = "cpu" then { d with cpu := state }
  else if name = "panic" then { d with stop := state }
  else if name = "parse" then { d with outline := state }
  else if name = "tokens" then { d with tokens := state }
  else d

end Debug

/-- The call depth allowed unless another is set. -/
def defaultDepth : Nat := 10000

/-- What a user can set. -/
structure Settings where
  /-- The template set for magnitudes; none set is the empty one. -/
  template : Text := ""
  /-- The prompt of a conversation. -/
  prompt : Text := ""
  /-- Whether outlines were asked for. -/
  verbose : Bool := false
  /-- Whether a conversation was asked for. -/
  interactive : Bool := false
  /-- The flags that show the inner workings. -/
  debug : Debug := {}
  /-- The call depth set; none set is zero. -/
  depth : Nat := 0
  deriving DecidableEq

namespace Settings

/-- The template for magnitudes. -/
def format (s : Settings) : Text := if s.template.isEmpty then "%v" else s.template

/-- The call depth allowed. -/
def maxDepth (s : Settings) : Nat := if s.depth = 0 then defaultDepth else s.depth

/-- Asks for outlines or not, which sets the flag for them too. -/
def setVerbose (s : Settings) (state : Bool) : Settings :=
  { s with verbose := state, debug := s.debug.set "parse" state }

end Settings

end SymCalc
