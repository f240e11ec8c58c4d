import SymCalc.Run

/-!
# Sessions

A session evaluates pieces of program text one after the other and keeps the bindings made by
the statements that succeeded. Main statement: a session is started again with no name bound.
-/

namespace SymCalc

variable {M : Type} [Numeric M]

/-- The bindings made so far. -/
structure Session (M : Type) where
  /-- The bindings in force. -/
  env : Env M := {}

/-- What a session answers to a piece of text. -/
structure Reply where
  /-- What was printed. -/
  out : Text
  /-- The errors, if there were any. -/
  err : Option Text
  deriving DecidableEq

namespace Session

/-- Evaluates a piece of text, to which a line feed is added if it does not end in one. -/
def eval (s : Session M) (text : Text) : Reply × Session M :=
  let p := runSource {} "" (.ofText text.ensureLine) s.env false
  (⟨p.out, if p.err.isEmpty then none else some p.err⟩, ⟨p.machine.env⟩)

/-- The names bound, in order and with blanks between them. -/
def names (s : Session M) : Text := Text.join " " s.env.bindings.names

/-- A session without bindings. -/
def reset (_ : Session M) : Session M := {}

omit [Numeric M] in
/-- A session that was reset has no names. -/
@[simp] theorem names_reset (s : Session M) : s.reset.names = "" := rfl

end Session

end SymCalc
