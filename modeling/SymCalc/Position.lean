/-!
# Positions in a text

A position is the 1-based line and character column of a character. Reading a character
moves the position on; a line feed moves it to the first column of the next line.
-/

namespace SymCalc

/-- A 1-based line and character column. -/
structure Position where
  /-- The line, counted from one. -/
  line : Nat := 1
  /-- The column in characters, counted from one. -/
  column : Nat := 1
  deriving DecidableEq, Repr, Inhabited

namespace Position

/-- The position after a character that stands at the given one. -/
def advance (p : Position) (c : Char) : Position :=
  if c = '\n' then ⟨p.line + 1, 1⟩ else ⟨p.line, p.column + 1⟩

/-- The position after a run of characters. -/
def advanceAll (p : Position) (cs : List Char) : Position := cs.foldl advance p

/-- The first column of the next line. -/
def nextLine (p : Position) : Position := ⟨p.line + 1, 1⟩

/-- The line and the column with a colon between them. -/
def text (p : Position) : String := toString p.line ++ ":" ++ toString p.column

@[simp] theorem advance_newline (p : Position) : p.advance '\n' = p.nextLine := by
  simp [advance, nextLine]

@[simp] theorem advanceAll_nil (p : Position) : p.advanceAll [] = p := rfl

@[simp] theorem advanceAll_cons (p : Position) (c : Char) (cs : List Char) :
    p.advanceAll (c :: cs) = (p.advance c).advanceAll cs := rfl

/-- Moving over two runs is moving over the first and then over the second. -/
theorem advanceAll_append (p : Position) (cs ds : List Char) :
    p.advanceAll (cs ++ ds) = (p.advanceAll cs).advanceAll ds := by
  simp [advanceAll, List.foldl_append]

end Position

end SymCalc
