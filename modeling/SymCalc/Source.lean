import SymCalc.Text.Basic
import SymCalc.Position

/-!
# Sources of characters

A source delivers the characters of a program one at a time and knows the position of the
next one. The characters come from a text, or from lines that are asked for one by one, each
only when the line before is used up. Carriage returns are dropped in both cases.
Main statement: asking for a line changes neither what is still to come nor the position.
-/

namespace SymCalc

/-- A line as it was given, or nothing when the user gave the line up. -/
abbrev Line := Option Text

namespace Line

/-- The bytes of a line; a line given up counts as empty. -/
def bytes : Line → List UInt8
  | some text => text.bytes
  | none => []

/-- The characters of a line, without carriage returns and with the line feed that ends it. -/
def chars (line : Line) : List Char :=
  Text.decode (line.bytes.filter (· ≠ Text.carriageReturn)) ++ ['\n']

/-- Whether a line holds anything but blanks. -/
def isBlank (line : Line) : Bool := (Text.decode line.bytes).all Text.isBlank

/-- A line is never used up before it is read: it has at least its line feed. -/
theorem chars_ne_nil (line : Line) : line.chars ≠ [] := by
  simp [chars]

end Line

/-- Lines that are asked for one by one. -/
structure Feed where
  /-- The lines still to be given, in order. -/
  lines : List Line
  /-- Whether the end of the lines has been met. -/
  closed : Bool := false
  /-- How many times a line has been asked for. -/
  asked : Nat := 0
  /-- The lines given that were not blank, latest first. -/
  history : List Text := []
  deriving DecidableEq

namespace Feed

/-- The feed after one more line was asked for, with the characters of that line. At the end
of the lines there are none, and no further line is asked for. -/
def ask (f : Feed) : List Char × Feed :=
  match f.lines with
  | [] => ([], { f with closed := true, asked := f.asked + 1 })
  | line :: lines =>
    let history := if line.isBlank then f.history else Text.ofBytes line.bytes :: f.history
    (line.chars, { f with lines := lines, asked := f.asked + 1, history := history })

/-- All characters that a feed has still to give. -/
def rest (f : Feed) : List Char := if f.closed then [] else f.lines.flatMap Line.chars

end Feed

/-- A source of characters with the position of the next one. -/
structure Source where
  /-- The characters at hand. -/
  chars : List Char
  /-- The position of the next character. -/
  pos : Position := {}
  /-- Where further lines come from, if the source is fed by lines. -/
  feed : Option Feed := none
  deriving DecidableEq

namespace Source

/-- The source that reads a text. -/
def ofText (t : Text) : Source := { chars := t.chars.filter (· ≠ '\r') }

/-- The source that asks for lines. -/
def ofLines (lines : List Line) : Source := { chars := [], feed := some { lines := lines } }

/-- Whether the source asks for lines. -/
def isInteractive (s : Source) : Bool := s.feed.isSome

/-- Whether a further line can still be asked for. -/
def isOpen (s : Source) : Bool :=
  match s.feed with
  | some f => !f.closed
  | none => false

/-- How many lines can still be given. -/
def linesLeft (s : Source) : Nat :=
  match s.feed with
  | some f => f.lines.length
  | none => 0

/-- All characters still to come. -/
def rest (s : Source) : List Char :=
  s.chars ++
    match s.feed with
    | some f => f.rest
    | none => []

/-- The number of characters still to come. -/
def size (s : Source) : Nat :=
  s.chars.length +
    match s.feed with
    | some f => f.rest.length
    | none => 0

/-- The size counts the characters still to come. -/
theorem size_eq (s : Source) : s.size = s.rest.length := by
  cases h : s.feed <;> simp [size, rest, h]

/-- Asks for a line if no character is at hand. -/
def fill (s : Source) : Source :=
  match s.chars, s.feed with
  | [], some f =>
    if f.closed then s
    else
      let (chars, f) := f.ask
      { s with chars := chars, feed := some f }
  | _, _ => s

/-- Asking for a line changes nothing in what is still to come. -/
@[simp] theorem rest_fill (s : Source) : s.fill.rest = s.rest := by
  obtain ⟨chars, pos, feed⟩ := s
  cases chars with
  | cons c cs => rfl
  | nil =>
    cases feed with
    | none => rfl
    | some f =>
      obtain ⟨lines, closed, asked, history⟩ := f
      cases closed <;> cases lines <;> simp [fill, rest, Feed.rest, Feed.ask]

/-- Asking for a line does not move the position. -/
@[simp] theorem pos_fill (s : Source) : s.fill.pos = s.pos := by
  simp only [fill]
  split
  · split <;> rfl
  · rfl

/-- The next character, if there is one; it stays in the source. -/
def peek (s : Source) : Option Char × Source :=
  let s := s.fill
  (s.chars.head?, s)

/-- Takes the next character, if there is one. -/
def next (s : Source) : Option Char × Source :=
  let s := s.fill
  match s.chars with
  | [] => (none, s)
  | c :: cs => (some c, { s with chars := cs, pos := s.pos.advance c })

/-- Whether no character is left. -/
def atEnd (s : Source) : Bool × Source :=
  let s := s.fill
  (s.chars.isEmpty, s)

/-- Drops what is left of the line at hand, if the source asks for lines. -/
def discard (s : Source) : Source :=
  if s.isInteractive && !s.chars.isEmpty then { s with chars := [], pos := s.pos.nextLine } else s

/-- Takes a run of the characters at hand; what follows them stays. -/
def advance (s : Source) (taken rest : List Char) : Source :=
  { s with chars := rest, pos := s.pos.advanceAll taken }

end Source

end SymCalc
