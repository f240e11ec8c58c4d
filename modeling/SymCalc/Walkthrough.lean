import SymCalc.Session

/-!
# Walkthroughs

A walkthrough is a program shown step by step. A step is a line, with the lines after it for as
long as a bracket opened in it is not closed. Blank lines from the user ask for the next step;
other lines are run in its place.
-/

namespace SymCalc

namespace Walkthrough

/-- The change in the number of open brackets over a run of characters, outside comments and
quoted strings; the first argument is the quote that is open. -/
def nestingFrom : Option Char → List Char → Int
  | _, [] => 0
  | some quote, c :: cs => nestingFrom (if c = quote then none else some quote) cs
  | none, c :: cs =>
    if isQuote c then nestingFrom (some c) cs
    else if c = '#' then 0
    else if c = '(' || c = '[' || c = '\x7b' then nestingFrom none cs + 1
    else if c = ')' || c = ']' || c = '\x7d' then nestingFrom none cs - 1
    else nestingFrom none cs

/-- The change in the number of open brackets over a line. -/
def nesting (line : List UInt8) : Int := nestingFrom none (Text.decode line)

/-- Puts lines together into steps; the first arguments are the lines of the step that is not
yet closed, and how many brackets are open in it. -/
def stepsFrom : (current : List UInt8) → (depth : Int) → List (List UInt8) → List Text
  | current, _, [] => if current.isEmpty then [] else [(Text.ofBytes current).ensureLine]
  | current, depth, line :: lines =>
    let current := current ++ line
    let depth := depth + nesting line
    if 0 < depth then stepsFrom current depth lines
    else (Text.ofBytes current).ensureLine :: stepsFrom [] 0 lines

/-- The steps of a text. Each ends in a line feed. -/
def steps (text : Text) : List Text := stepsFrom [] 0 (Text.splitAfterLines text.bytes)

/-- The lines of the built-in walkthrough. -/
def scriptLines : List String := [
  "# Press return to step through the demo. Type a statement to run it instead, or quit to stop.",
  "# Numbers are terms.",
  "2 + 3",
  "# Literal variables start with a backquote.",
  "x = `x",
  "y = `y",
  "x + y",
  "x * x * 3",
  "# The imaginary unit.",
  "`i * `i",
  "# Terms that cannot be merged stay as a sum.",
  "(x + 1) * (x + 1)",
  "# Division by a single term divides each term.",
  "(x * x + x) / x",
  "# Otherwise the quotient is a fraction.",
  "1 / (x + 1)",
  "# Matrices.",
  "m = [1, 2",
  "3, 4]",
  "m",
  "~m",
  "m * m",
  "2 * m",
  "# The tensor product.",
  "[1, 0] *! [1, 2]",
  "# Closures capture the environment when they are made.",
  "double = lambda (a) \x7b a * 2 \x7d",
  "double(x + y)",
  "if true then 1 else 2 end"]

/-- The text of the built-in walkthrough. -/
def script : Text := String.join (scriptLines.map (· ++ "\n"))

/-- What a guided run delivers and shows. -/
structure Guided where
  /-- The text delivered to be run. -/
  sent : Text := ""
  /-- The steps shown. -/
  echo : Text := ""
  /-- Whether a line of the user was too long to be read. -/
  tooLong : Bool := false
  deriving DecidableEq

namespace Guided

/-- Delivers a text. -/
def send (g : Guided) (text : Text) : Guided := { g with sent := g.sent ++ text }

/-- Shows a step. -/
def display (g : Guided) (step : Text) : Guided := { g with echo := g.echo ++ step }

end Guided

/-- Goes through steps as the user asks for them: a blank line shows and delivers the next step,
the word quit ends the walkthrough, and any other line is delivered itself. The flag tells
whether a line too long follows the last one. -/
def follow (tooLong : Bool) : (user : List Text) → (steps : List Text) → Guided → Guided
  | _, [], g => g
  | [], _ :: _, g => { g with tooLong := tooLong }
  | line :: user, step :: steps, g =>
    let line := line.trim
    if line = "quit" then g
    else if line.isEmpty then follow tooLong user steps ((g.display step).send step)
    else follow tooLong user (step :: steps) (g.send (line ++ "\n"))

/-- Goes through the built-in walkthrough. The first step is only shown; without a user all
others are shown and delivered. -/
def guide (user : Option Text) : Guided :=
  match steps script with
  | [] => {}
  | first :: rest =>
    let g : Guided := { echo := first }
    match user with
    | none => rest.foldl (fun g step => (g.display step).send step) g
    | some text =>
      let (lines, tooLong) := text.readLines
      follow tooLong lines rest g

/-- What is said of a line too long to be read. -/
def tooLongMessage : String := "bufio.Scanner: token too long"

/-- A walkthrough of a text in a session of its own. -/
structure Tour (M : Type) where
  /-- The session that runs the steps. -/
  session : Session M := {}
  /-- The steps still to come. -/
  steps : List Text

variable {M : Type} [Numeric M]

/-- Starts a walkthrough of a text. -/
def tour (text : Text) : Tour M := { steps := steps text }

/-- Runs the next step, if there is one. -/
def Tour.next (t : Tour M) : Option (Reply × Tour M) :=
  match t.steps with
  | [] => none
  | step :: steps =>
    let (reply, session) := t.session.eval step
    some (reply, ⟨session, steps⟩)

end Walkthrough

end SymCalc
