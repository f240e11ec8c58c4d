import SymCalc.Token.Scanner
import SymCalc.Expr.Printer
import SymCalc.Expr.SyntaxError
import SymCalc.Settings

/-!
# Reading expressions

Statements are read from tokens by recursive descent. A statement is an operand, followed by
an operator and a further statement if one stands on the same line; operators are brought into
the order of their priorities as the tree is built. After an error the rest of the line is
skipped, so that the next statement can be read.

Every production that contains statements takes the reader of statements as an argument, and
the knot is tied once, in `statementWithin`. Its first argument bounds the nesting; no text
nests deeper than it has tokens.
-/

namespace SymCalc

/-- Where reading stands. -/
structure Cursor where
  /-- Where tokens come from. -/
  scanner : Scanner
  /-- How many tokens have been read. -/
  consumed : Nat := 0
  deriving DecidableEq

/-- A reader that may fail; what it has read up to then stays read. -/
abbrev Parse := EStateM SyntaxError Cursor

namespace Parse

/-- Fails at a token. -/
def fail {α : Type} (token : Token) (fault : SyntaxFault) : Parse α := fun c =>
  .error ⟨c.scanner.name, token.pos, fault⟩ c

/-- Takes the next token, which must not be an error. -/
def next : Parse Token := fun c =>
  let (token, scanner) := c.scanner.next
  let c : Cursor := ⟨scanner, c.consumed + 1⟩
  if token.kind = .error then fail token (.lexical token.text) c else .ok token c

/-- The next token, which stays; an error is taken and fails. -/
def peek : Parse Token := fun c =>
  let (token, scanner) := c.scanner.peek
  let c : Cursor := { c with scanner := scanner }
  if token.kind = .error then next c else .ok token c

/-- Whether no token is left on the line. -/
def atEndOfLine : Parse Bool := fun c =>
  let (ends, scanner) := c.scanner.atEndOfLine
  .ok ends { c with scanner := scanner }

/-- Takes the next token, which must have the given kind and text. -/
def need (kind : Kind) (text : Text) : Parse Unit := do
  let token ← next
  if token.kind = kind && token.text = text then pure () else fail token (.expected text token)

/-- Whether a token of some sort follows on the line. -/
def follows (test : Token → Bool) : Parse Bool := do
  if ← atEndOfLine then return false
  else return test (← peek)

/-- Whether a binary operator follows on the line. The backquote is none. -/
def operatorFollows : Parse Bool := follows fun token => token.kind = .operator && token.text ≠ "`"

/-- Whether an opening parenthesis follows on the line. -/
def callFollows : Parse Bool := follows fun token => token.isPunct "("

/-- Fails since a bound is met that exceeds the number of tokens. -/
def exhausted {α : Type} : Parse α := do fail (← peek) .unexpectedEnd

/-- Takes tokens, errors too, through the bracket that closes the matrix being read, or to the
end of the input or an error. -/
def skipMatrixWithin : (tokens : Nat) → (depth : Nat) → Cursor → Cursor
  | 0, _, c => c
  | _, 0, c => c
  | tokens + 1, depth + 1, c =>
    let (token, scanner) := c.scanner.next
    let c : Cursor := ⟨scanner, c.consumed + 1⟩
    if token.kind = .eof || token.kind = .error then c
    else if token.isPunct "[" then skipMatrixWithin tokens (depth + 2) c
    else if token.isPunct "]" then skipMatrixWithin tokens depth c
    else skipMatrixWithin tokens (depth + 1) c

/-- Skips the rest of a bad matrix through its closing bracket. -/
def skipMatrix : Parse Unit := fun c => .ok () (skipMatrixWithin c.scanner.size 1 c)

/-- What reading a part of a matrix comes to: the part, or a fault at a token. -/
abbrev Verdict (α : Type) := Except (Token × SyntaxFault) α

/-- Goes on with a part of a matrix, or skips the rest of the matrix and fails. -/
def recover {α : Type} : Verdict α → Parse α
  | .ok a => pure a
  | .error (token, fault) => do
    skipMatrix
    fail token fault

variable {M : Type} [Numeric M]

/-- The operand that a single token is. -/
def operand (token : Token) : Parse (Expr M) :=
  match token.kind with
  | .digit =>
    match Numeric.read? token.text with
    | some m => pure (.literal token.pos (.scalar (.number m)))
    | none => fail token (.badNumber token.text)
  | .identifier => pure (.reference ⟨token.pos, token.text⟩)
  | .keyword =>
    if token.text = "true" then pure (.literal token.pos (.boolean true))
    else if token.text = "false" then pure (.literal token.pos (.boolean false))
    else fail token (.unexpectedKeyword token.text)
  | .string => fail token .string
  | .eof => fail token .unexpectedEnd
  | _ => fail token (.unexpected token)

/-- The binary operation with an operator and its operands. The right operand was read first,
so an operator that binds tighter than the one in the right operand takes over the left part
of it. Only one level is turned, and equal priorities group to the right. -/
def rotate (left : Expr M) (op : Operator) (right : Expr M) : Expr M :=
  let priority (o : Operator) : Nat := (priority? o.symbol).getD 0
  match right with
  | .binary _ inner o last =>
    if priority o < priority op then .binary left.pos (.binary left.pos left op inner) o last
    else .binary left.pos left op right
  | _ => .binary left.pos left op right

variable (statement : (alone : Bool) → Parse (Expr M))

/-- Reads the operator and what follows it, after the left operand. A difference becomes the
sum with the negated right side. -/
def operation (left : Expr M) : Parse (Expr M) := do
  let token ← next
  if token.text = "=" then
    match left with
    | .reference ref => return .assign left.pos ref (← statement false)
    | _ => fail token (.cannotAssign left.source)
  else if (priority? token.text).isNone then fail token (.unknownBinary token.text)
  else
    let right ← statement false
    if token.text = "-" then
      return rotate left ⟨token.pos, "+"⟩ (.unary right.pos ⟨token.pos, "-"⟩ right)
    else return rotate left ⟨token.pos, token.text⟩ right

/-- Goes on with a binary operation if an operator follows and operators are wanted. -/
def more (left : Expr M) (alone : Bool) : Parse (Expr M) := do
  if alone then return left
  else if ← operatorFollows then operation statement left
  else return left

/-- Reads what follows a prefix operator, or the name after a backquote. -/
def prefixed (token : Token) : Parse (Expr M) := do
  if token.text = "`" then
    let name ← next
    if name.kind ≠ .identifier then fail name (.expectedName name)
    else if name.text = "i" then return .literal token.pos (.scalar (.poly (.term .imaginaryUnit)))
    else return .literal token.pos (.scalar (.poly (.term (.named name.text))))
  else if !isUnaryOperator token.text then fail token (.unknownUnary token.text)
  else return .unary token.pos ⟨token.pos, token.text⟩ (← statement true)

/-- Reads one member of a list, with an operation that follows it. -/
def member : Parse (Expr M) := do
  let x ← statement false
  if ← operatorFollows then operation statement x else return x

/-- Reads the members of a list up to the closing bracket. With a separator it must stand
between members; without one members follow one another, with semicolons where they like. -/
def membersWithin (stop separator : Text) : (rounds : Nat) → (read : List (Expr M)) →
    Parse (List (Expr M))
  | 0, _ => exhausted
  | rounds + 1, read => do
    let read := read ++ [← member statement]
    let token ← peek
    if token.isPunct stop then
      let _ ← next
      return read
    else if token.kind = .eof then fail token (.expected stop token)
    else if !separator.isEmpty then
      need .punctuation separator
      membersWithin stop separator rounds read
    else if token.isPunct ";" then
      let _ ← next
      if (← peek).isPunct stop then
        let _ ← next
        return read
      else membersWithin stop separator rounds read
    else membersWithin stop separator rounds read

/-- Reads a list, of which the opening bracket has been read, through its closing bracket. -/
def members (rounds : Nat) (stop separator : Text) : Parse (List (Expr M)) := do
  if (← peek).isPunct stop then
    let _ ← next
    return []
  else membersWithin statement stop separator rounds []

/-- Reads a list with its brackets. -/
def bracketed (rounds : Nat) (start stop separator : Text) : Parse (List (Expr M)) := do
  need .punctuation start
  members statement rounds stop separator

/-- Reads the rest of a list in parentheses. A single item other than an operation is returned
as it is. -/
def parenthesised (rounds : Nat) (token : Token) : Parse (Expr M) := do
  match ← members statement rounds ")" "," with
  | [] => fail token .emptyParentheses
  | [.binary pos left op right] => return .tuple token.pos [.binary pos left op right]
  | [x] => return x
  | items => return .tuple token.pos items

/-- Reads the further values of a row of a matrix, which ends at a newline or at the closing
bracket, up to a fault. -/
def rowVerdict : (rounds : Nat) → (read : List (Expr M)) → Parse (Verdict (List (Expr M)))
  | 0, _ => exhausted
  | rounds + 1, read => do
    if ← atEndOfLine then return .ok read
    else if (← peek).isPunct "]" then return .ok read
    else
      let comma ← next
      if !comma.isPunct "," then return .error (comma, .expectedComma comma)
      else if ← atEndOfLine then return .error (comma, .expectedCell)
      else rowVerdict rounds (read ++ [← statement false])

/-- Reads the rows of a matrix, which must have one length, through the closing bracket or up to
a fault. -/
def rowsVerdict (size : Nat) (token : Token) : (rounds : Nat) → (read : List (List (Expr M))) →
    Parse (Verdict (List (List (Expr M))))
  | 0, _ => exhausted
  | rounds + 1, read => do
    match ← rowVerdict statement size [← statement false] with
    | .error complaint => return .error complaint
    | .ok row =>
      let want := (read.headD row).length
      if row.length ≠ want then
        return .error (token, .raggedMatrix (read.length + 1) row.length want)
      else
        let read := read ++ [row]
        if (← peek).isPunct "]" then
          let _ ← next
          return .ok read
        else rowsVerdict size token rounds read

/-- Reads the rows of a matrix through the closing bracket. At a fault the rest of the matrix is
skipped. -/
def rowsWithin (size : Nat) (token : Token) (rounds : Nat) (read : List (List (Expr M))) :
    Parse (List (List (Expr M))) := do
  recover (← rowsVerdict statement size token rounds read)

/-- Reads a condition after its first word. -/
def conditional (token : Token) : Parse (Expr M) := do
  let test ← statement false
  need .keyword "then"
  let yes ← statement false
  if (← peek).isKeyword "else" then
    let _ ← next
    let no ← statement false
    need .keyword "end"
    return .ifElse token.pos test yes no
  else
    need .keyword "end"
    return .ifThen token.pos test yes

/-- The names that parameters are. -/
def parameters (token : Token) : List (Expr M) → Parse (List Ref)
  | [] => pure []
  | .reference ref :: rest => return ref :: (← parameters token rest)
  | e :: _ => fail token (.parameter e.source)

/-- Reads a function after its first word. -/
def function (rounds : Nat) (token : Token) : Parse (Expr M) := do
  let params ← parameters token (← bracketed statement rounds "(" ")" ",")
  let start ← peek
  let body ← bracketed statement rounds "\x7b" "\x7d" ""
  return .lambda token.pos params start.pos body

/-- Takes the next word of a declaration. -/
def word : Parse Text := do
  let token ← next
  if token.kind = .eof then fail token .unexpectedEndOfDeclaration else return token.text

/-- Reads a declaration after its first word. -/
def declaration (token : Token) : Parse (Expr M) := do
  let operator ← word
  let left ← word
  let right ← word
  let priority ← word
  let function ← word
  return .declare token.pos ⟨operator, left, right, priority, function⟩

/-- Reads a statement that starts with a leaf or a prefix operator. -/
def simple (rounds : Nat) (token : Token) (alone : Bool) : Parse (Expr M) := do
  let isOperator := token.kind = .operator
  if ← (if isOperator || alone then pure false else operatorFollows) then
    operation statement (← operand token)
  else if ← (if token.kind = .identifier then callFollows else pure false) then
    let args ← bracketed statement rounds "(" ")" ","
    more statement (.call token.pos token.text args) alone
  else if isOperator then more statement (← prefixed statement token) alone
  else operand token

/-- Reads a statement. When it is to stand alone, an operator after it is left to the caller,
so that a prefix operator binds tighter than any other. -/
def statementStep (rounds : Nat) (alone : Bool) : Parse (Expr M) := do
  let token ← next
  if token.kind = .eof then fail token .unexpectedEnd
  else if token.isKeyword "if" then conditional statement token
  else if token.isKeyword "lambda" then function statement rounds token
  else if token.isKeyword "return" then return .ret token.pos (← statement false)
  else if token.isKeyword "set" then declaration token
  else if token.isPunct "(" then more statement (← parenthesised statement rounds token) alone
  else if token.isPunct "[" then
    let rows ← rowsWithin statement rounds token rounds []
    more statement (.matrix token.pos rows) alone
  else simple statement rounds token alone

end Parse

open Parse

variable {M : Type} [Numeric M]

/-- Reads a statement nested at most so deep. -/
def Parse.statementWithin : (depth : Nat) → (alone : Bool) → Parse (Expr M)
  | 0, _ => exhausted
  | depth + 1, alone => statementStep (statementWithin depth) (depth + 1) alone

namespace Cursor

/-- Whether nothing but blanks and comments is left. -/
def atEnd (c : Cursor) : Bool × Cursor :=
  let (token, scanner) := c.scanner.peek
  (token.kind = .eof, { c with scanner := scanner })

/-- Takes tokens up to the end of the line. -/
def skipLineWithin : (tokens : Nat) → Cursor → Cursor
  | 0, c => c
  | tokens + 1, c =>
    let (ends, scanner) := c.scanner.atEndOfLine
    if ends then { c with scanner := scanner }
    else skipLineWithin tokens { c with scanner := scanner.next.2 }

/-- Skips the rest of the line after an error, and at least one token since the start of the
statement. -/
def resync (start : Nat) (c : Cursor) : Cursor :=
  let c := if c.consumed = start then { c with scanner := c.scanner.next.2 } else c
  skipLineWithin c.scanner.size c

/-- Drops the rest of the line, if the source asks for lines. -/
def discard (c : Cursor) : Cursor := { c with scanner := c.scanner.discard }

/-- The cursor with a line added to the log. -/
def note (c : Cursor) (text : Text) : Cursor :=
  { c with scanner := { c.scanner with log := c.scanner.log ++ text ++ "\n" } }

/-- Reads a statement from where the cursor stands. -/
def parse (c : Cursor) : EStateM.Result SyntaxError Cursor (Expr M) :=
  statementWithin c.scanner.size false c

/-- Reads the next statement. After an error the rest of its line is skipped; the outline of a
statement is logged if it is wanted. -/
def statement (settings : Settings) (c : Cursor) : Except SyntaxError (Expr M) × Cursor :=
  match (c.parse : EStateM.Result SyntaxError Cursor (Expr M)) with
  | .ok e c => (.ok e, if settings.debug.outline then c.note (Expr.outline e) else c)
  | .error err d => (.error err, d.resync c.consumed)

/-- Reads statements to the end of the input, for as many rounds as there may be tokens. -/
def statementsWithin (settings : Settings) : (rounds : Nat) → Cursor →
    List (Except SyntaxError (Expr M)) × Cursor
  | 0, c => ([], c)
  | rounds + 1, c =>
    match c.atEnd with
    | (true, c) => ([], c)
    | (false, c) =>
      let (result, c) := c.statement settings
      let (results, c) := statementsWithin settings rounds c
      (result :: results, c)

/-- Reads statements to the end of the input. -/
def statements (settings : Settings) (c : Cursor) : List (Except SyntaxError (Expr M)) × Cursor :=
  c.statementsWithin settings c.scanner.size

/-- A cursor at the start of a source. -/
def start (settings : Settings) (name : Text) (source : Source) : Cursor :=
  ⟨{ source := source, name := name, logTokens := settings.debug.tokens }, 0⟩

end Cursor

/-- The errors among the results of reading statements. -/
def syntaxErrors (results : List (Except SyntaxError (Expr M))) : List SyntaxError :=
  results.filterMap fun
    | .error e => some e
    | .ok _ => none

/-- The statements among the results of reading statements. -/
def readStatements (results : List (Except SyntaxError (Expr M))) : List (Expr M) :=
  results.filterMap fun
    | .ok e => some e
    | .error _ => none

/-- Reads a whole program: its statements, or all errors if there are any. -/
def Cursor.program (settings : Settings) (c : Cursor) :
    Except (List SyntaxError) (List (Expr M)) × Cursor :=
  let (results, c) := c.statements settings
  match syntaxErrors results with
  | [] => (.ok (readStatements results), c)
  | errors => (.error errors, c)

omit [Numeric M] in
/-- What is read has no errors when all of it is statements. -/
theorem syntaxErrors_eq_nil_iff {results : List (Except SyntaxError (Expr M))}
    {statements : List (Expr M)} :
    syntaxErrors results = [] ∧ readStatements results = statements ↔
      results = statements.map .ok := by
  constructor
  · rintro ⟨herrors, rfl⟩
    induction results with
    | nil => rfl
    | cons result results ih =>
      cases result with
      | ok e => exact congrArg (Except.ok e :: ·) (ih herrors)
      | error e => cases herrors
  · rintro rfl
    induction statements with
    | nil => exact ⟨rfl, rfl⟩
    | cons e statements ih => exact ⟨ih.1, congrArg (e :: ·) ih.2⟩

/-- A program is its statements when nothing else is read of it. -/
theorem Cursor.program_eq_ok_iff {settings : Settings} {c : Cursor} {statements : List (Expr M)} :
    (c.program settings).1 = .ok statements ↔
      (c.statements settings).1 = statements.map .ok := by
  rw [← syntaxErrors_eq_nil_iff]
  unfold Cursor.program
  dsimp only
  cases syntaxErrors (c.statements (M := M) settings).1 with
  | nil => simp
  | cons e errors => simp

/-- A program is all the errors that are found in it when there are any. -/
theorem Cursor.program_eq_error_iff {settings : Settings} {c : Cursor}
    {errors : List SyntaxError} :
    (c.program (M := M) settings).1 = .error errors ↔
      errors ≠ [] ∧ syntaxErrors (c.statements (M := M) settings).1 = errors := by
  unfold Cursor.program
  dsimp only
  cases syntaxErrors (c.statements (M := M) settings).1 with
  | nil => simp +contextual [eq_comm]
  | cons e found => simp +contextual [eq_comm]

end SymCalc
