import SymCalc.Source
import SymCalc.Token.Basic
import SymCalc.Text.Letter
import SymCalc.Text.Digit

/-!
# The scanner

The scanner takes tokens from a source, one at a time, and can look at the next token
without taking it. Blanks, newlines and comments between tokens are skipped, but it is
remembered whether a newline was among them, since statements end at the end of a line.
-/

namespace SymCalc

/-- Whether a character is a blank within a line. -/
def isSpace (c : Char) : Bool := c = ' ' || c = '\t' || c = '\r'

/-- The mark before a literal variable. -/
def backquote : Char := '\x60'

/-- Whether a character opens a quoted string, which the same character closes. -/
def isQuote (c : Char) : Bool := c = '\x27' || c = '\x22'

/-- Whether a character may stand in an operator. -/
def isOperatorChar (c : Char) : Bool := "=~+-*/><?|&`!".toList.contains c

/-- Whether a character is punctuation, a token of its own. -/
def isPunctuation (c : Char) : Bool := "()[]\x7b\x7d.,;".toList.contains c

/-- Whether a character may start a name. -/
def isNameStart (c : Char) : Bool := c = '_' || Text.isLetter c

/-- Whether a character may stand in a name after the first. -/
def isNamePart (c : Char) : Bool := c = '_' || Text.isLetter c || Text.isDecimal c

/-- What is left after blanks, newlines and comments were skipped. -/
structure Skipped where
  /-- The characters left. -/
  chars : List Char
  /-- The position of the first of them. -/
  pos : Position
  /-- Whether a newline was skipped. -/
  newline : Bool
  deriving DecidableEq, Repr

/-- Skips blanks, newlines and comments; the flag tells whether a comment is being skipped. -/
def skipChars : (comment : Bool) → List Char → Position → (newline : Bool) → Skipped
  | _, [], pos, newline => ⟨[], pos, newline⟩
  | true, c :: cs, pos, newline =>
    skipChars (c ≠ '\n') cs (pos.advance c) (newline || c = '\n')
  | false, c :: cs, pos, newline =>
    if c = '#' then skipChars true cs (pos.advance c) newline
    else if isSpace c || c = '\n' then skipChars false cs (pos.advance c) (newline || c = '\n')
    else ⟨c :: cs, pos, newline⟩

namespace Source

/-- Skips blanks, newlines and comments, asking for lines as they run out, for as many
rounds as there may be lines. -/
def skipRounds : (rounds : Nat) → Source → (newline : Bool) → Source × Bool
  | 0, s, newline => (s, newline)
  | rounds + 1, s, newline =>
    let s := s.fill
    let skipped := skipChars false s.chars s.pos newline
    let s := { s with chars := skipped.chars, pos := skipped.pos }
    if s.chars.isEmpty && s.isOpen then skipRounds rounds s skipped.newline
    else (s, skipped.newline)

/-- Skips everything before the next token, and tells whether a newline was skipped. One
round serves the characters at hand, one each line, and one finds the end. -/
def skip (s : Source) : Source × Bool := skipRounds (s.linesLeft + 2) s false

/-- Takes characters up to and including a quote, asking for lines as they run out. Without
a closing quote everything is taken. -/
def quotedRounds (quote : Char) : (rounds : Nat) → (taken : List Char) → Source →
    Option (List Char) × Source
  | 0, _, s => (none, s)
  | rounds + 1, taken, s =>
    let s := s.fill
    let inside := s.chars.takeWhile (· ≠ quote)
    match s.chars.dropWhile (· ≠ quote) with
    | c :: rest => (some (taken ++ inside), s.advance (inside ++ [c]) rest)
    | [] =>
      let s := s.advance inside []
      if s.isOpen then quotedRounds quote rounds (taken ++ inside) s else (none, s)

/-- The characters up to a closing quote, or nothing if there is none. -/
def quoted (s : Source) (quote : Char) : Option (List Char) × Source :=
  quotedRounds quote (s.linesLeft + 2) [] s

end Source

/-- The digits of a number, with a point and the digits after it if they follow. -/
def numeralPrefix (cs : List Char) : List Char :=
  let whole := cs.takeWhile Char.isDigit
  match cs.dropWhile Char.isDigit with
  | '.' :: rest => whole ++ '.' :: rest.takeWhile Char.isDigit
  | _ => whole

/-- The characters of the token that starts with a character, and the kind of token. The
backquote is always a token of its own; other operator characters, digits and names are
taken as far as they go. -/
def lexeme (c : Char) (cs : List Char) : Kind × List Char :=
  if c.isDigit then (.digit, numeralPrefix (c :: cs))
  else if isOperatorChar c then
    if c = backquote then (.operator, [c])
    else (.operator, c :: cs.takeWhile fun d => isOperatorChar d && d ≠ backquote)
  else if isPunctuation c then (.punctuation, [c])
  else if isNameStart c then
    let word := c :: cs.takeWhile isNamePart
    (if isReserved (Text.ofChars word) then .keyword else .identifier, word)
  else (.error, [c])

/-- A token, and whether a newline was skipped before it. -/
structure Scanned where
  /-- The token. -/
  token : Token
  /-- Whether a newline lies before it and after the token before. -/
  newline : Bool
  deriving DecidableEq, Inhabited

/-- A source from which tokens are taken. -/
structure Scanner where
  /-- Where the characters come from. -/
  source : Source
  /-- The name of the input, shown in messages. -/
  name : Text := ""
  /-- Whether every token taken is logged. -/
  logTokens : Bool := false
  /-- The next token, if it has been looked at. -/
  held : Option Scanned := none
  /-- What has been logged and not yet written. -/
  log : Text := ""
  deriving DecidableEq

namespace Scanner

/-- The line that the log has for a token. -/
def logLine (s : Scanner) (t : Token) : Text :=
  s.name ++ ":" ++ t.pos.text ++ ": emit " ++ t.describe ++ "\n"

/-- The scanner with a token logged, if tokens are logged. -/
def emit (s : Scanner) (t : Token) : Scanner :=
  if s.logTokens then { s with log := s.log ++ s.logLine t } else s

/-- Reads the next token from the source. -/
def scan (s : Scanner) : Scanned × Scanner :=
  let (source, newline) := s.source.skip
  let pos := source.pos
  match source.chars with
  | [] => (⟨⟨.eof, "EOF", pos⟩, newline⟩, { s with source := source })
  | c :: cs =>
    if isQuote c then
      match (source.advance [c] cs).quoted c with
      | (some inside, source) =>
        let token : Token := ⟨.string, Text.ofChars inside, pos⟩
        (⟨token, newline⟩, ({ s with source := source } : Scanner).emit token)
      | (none, source) =>
        (⟨⟨.error, "unterminated string", pos⟩, newline⟩, { s with source := source })
    else
      let (kind, taken) := lexeme c cs
      let source := source.advance taken ((c :: cs).drop taken.length)
      if kind = .error then
        let message := "unrecognized character: " ++ Text.codePoint c
        (⟨⟨.error, message, pos⟩, newline⟩, { s with source := source })
      else
        let token : Token := ⟨kind, Text.ofChars taken, pos⟩
        (⟨token, newline⟩, ({ s with source := source } : Scanner).emit token)

/-- Takes the next token. -/
def next (s : Scanner) : Token × Scanner :=
  match s.held with
  | some held => (held.token, { s with held := none })
  | none =>
    let (scanned, s) := s.scan
    (scanned.token, s)

/-- The next token, which stays. -/
def peek (s : Scanner) : Token × Scanner :=
  match s.held with
  | some held => (held.token, s)
  | none =>
    let (scanned, s) := s.scan
    (scanned.token, { s with held := some scanned })

/-- Whether the rest of the line holds no token: a newline, a comment or the end of the
input comes next. Blanks before it are skipped. -/
def atEndOfLine (s : Scanner) : Bool × Scanner :=
  match s.held with
  | some held => (held.token.kind = .eof || held.newline, s)
  | none =>
    let source := s.source.fill
    let blanks := source.chars.takeWhile isSpace
    let rest := source.chars.dropWhile isSpace
    let ends :=
      match rest with
      | [] => true
      | c :: _ => c = '\n' || c = '#'
    (ends, { s with source := source.advance blanks rest })

/-- Drops the token looked at and, if the source asks for lines, the rest of the line. -/
def discard (s : Scanner) : Scanner :=
  { s with held := none, source := s.source.discard }

/-- A bound on the tokens still to come, with the end of the input: a character gives at most
one token, and one may have been looked at. -/
def size (s : Scanner) : Nat := s.source.size + 2

/-- Takes tokens through the end of the input, for as many rounds as there may be tokens. -/
def tokensWithin : (rounds : Nat) → Scanner → List Token × Scanner
  | 0, s => ([], s)
  | rounds + 1, s =>
    let (token, s) := s.next
    if token.kind = .eof then ([token], s)
    else
      let (tokens, s) := tokensWithin rounds s
      (token :: tokens, s)

/-- Takes all tokens, of which the last is the end of the input. -/
def tokens (s : Scanner) : List Token × Scanner := s.tokensWithin s.size

end Scanner

end SymCalc
