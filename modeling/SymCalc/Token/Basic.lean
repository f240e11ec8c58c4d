import SymCalc.Text.Quoted
import SymCalc.Position

/-!
# Tokens

The words of the language: numbers, names, keywords, operators, punctuation and quoted
strings, with two more for the end of the input and for characters that belong to no word.
-/

namespace SymCalc

/-- The kinds of tokens. -/
inductive Kind where
  /-- The end of the input. -/
  | eof
  /-- A word that is none; its text says why. -/
  | error
  /-- A number such as 3 or 2.5. -/
  | digit
  /-- A name. -/
  | identifier
  /-- One of the reserved words. -/
  | keyword
  /-- A run of operator characters. -/
  | operator
  /-- A bracket, point, comma or semicolon. -/
  | punctuation
  /-- A quoted string; its text is without the quotes. -/
  | string
  deriving DecidableEq, Repr, Inhabited

namespace Kind

/-- All kinds, in the order of their codes. -/
def all : List Kind := [eof, error, digit, identifier, keyword, operator, punctuation, string]

/-- The kind with a code, if there is one. -/
def ofCode? : Int → Option Kind
  | .ofNat n => all[n]?
  | .negSucc _ => none

/-- The name of a kind. -/
def name : Kind → String
  | eof => "EOF"
  | error => "Error"
  | digit => "Digit"
  | identifier => "Identifier"
  | keyword => "Keyword"
  | operator => "Operator"
  | punctuation => "Punctuation"
  | string => "String"

/-- The name of the kind with a code; a code without a kind is named by itself. -/
def nameOfCode (code : Int) : String :=
  match ofCode? code with
  | some kind => kind.name
  | none => "Type(" ++ toString code ++ ")"

end Kind

/-- A word of the program and where it starts. -/
structure Token where
  /-- The kind of word. -/
  kind : Kind
  /-- The word itself, without quotes for a string; for an error what is wrong. -/
  text : Text
  /-- The position of its first character. -/
  pos : Position
  deriving DecidableEq, Inhabited

namespace Token

/-- A text behind a label. Of a text of more than ten bytes only ten characters are shown. -/
def labelled (label : String) (text : Text) : Text :=
  if 10 < text.size then label ++ ": " ++ Text.quotePrefix 10 text ++ "..."
  else label ++ ": " ++ Text.quote text

/-- A token of a kind with a text as messages show it. -/
def describeKind (kind : Kind) (text : Text) : Text :=
  match kind with
  | .eof => "EOF"
  | .error => "error: " ++ text
  | kind => labelled kind.name text

/-- A token as messages show it. -/
def describe (t : Token) : Text := describeKind t.kind t.text

/-- A token with the kind of a code, which need not exist, as messages would show it. -/
def describeCode (code : Int) (text : Text) : Text :=
  match Kind.ofCode? code with
  | some kind => describeKind kind text
  | none => labelled (Kind.nameOfCode code) text

/-- Whether a token is the given punctuation. -/
def isPunct (t : Token) (text : Text) : Bool := t.kind = .punctuation && t.text = text

/-- Whether a token is the given keyword. -/
def isKeyword (t : Token) (text : Text) : Bool := t.kind = .keyword && t.text = text

end Token

/-- The reserved words. -/
def keywords : List Text :=
  ["if", "then", "else", "end", "true", "false", "lambda", "return", "set"]

/-- Whether a word is reserved. -/
def isReserved (word : Text) : Bool := keywords.any (· = word)

end SymCalc
