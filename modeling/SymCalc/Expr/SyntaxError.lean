import SymCalc.Token.Basic
import SymCalc.Text.Basic

/-!
# Syntax errors

What can be wrong with the text of a statement, as causes; the wording of each stands in
`SyntaxFault.message`.
-/

namespace SymCalc

/-- What is wrong with the text of a statement. -/
inductive SyntaxFault where
  /-- A character or a string that is no token. -/
  | lexical (text : Text)
  /-- Another token than the one needed. -/
  | expected (text : Text) (got : Token)
  /-- The input ends within a statement. -/
  | unexpectedEnd
  /-- The input ends within a declaration. -/
  | unexpectedEndOfDeclaration
  /-- A numeral that stands for no number. -/
  | badNumber (text : Text)
  /-- A keyword where an operand should be. -/
  | unexpectedKeyword (text : Text)
  /-- A string where an operand should be. -/
  | string
  /-- Another token where an operand should be. -/
  | unexpected (token : Token)
  /-- No name after a backquote. -/
  | expectedName (got : Token)
  /-- A prefix operator without a meaning. -/
  | unknownUnary (symbol : Text)
  /-- A binary operator without a priority. -/
  | unknownBinary (symbol : Text)
  /-- An assignment to something that is not a name. -/
  | cannotAssign (target : Text)
  /-- Parentheses with nothing between them. -/
  | emptyParentheses
  /-- No comma between the values of a row of a matrix. -/
  | expectedComma (got : Token)
  /-- A newline after a comma in a matrix. -/
  | expectedCell
  /-- A row, counted from one, that is not as long as the first. -/
  | raggedMatrix (row got want : Nat)
  /-- A parameter that is not a name. -/
  | parameter (source : Text)
  deriving DecidableEq

/-- The wording of what is wrong. -/
def SyntaxFault.message : SyntaxFault → Text
  | lexical text => text
  | expected text got => "expected " ++ Text.quote text ++ ", got " ++ got.describe
  | unexpectedEnd => "unexpected EOF"
  | unexpectedEndOfDeclaration => "unexpected EOF in set"
  | badNumber text => "bad number " ++ Text.quote text
  | unexpectedKeyword text => "unexpected keyword " ++ Text.quote text
  | string => "strings are not supported"
  | unexpected token => "unexpected " ++ token.describe
  | expectedName got => "expected identifier after `, got " ++ got.describe
  | unknownUnary symbol => "unknown unary operator " ++ Text.quote symbol
  | unknownBinary symbol => "unknown binary operator " ++ Text.quote symbol
  | cannotAssign target => "cannot assign to " ++ target
  | emptyParentheses => "empty parentheses"
  | expectedComma got => "expected comma in matrix, got " ++ got.describe
  | expectedCell => "expected matrix value, got newline"
  | raggedMatrix row got want =>
    "inconsistent matrix row length: row " ++ toString row ++ " has " ++ toString got ++
      " values, want " ++ toString want
  | parameter source => "lambda parameter must be an identifier, got " ++ source

/-- An error in the text of a statement. -/
structure SyntaxError where
  /-- The name of the input. -/
  file : Text
  /-- Where the error is. -/
  pos : Position
  /-- What is wrong. -/
  fault : SyntaxFault
  deriving DecidableEq

/-- An error as it is reported. The name of the input is left out if it is empty. -/
def SyntaxError.report (e : SyntaxError) : Text :=
  let place := if e.file.isEmpty then e.file else e.file ++ ":"
  place ++ e.pos.text ++ ": " ++ e.fault.message

/-- Several errors as they are reported, a line for each. -/
def SyntaxError.reportAll (es : List SyntaxError) : Text :=
  Text.join "\n" (es.map report)

end SymCalc
