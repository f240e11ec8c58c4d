import SymCalc.Expr.Basic
import SymCalc.Value.Basic

/-!
# Expressions as text

An expression is written in two ways: as it would stand in a program, and as an outline that
shows how it was read.
-/

namespace SymCalc

variable {M : Type} [Numeric M]

/-- A constant as it is printed. -/
def Constant.text (c : Constant M) : Text := c.value.render Numeric.write

/-- A constant as it would stand in a program. The imaginary unit and literal variables stand
behind a backquote. -/
def Constant.source (c : Constant M) : Text :=
  match c with
  | .scalar (.poly (.term t)) => if t.imaginary || !t.powers.isEmpty then "`" ++ c.text else c.text
  | _ => c.text

namespace Expr

/-- Puts an operand that is itself an operation or an assignment into parentheses. -/
def operandText (e : Expr M) (source : Text) : Text :=
  match e with
  | .binary .. | .assign .. | .unary .. => "(" ++ source ++ ")"
  | _ => source

mutual

/-- An expression as it would stand in a program. -/
def source : Expr M → Text
  | literal _ c => c.source
  | reference ref => ref.name
  | operator op => op.symbol
  | unary _ op right => op.symbol ++ operandText right (source right)
  | binary _ left op right =>
    operandText left (source left) ++ " " ++ op.symbol ++ " " ++ operandText right (source right)
  | assign _ target right => target.name ++ " = " ++ source right
  | tuple _ items => "(" ++ Text.join ", " (sources items) ++ ")"
  | matrix _ rows => "[" ++ Text.join "\n" (sourceRows rows) ++ "]"
  | ifThen _ test yes => "if " ++ source test ++ " then " ++ source yes ++ " end"
  | ifElse _ test yes no =>
    "if " ++ source test ++ " then " ++ source yes ++ " else " ++ source no ++ " end"
  | lambda _ params _ body =>
    "lambda (" ++ Text.join ", " (params.map (·.name)) ++ ") \x7b " ++
      Text.join "; " (sources body) ++ " \x7d"
  | call _ name args => name ++ "(" ++ Text.join ", " (sources args) ++ ")"
  | ret _ value => "return " ++ source value
  | declare _ words => words.text
  | program _ statements => Text.join "\n" (sources statements)
termination_by structural e => e

/-- Expressions as they would stand in a program. -/
def sources : List (Expr M) → List Text
  | [] => []
  | e :: es => source e :: sources es
termination_by structural es => es

/-- The rows of a matrix as they would stand in a program. -/
def sourceRows : List (List (Expr M)) → List Text
  | [] => []
  | row :: rows => Text.join ", " (sources row) :: sourceRows rows
termination_by structural rows => rows

end

mutual

/-- The outline of an expression. -/
def outline : Expr M → Text
  | literal _ c => "<" ++ c.value.kind.name.map Char.toLower ++ " " ++ c.text ++ ">"
  | reference ref => "<var " ++ ref.name ++ ">"
  | operator op => "<op " ++ op.symbol ++ ">"
  | unary _ op right => "(" ++ op.symbol ++ " " ++ outline right ++ ")"
  | binary _ left op right => "(" ++ outline left ++ " " ++ op.symbol ++ " " ++ outline right ++ ")"
  | assign _ target right => "(" ++ target.name ++ " = " ++ outline right ++ ")"
  | tuple _ items => "<tuple " ++ Text.join ", " (outlines items) ++ ">"
  | matrix _ rows => "<matrix " ++ Text.join "; " (outlineRows rows) ++ ">"
  | ifThen _ test yes => "<:if " ++ outline test ++ "; " ++ outline yes ++ "; :end>"
  | ifElse _ test yes no =>
    "<:if " ++ outline test ++ "; " ++ outline yes ++ "; :else " ++ outline no ++ "; :end>"
  | lambda _ params _ body =>
    "<lambda (" ++ Text.join ", " (params.map (·.name)) ++ ") \x7b" ++
      Text.join "; " (outlines body) ++ "\x7d>"
  | call _ name args => "<call " ++ name ++ "(" ++ Text.join ", " (outlines args) ++ ")>"
  | ret _ value => ":ret " ++ outline value
  | declare _ words => "<" ++ words.text ++ ">"
  | program _ statements => "\x7b" ++ Text.join "; " (outlines statements) ++ "\x7d"
termination_by structural e => e

/-- The outlines of expressions. -/
def outlines : List (Expr M) → List Text
  | [] => []
  | e :: es => outline e :: outlines es
termination_by structural es => es

/-- The outlines of the rows of a matrix. -/
def outlineRows : List (List (Expr M)) → List Text
  | [] => []
  | row :: rows => Text.join " " (outlines row) :: outlineRows rows
termination_by structural rows => rows

end

end Expr

end SymCalc
