import SymCalc.Algebra.Matrix
import SymCalc.Position

/-!
# Expressions

The trees that programs are read into. Every node has a position; names and operators inside
a node have positions of their own.
-/

namespace SymCalc

/-- A value written in a program: anything but a function. -/
inductive Constant (M : Type) where
  /-- A sum of terms or a fraction. -/
  | scalar (s : Scalar M)
  /-- A matrix. -/
  | matrix (m : Matrix M)
  /-- True or false. -/
  | boolean (b : Bool)
  /-- A tuple. -/
  | tuple (items : List (Constant M))
  /-- The value of a statement without a value. -/
  | unit

/-- A name at a position. -/
structure Ref where
  /-- The position of the name. -/
  pos : Position
  /-- The name. -/
  name : Text
  deriving DecidableEq

/-- An operator at a position. -/
structure Operator where
  /-- The position of the operator. -/
  pos : Position
  /-- The operator characters. -/
  symbol : Text
  deriving DecidableEq

/-- The words of an operator declaration, which is read but has no meaning. -/
structure Declaration where
  /-- The operator declared. -/
  operator : Text
  /-- The kind of the left operand. -/
  left : Text
  /-- The kind of the right operand. -/
  right : Text
  /-- The priority. -/
  priority : Text
  /-- The function that it stands for. -/
  function : Text
  deriving DecidableEq

/-- The words of a declaration as they are written. -/
def Declaration.text (d : Declaration) : Text :=
  Text.join " " ["set", d.operator, d.left, d.right, d.priority, d.function]

/-- An expression. -/
inductive Expr (M : Type) where
  /-- A constant. -/
  | literal (pos : Position) (value : Constant M)
  /-- A name that stands for its value. -/
  | reference (ref : Ref)
  /-- An operator on its own, which has no value. -/
  | operator (op : Operator)
  /-- A prefix operator and its operand. -/
  | unary (pos : Position) (op : Operator) (right : Expr M)
  /-- A binary operator and its operands. -/
  | binary (pos : Position) (left : Expr M) (op : Operator) (right : Expr M)
  /-- A name that is bound to a value. -/
  | assign (pos : Position) (target : Ref) (right : Expr M)
  /-- A list in parentheses. With one item it stands for that item. -/
  | tuple (pos : Position) (items : List (Expr M))
  /-- A matrix, row by row. -/
  | matrix (pos : Position) (rows : List (List (Expr M)))
  /-- A condition with one branch. -/
  | ifThen (pos : Position) (test yes : Expr M)
  /-- A condition with two branches. -/
  | ifElse (pos : Position) (test yes no : Expr M)
  /-- A function. -/
  | lambda (pos : Position) (params : List Ref) (bodyPos : Position) (body : List (Expr M))
  /-- A call of the function that a name is bound to. -/
  | call (pos : Position) (name : Text) (args : List (Expr M))
  /-- The end of a function body, or of the program, with a value. -/
  | ret (pos : Position) (value : Expr M)
  /-- An operator declaration. -/
  | declare (pos : Position) (words : Declaration)
  /-- Statements in order. -/
  | program (pos : Position) (statements : List (Expr M))

/-- The position of a node. -/
def Expr.pos {M : Type} : Expr M → Position
  | literal pos _ => pos
  | reference ref => ref.pos
  | operator op => op.pos
  | unary pos _ _ => pos
  | binary pos _ _ _ => pos
  | assign pos _ _ => pos
  | tuple pos _ => pos
  | matrix pos _ => pos
  | ifThen pos _ _ => pos
  | ifElse pos _ _ _ => pos
  | lambda pos _ _ _ => pos
  | call pos _ _ => pos
  | ret pos _ => pos
  | declare pos _ => pos
  | program pos _ => pos

/-- The binary operators with their binding strengths; a higher one binds tighter. -/
def priorities : List (Text × Nat) := [
  (">*<", 30), ("<*>", 30), ("*.", 30), ("*+", 30), ("*!", 30), ("/", 21), ("*", 20), ("+", 10),
  ("-", 10), ("&&", 5), ("||", 5)]

/-- The binding strength of a binary operator. -/
def priority? (symbol : Text) : Option Nat := (priorities.find? (·.1 = symbol)).map (·.2)

/-- The prefix operators. -/
def unaryOperators : List Text := ["-", "~", "!"]

/-- Whether a symbol is a prefix operator. -/
def isUnaryOperator (symbol : Text) : Bool := unaryOperators.any (· = symbol)

end SymCalc
