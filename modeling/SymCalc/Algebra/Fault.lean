import SymCalc.Text.Quoted

/-!
# Faults

Everything that can go wrong when values are combined or statements are evaluated, as causes;
the wording of each stands in `Fault.message`.
-/

namespace SymCalc

/-- The kinds of values, as messages name them. -/
inductive ValueKind where
  /-- A single term. -/
  | term
  /-- A list of terms. -/
  | termList
  /-- A quotient of sums. -/
  | fraction
  /-- A matrix. -/
  | matrix
  /-- True or false. -/
  | boolean
  /-- A tuple. -/
  | tuple
  /-- A function with the bindings it was made in. -/
  | closure
  /-- The value of a statement without a value. -/
  | unit
  deriving DecidableEq, Repr

/-- The name of a kind of value. -/
def ValueKind.name : ValueKind → String
  | term => "Term"
  | termList => "TermList"
  | fraction => "Fraction"
  | matrix => "Matrix"
  | boolean => "Boolean"
  | tuple => "Tuple"
  | closure => "Closure"
  | unit => "Unit"

/-- The numbers of rows and columns of a matrix. -/
structure Shape where
  /-- The number of rows. -/
  rows : Nat
  /-- The number of columns. -/
  cols : Nat
  deriving DecidableEq, Repr

/-- A shape as messages show it. -/
def Shape.text (s : Shape) : String := toString s.rows ++ "x" ++ toString s.cols

/-- Why values could not be combined or a statement not evaluated. -/
inductive Fault where
  /-- The divisor is zero. -/
  | divisionByZero
  /-- A matrix without rows or without columns. -/
  | emptyMatrix
  /-- A row, counted from one, that is not as long as the first. -/
  | raggedMatrix (row got want : Nat)
  /-- Matrices of different shapes are added. -/
  | shapeMismatch (left right : Shape)
  /-- The rows of the left factor are not as long as the columns of the right one. -/
  | productMismatch (left right : Shape)
  /-- A binary operator without a meaning. -/
  | unknownBinary (symbol : Text)
  /-- A binary operator that has no meaning for these kinds. -/
  | binaryOperands (symbol : Text) (left right : ValueKind)
  /-- A unary operator without a meaning. -/
  | unknownUnary (symbol : Text)
  /-- A unary operator that has no meaning for this kind. -/
  | unaryOperand (symbol : Text) (operand : ValueKind)
  /-- A name that is not bound. -/
  | undefined (name : Text)
  /-- A condition that is not a Boolean. -/
  | condition (kind : ValueKind)
  /-- A cell of a matrix that is not a scalar. -/
  | cell (kind : ValueKind)
  /-- A name that is called but not bound to a closure. -/
  | notCallable (name : Text) (kind : ValueKind)
  /-- A call with the wrong number of arguments. -/
  | argumentCount (name : Text) (got want : Nat)
  /-- A call beyond the depth limit. -/
  | stackOverflow (name : Text)
  /-- A declaration of an operator. -/
  | declaration
  deriving DecidableEq

/-- The wording of a fault. -/
def Fault.message : Fault → Text
  | divisionByZero => "division by zero"
  | emptyMatrix => "empty matrix"
  | raggedMatrix row got want =>
    "inconsistent matrix row length: row " ++ toString row ++ " has " ++ toString got ++
      " values, want " ++ toString want
  | shapeMismatch left right =>
    "matrix dimensions do not match: " ++ left.text ++ " and " ++ right.text
  | productMismatch left right =>
    "matrix dimensions do not match for multiplication: " ++ left.text ++ " and " ++ right.text
  | unknownBinary symbol => "binary " ++ Text.quote symbol ++ " not implemented"
  | binaryOperands symbol left right =>
    "operator " ++ Text.quote symbol ++ " not implemented for left: " ++ left.name ++
      ", right: " ++ right.name
  | unknownUnary symbol => "unary " ++ Text.quote symbol ++ " not implemented"
  | unaryOperand symbol operand =>
    "unary " ++ Text.quote symbol ++ " not implemented for " ++ operand.name
  | undefined name => name ++ " is not defined"
  | condition kind => "if condition is " ++ kind.name ++ ", not Boolean"
  | cell kind => "matrix value must be a scalar, got " ++ kind.name
  | notCallable name kind => "cannot call " ++ name ++ ": " ++ kind.name ++ " is not a Closure"
  | argumentCount name got want =>
    "wrong number of arguments calling " ++ name ++ ": got " ++ toString got ++ ", want " ++
      toString want
  | stackOverflow name => "stack overflow calling " ++ name
  | declaration => "set: operator declarations are not supported"

end SymCalc
