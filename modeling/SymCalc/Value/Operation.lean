import SymCalc.Value.Basic

/-!
# Operators

The meaning of the binary and unary operators on values. An operator applied to kinds of
values that it has no meaning for is a fault.
-/

namespace SymCalc

variable {M : Type} [Magnitude M]

/-- The binary operators that have a meaning. -/
inductive BinaryOp where
  /-- Addition. -/
  | add
  /-- Subtraction. -/
  | sub
  /-- Multiplication. -/
  | mul
  /-- Division. -/
  | div
  /-- The tensor product. -/
  | tensor
  /-- Both of two Booleans. -/
  | and
  /-- At least one of two Booleans. -/
  | or
  deriving DecidableEq, Repr

namespace BinaryOp

/-- All operators. -/
def all : List BinaryOp := [add, sub, mul, div, tensor, and, or]

/-- The symbol of an operator. -/
def symbol : BinaryOp → Text
  | add => "+"
  | sub => "-"
  | mul => "*"
  | div => "/"
  | tensor => "*!"
  | and => "&&"
  | or => "||"

/-- The operator that a symbol stands for. -/
def ofSymbol? (symbol : Text) : Option BinaryOp := all.find? (·.symbol = symbol)

/-- Reading the symbol of an operator gives the operator. -/
theorem ofSymbol?_symbol (op : BinaryOp) : ofSymbol? op.symbol = some op := by
  cases op <;> rfl

end BinaryOp

/-- The symbols of binary operators that are reserved, without a meaning so far. -/
def reservedOperators : List Text := [">*<", "<*>", "*.", "*+"]

/-- Whether a symbol is a binary operator, with a meaning or reserved. -/
def isBinaryOperator (symbol : Text) : Bool :=
  (BinaryOp.ofSymbol? symbol).isSome || reservedOperators.any (· = symbol)

/-- The unary operators. -/
inductive UnaryOp where
  /-- Negation of numbers. -/
  | neg
  /-- Transposition. -/
  | transpose
  /-- Negation of Booleans. -/
  | not
  deriving DecidableEq, Repr

namespace UnaryOp

/-- All operators. -/
def all : List UnaryOp := [neg, transpose, not]

/-- The symbol of an operator. -/
def symbol : UnaryOp → Text
  | neg => "-"
  | transpose => "~"
  | not => "!"

/-- The operator that a symbol stands for. -/
def ofSymbol? (symbol : Text) : Option UnaryOp := all.find? (·.symbol = symbol)

/-- Reading the symbol of an operator gives the operator. -/
theorem ofSymbol?_symbol (op : UnaryOp) : ofSymbol? op.symbol = some op := by
  cases op <;> rfl

/-- The unary operators are the prefix operators that programs are read with. -/
theorem map_symbol_all : all.map symbol = unaryOperators := rfl

end UnaryOp

namespace Value

/-- Applies a binary operator with a meaning. -/
def operate (op : BinaryOp) (u v : Value M) : Except Fault (Value M) :=
  match op, u, v with
  | .add, .scalar s, .scalar t => .ok (.scalar (s.add t))
  | .add, .matrix m, .matrix n => (m.add n).map .matrix
  | .sub, .scalar s, .scalar t => .ok (.scalar (s.add t.neg))
  | .sub, .matrix m, .matrix n => (m.add n.neg).map .matrix
  | .mul, .scalar s, .scalar t => .ok (.scalar (s.mul t))
  | .mul, .scalar s, .matrix n => .ok (.matrix (n.scale s))
  | .mul, .matrix m, .scalar t => .ok (.matrix (m.scale t))
  | .mul, .matrix m, .matrix n => (m.mul n).map .matrix
  | .div, .scalar s, .scalar t => (s.div t).map .scalar
  | .tensor, .matrix m, .matrix n => .ok (.matrix (m.tensor n))
  | .and, .boolean a, .boolean b => .ok (.boolean (a && b))
  | .or, .boolean a, .boolean b => .ok (.boolean (a || b))
  | op, u, v => .error (.binaryOperands op.symbol u.kind v.kind)

/-- Applies the binary operator that a symbol stands for. -/
def binary (u : Value M) (symbol : Text) (v : Value M) : Except Fault (Value M) :=
  match BinaryOp.ofSymbol? symbol with
  | some op => operate op u v
  | none => .error (.unknownBinary symbol)

/-- Applies a unary operator. -/
def operateUnary (op : UnaryOp) (v : Value M) : Except Fault (Value M) :=
  match op, v with
  | .neg, .scalar s => .ok (.scalar s.neg)
  | .neg, .matrix m => .ok (.matrix m.neg)
  | .transpose, .matrix m => .ok (.matrix m.transpose)
  | .not, .boolean b => .ok (.boolean !b)
  | op, v => .error (.unaryOperand op.symbol v.kind)

/-- Applies the unary operator that a symbol stands for. -/
def unary (symbol : Text) (v : Value M) : Except Fault (Value M) :=
  match UnaryOp.ofSymbol? symbol with
  | some op => operateUnary op v
  | none => .error (.unknownUnary symbol)

end Value

end SymCalc
