import SymCalc.Number.Reading
import SymCalc.Number.Template

/-!
# Magnitudes

The numbers that terms are built from. The algebra uses nothing of them but the field
operations, a test for equality and an order, so it is written for any type that has these;
programs run on binary floating point numbers.
-/

namespace SymCalc

/-- Numbers with the operations that the algebra needs. -/
class Magnitude (M : Type) extends Zero M, One M, Add M, Mul M, Div M, Neg M, BEq M where
  /-- The order that terms are sorted by. -/
  order : M → M → Ordering
  /-- Whether a number is less than zero. -/
  isNegative : M → Bool

/-- Whether a magnitude equals zero. -/
def Magnitude.isZero {M : Type} [Magnitude M] (m : M) : Bool := m == (0 : M)

/-- The order of binary floating point numbers: not-a-number comes first and equals itself, and
the two zeros are equal. -/
def floatOrder (x y : Float) : Ordering :=
  if x < y then .lt
  else if x > y then .gt
  else if x == y then .eq
  else
    match x.isNaN, y.isNaN with
    | true, true => .eq
    | true, false => .lt
    | _, _ => .gt

/-- Magnitudes that can be read from a program and written by a template. -/
class Numeric (M : Type) extends Magnitude M where
  /-- The magnitude that a numeral stands for. -/
  read? : Text → Option M
  /-- A magnitude written by a template. -/
  format : Text → M → Text

/-- A magnitude written plainly, in as few digits as read back. -/
def Numeric.write {M : Type} [Numeric M] : M → Text := Numeric.format "%v"

instance : Numeric Float where
  zero := 0
  one := 1
  order := floatOrder
  isNegative x := x < 0
  read? t := (Number.read t).toOption
  format := Number.fill

end SymCalc
