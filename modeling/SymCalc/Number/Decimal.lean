import SymCalc.Number.Binary64

/-!
# Decimal digits of binary numbers

A positive number `m * 2 ^ q` is written in decimal digits in two ways: with the fewest
digits that read back as the same number, or rounded to a given place. Both work on exact
whole numbers.
-/

namespace SymCalc.Number

/-- The decimal digits of a whole number, most significant first. -/
def digitsOf (n : Nat) : List Char := Nat.toDigits 10 n

/-- A positive decimal number `d.ddd * 10 ^ exponent`, without zeros at the end. -/
structure Decimal where
  /-- The significant digits, most significant first. -/
  digits : List Char
  /-- The power of ten that the first digit counts. -/
  exponent : Int
  deriving DecidableEq, Repr

/-- A positive quotient of whole numbers. -/
structure Ratio where
  /-- The numerator. -/
  num : Nat
  /-- The denominator. -/
  den : Nat
  deriving DecidableEq, Repr

namespace Ratio

/-- The quotient that `m * 2 ^ q` is. -/
def ofBinary (m : Nat) (q : Int) : Ratio :=
  if 0 ≤ q then ⟨m * Nat.pow 2 q.toNat, 1⟩ else ⟨m, Nat.pow 2 (-q).toNat⟩

/-- The quotient times a power of ten. -/
def shift (r : Ratio) (e : Int) : Ratio :=
  if 0 ≤ e then ⟨r.num * Nat.pow 10 e.toNat, r.den⟩
  else ⟨r.num, r.den * Nat.pow 10 (-e).toNat⟩

/-- The power of ten that the first significant digit of a positive quotient counts. -/
def exponent (r : Ratio) : Int :=
  if r.den ≤ r.num then ((digitsOf (r.num / r.den)).length : Int) - 1
  else - ((digitsOf ((r.den + r.num - 1) / r.num - 1)).length : Int)

/-- The nearest whole number; a half goes to the even neighbour. -/
def round (r : Ratio) : Nat := roundDiv r.num r.den

/-- Whether the first quotient is less than the second. -/
def lt (r s : Ratio) : Bool := r.num * s.den < s.num * r.den

end Ratio

/-- The digits of a whole number counted from a power of ten, without zeros at the end. -/
def Decimal.ofScaled (n : Nat) (place : Int) : Decimal :=
  let ds := digitsOf n
  ⟨(ds.reverse.dropWhile (· = '0')).reverse, place + (ds.length : Int) - 1⟩

/-- Whether a decimal `n * 10 ^ place` lies strictly between two quotients, or on one of
them when the ends count. -/
def within (low high : Ratio) (ends : Bool) (n : Nat) (place : Int) : Bool :=
  let x := Ratio.shift ⟨n, 1⟩ place
  if ends then !x.lt low && !high.lt x else low.lt x && x.lt high

/-- The fewest digits, at least `count`, that stand for a number between the two quotients;
of two candidates the one nearer to the value. After `limit` more digits it gives up and
takes the value rounded to that many digits. -/
def fewestDigits (value low high : Ratio) (ends : Bool) (first : Int) :
    (limit : Nat) → (count : Nat) → Decimal
  | 0, count =>
    let place := first - count + 1
    Decimal.ofScaled (value.shift (-place)).round place
  | limit + 1, count =>
    let place := first - count + 1
    let scaled := value.shift (-place)
    let down := scaled.num / scaled.den
    match within low high ends down place, within low high ends (down + 1) place with
    | true, true => Decimal.ofScaled scaled.round place
    | true, false => Decimal.ofScaled down place
    | false, true => Decimal.ofScaled (down + 1) place
    | false, false => fewestDigits value low high ends first limit (count + 1)

/-- The fewest digits that read back as the number `m * 2 ^ q`. The numbers that read back
lie within half a step of it; below a power of two the step is half as wide. -/
def shortest (m : Nat) (q : Int) : Decimal :=
  let value := Ratio.ofBinary m q
  let high := Ratio.ofBinary (2 * m + 1) (q - 1)
  let low :=
    if m = Nat.pow 2 52 && Binary64.minExponent < q then Ratio.ofBinary (4 * m - 1) (q - 2)
    else Ratio.ofBinary (2 * m - 1) (q - 1)
  fewestDigits value low high (m % 2 == 0) value.exponent 17 1

/-- The number `m * 2 ^ q` rounded to a count of significant digits, at least one. -/
def significant (m : Nat) (q : Int) (count : Nat) : Decimal :=
  let value := Ratio.ofBinary m q
  let place := value.exponent - count + 1
  Decimal.ofScaled (value.shift (-place)).round place

/-- The number `m * 2 ^ q` in units of the last of `places` decimal places, rounded. -/
def fixed (m : Nat) (q : Int) (places : Nat) : Nat :=
  ((Ratio.ofBinary m q).shift places).round

end SymCalc.Number
