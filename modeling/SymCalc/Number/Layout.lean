import SymCalc.Number.Decimal
import SymCalc.Text.Quoted

/-!
# Layouts of numbers

The ways in which the magnitude of a number is written: with an exponent, with decimal
places, in the shorter of both, in hexadecimal, or as a whole number times a power of two.
-/

namespace SymCalc.Number

/-- How a number is written. -/
inductive Layout where
  /-- One digit, a point, more digits and a power of ten. -/
  | scientific
  /-- Decimal places after the point. -/
  | positional
  /-- Scientific for very large or small numbers, positional otherwise. -/
  | general
  /-- Hexadecimal digits and a power of two. -/
  | hexadecimal
  /-- The whole significand and its power of two. -/
  | binary
  deriving DecidableEq, Repr

/-- A decimal exponent after its letter: a sign and at least two digits. -/
def exponentText (e : Int) : List Char :=
  let digits := digitsOf e.natAbs
  (if e < 0 then '-' else '+') :: (if digits.length < 2 then '0' :: digits else digits)

/-- The first `count` characters of a run of digits, with zeros after its end. -/
def takeDigits (count : Nat) (digits : List Char) : List Char :=
  (digits ++ List.replicate count '0').take count

/-- As many digits are taken as were asked for. -/
@[simp] theorem length_takeDigits (count : Nat) (digits : List Char) :
    (takeDigits count digits).length = count := by
  simp [takeDigits]

/-- One digit, then `places` digits after a point if there are any, then the exponent. -/
def scientificText (d : Decimal) (places : Nat) : List Char :=
  d.digits.headD '0' ::
    (if places = 0 then [] else '.' :: takeDigits places (d.digits.drop 1)) ++
      'e' :: exponentText (if d.digits.isEmpty then 0 else d.exponent)

/-- The digits before the point, then `places` digits after it if there are any. -/
def positionalText (d : Decimal) (places : Nat) : List Char :=
  let size := (d.exponent + 1).toNat
  let whole := if d.digits.isEmpty || size = 0 then ['0'] else takeDigits size d.digits
  let zeros := List.replicate (min places (-1 - d.exponent).toNat) '0'
  let fraction := takeDigits places (zeros ++ d.digits.drop size)
  if places = 0 then whole else whole ++ '.' :: fraction

/-- The number of decimal places that show every digit. -/
def Decimal.places (d : Decimal) : Nat := (d.digits.length - 1 - d.exponent).toNat

/-- Scientific below the fourth decimal place and from the power of ten `limit` on, and
positional between. All digits are shown, and no more. -/
def generalText (d : Decimal) (limit : Int) : List Char :=
  if !d.digits.isEmpty && (d.exponent < -4 || limit ≤ d.exponent) then
    scientificText d (d.digits.length - 1)
  else positionalText d (if d.digits.isEmpty then 0 else d.places)

/-- From which power of ten on the general layout is scientific: six for the shortest digits,
else the number of digits asked for, or of those left if they show the whole number. -/
def generalLimit (d : Decimal) : Option Nat → Int
  | none => 6
  | some asked =>
    let kept := d.digits.length
    if kept < asked && d.exponent + 1 ≤ kept then kept else asked

/-- The digits of zero: none at all. -/
def zeroDecimal : Decimal := ⟨[], -1⟩

/-- A number of digits that shows `m * 2 ^ q` in full. -/
def allDigits (m : Nat) (q : Int) : Nat := Nat.log2 m + q.natAbs + 1

/-- A number of decimal places that shows `m * 2 ^ q` in full. -/
def allPlaces (q : Int) : Nat := (-q).toNat

/-- The digits of a number rounded to a count of significant digits, or the fewest. -/
def decimalOf (m : Nat) (q : Int) : Option Nat → Decimal
  | none => if m = 0 then zeroDecimal else shortest m q
  | some count =>
    if m = 0 then zeroDecimal else significant m q (min count (allDigits m q))

/-- The significand and the power of two of a number, with a leading one bit in place 52. -/
def normalised (m : Nat) (q : Int) : Nat × Int :=
  if m = 0 then (0, 0)
  else
    let shift := 52 - Nat.log2 m
    (m * Nat.pow 2 shift, q - shift + 52)

/-- A leading bit, hexadecimal digits after a point, and the power of two. The digits are
all that are needed, or rounded to a given number of places. -/
def hexadecimalText (m : Nat) (q : Int) (places : Option Nat) : List Char :=
  let (significand, exponent) := normalised m q
  let (lead, digits, exponent) :=
    match places with
    | some places =>
      if places < 13 then
        let rounded := roundDiv significand (Nat.pow 2 (52 - 4 * places))
        let unit := Nat.pow 16 places
        if 2 * unit ≤ rounded then (1, Text.hexDigits places (rounded / 2 % unit), exponent + 1)
        else (rounded / unit, Text.hexDigits places (rounded % unit), exponent)
      else
        (significand / Nat.pow 2 52,
          Text.hexDigits 13 (significand % Nat.pow 2 52) ++ List.replicate (places - 13) '0', exponent)
    | none =>
      let digits := Text.hexDigits 13 (significand % Nat.pow 2 52)
      (significand / Nat.pow 2 52, (digits.reverse.dropWhile (· = '0')).reverse, exponent)
  '0' :: 'x' :: (if lead = 0 then '0' else '1') ::
    (if digits.isEmpty then [] else '.' :: digits) ++ 'p' :: exponentText exponent

/-- The significand and its power of two, as they are stored. -/
def binaryText (m : Nat) (q : Int) : List Char :=
  digitsOf m ++ 'p' :: (if q < 0 then '-' else '+') :: digitsOf q.natAbs

/-- The magnitude `m * 2 ^ q` in a layout; without a precision as many digits as needed. -/
def Layout.write (layout : Layout) (m : Nat) (q : Int) (precision : Option Nat) : List Char :=
  match layout with
  | scientific =>
    let count := precision.map (· + 1)
    let d := decimalOf m q count
    scientificText d (precision.getD (d.digits.length - 1))
  | positional =>
    match precision with
    | some places =>
      let kept := min places (allPlaces q)
      positionalText (Decimal.ofScaled (fixed m q kept) (-(kept : Int))) places
    | none =>
      let d := decimalOf m q none
      positionalText d (if d.digits.isEmpty then 0 else d.places)
  | general =>
    let asked := precision.map (max 1)
    let d := decimalOf m q asked
    generalText d (generalLimit d asked)
  | hexadecimal => hexadecimalText m q precision
  | binary => binaryText m q

end SymCalc.Number
