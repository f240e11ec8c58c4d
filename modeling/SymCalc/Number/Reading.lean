import SymCalc.Number.Binary64
import SymCalc.Text.Basic

/-!
# Reading numbers

A numeral is read as the binary64 number nearest to it. It is written in decimal with an
optional power of ten, or in hexadecimal with a power of two; underscores may separate its
digits. A numeral that is too large for any finite number is told apart from a malformed one.
-/

namespace SymCalc.Number

/-- Why a number is not read. -/
inductive ReadFault where
  /-- It is no numeral. -/
  | malformed
  /-- It is too large for any finite number, in the direction of its sign. -/
  | tooLarge (negative : Bool)
  deriving DecidableEq, Repr

/-- The digits that a numeral is written in. -/
inductive Radix where
  /-- Decimal digits. -/
  | ten
  /-- Hexadecimal digits. -/
  | sixteen
  deriving DecidableEq, Repr

namespace Radix

/-- How many digits there are. -/
def base : Radix → Nat
  | ten => 10
  | sixteen => 16

/-- Whether a character is a digit. -/
def isDigit (radix : Radix) (c : Char) : Bool :=
  c.isDigit || (radix = sixteen && 'a' ≤ c.toLower && c.toLower ≤ 'f')

/-- The letter that a power follows. -/
def powerLetter : Radix → Char
  | ten => 'e'
  | sixteen => 'p'

end Radix

/-- The value of a digit. -/
def digitValue (c : Char) : Nat :=
  if c.isDigit then c.toNat - '0'.toNat else c.toLower.toNat - 'a'.toNat + 10

/-- The value of a run of digits. -/
def natOfDigits (radix : Radix) (digits : List Char) : Nat :=
  digits.foldl (fun n c => n * radix.base + digitValue c) 0

/-- A numeral: the digits before and after the point, and the power that multiplies it, of ten
for decimal digits and of two for hexadecimal ones. -/
structure Numeral where
  /-- The digits that it is written in. -/
  radix : Radix
  /-- The digits before the point. -/
  whole : List Char
  /-- The digits after the point. -/
  fraction : List Char
  /-- The power of ten or of two that multiplies the number. -/
  exponent : Int
  deriving DecidableEq, Repr

namespace Numeral

/-- The power written after its letter, when it is well formed. Only a decimal numeral may do
without. -/
def exponentOf? (radix : Radix) : List Char → Option Int
  | [] => if radix = .ten then some 0 else none
  | e :: rest =>
    if e.toLower = radix.powerLetter then
      let (negative, digits) :=
        match rest with
        | '-' :: digits => (true, digits)
        | '+' :: digits => (false, digits)
        | digits => (false, digits)
      if digits.isEmpty || !digits.all Char.isDigit then none
      else
        let size := natOfDigits .ten digits
        some (if negative then -(size : Int) else size)
    else none

/-- Splits an unsigned numeral without its mark for the radix into its parts. At least one digit
is needed. -/
def parseIn? (radix : Radix) (cs : List Char) : Option Numeral :=
  let whole := cs.takeWhile radix.isDigit
  let rest := cs.dropWhile radix.isDigit
  let (fraction, rest) :=
    match rest with
    | '.' :: rest => (rest.takeWhile radix.isDigit, rest.dropWhile radix.isDigit)
    | rest => ([], rest)
  if whole.isEmpty && fraction.isEmpty then none
  else (exponentOf? radix rest).map fun exponent => ⟨radix, whole, fraction, exponent⟩

/-- Splits an unsigned numeral into its parts. A zero and the letter x mark hexadecimal digits. -/
def parse? (cs : List Char) : Option Numeral :=
  match cs with
  | '0' :: x :: c :: rest =>
    if x.toLower = 'x' then parseIn? .sixteen (c :: rest) else parseIn? .ten cs
  | _ => parseIn? .ten cs

/-- The power beyond which every number overflows or vanishes. -/
def exponentLimit : Radix → Int
  | .ten => 400
  | .sixteen => 1200

/-- The power that one place counts for, and its base. -/
def placeOf : Radix → Nat × Nat
  | .ten => (1, 10)
  | .sixteen => (4, 2)

/-- The bits of the nearest number, or nothing if the numeral is too large. -/
def bits? (n : Numeral) : Option UInt64 :=
  let digits := n.whole ++ n.fraction
  let value := natOfDigits n.radix digits
  let (step, base) := placeOf n.radix
  let place := n.exponent - step * n.fraction.length
  let top := place + step * (digits.dropWhile (· = '0')).length
  if value = 0 then some 0
  else if exponentLimit n.radix < top then none
  else if top < -exponentLimit n.radix then some 0
  else if 0 ≤ place then nearestBits? (value * Nat.pow base place.toNat) 1
  else nearestBits? value (Nat.pow base (-place).toNat)

end Numeral

/-- Whether underscores stand only between digits; the flag tells whether a digit stands
before, and the mark for the radix counts as one. -/
def separatesFrom (radix : Radix) : (afterDigit : Bool) → List Char → Bool
  | _, [] => true
  | afterDigit, '_' :: c :: rest =>
    afterDigit && radix.isDigit c && separatesFrom radix true rest
  | _, ['_'] => false
  | _, c :: rest => separatesFrom radix (radix.isDigit c) rest

/-- Whether underscores stand only between digits, or between the mark for the radix and a
digit. -/
def separates : List Char → Bool
  | '0' :: x :: rest =>
    if x.toLower = 'x' then separatesFrom .sixteen true rest
    else separatesFrom .ten true (x :: rest)
  | cs => separatesFrom .ten false cs

/-- Positive infinity. -/
def infinity : Float := Float.ofBits 0x7FF0000000000000

/-- Not a number. -/
def notANumber : Float := Float.ofBits 0x7FF8000000000000

/-- The characters as a string, with ASCII capitals made small. -/
def lowered (cs : List Char) : String := String.ofList (cs.map Char.toLower)

/-- Reads an unsigned number: a numeral, or a word for infinity. -/
def readUnsigned (negative : Bool) (cs : List Char) : Except ReadFault Float :=
  if lowered cs = "inf" || lowered cs = "infinity" then .ok infinity
  else if !separates cs then .error .malformed
  else
    match Numeral.parse? (cs.filter (· ≠ '_')) with
    | none => .error .malformed
    | some n =>
      match n.bits? with
      | none => .error (.tooLarge negative)
      | some bits => .ok (Float.ofBits bits)

/-- Reads a number with an optional sign. The word for not-a-number has none. -/
def read (t : Text) : Except ReadFault Float :=
  match t.chars with
  | '-' :: cs => (readUnsigned true cs).map fun x => -x
  | '+' :: cs => readUnsigned false cs
  | cs => if lowered cs = "nan" then .ok notANumber else readUnsigned false cs

end SymCalc.Number
