import SymCalc.Text.Basic
import SymCalc.Text.Printable

/-!
# Quotations

A quotation shows a text between double quotes. Printable characters stand for themselves;
the quote, the backslash and everything else are written as escapes, and so are bytes that
are not part of any valid sequence.
-/

namespace SymCalc.Text

/-- The digit of a value below sixteen, in lower case. -/
def hexDigit (n : Nat) : Char := "0123456789abcdef".toList.getD n '?'

/-- The last `width` hexadecimal digits of a number, most significant first. -/
def hexDigits : (width : Nat) → Nat → List Char
  | 0, _ => []
  | width + 1, n => hexDigits width (n / 16) ++ [hexDigit (n % 16)]

/-- The number of hexadecimal digits is the one asked for. -/
@[simp] theorem length_hexDigits (width n : Nat) : (hexDigits width n).length = width := by
  induction width generalizing n with
  | zero => rfl
  | succ width ih => simp [hexDigits, ih]

/-- The control characters that have an escape letter of their own. -/
def escapeLetter? (c : Char) : Option Char :=
  match c.toNat with
  | 7 => some 'a'
  | 8 => some 'b'
  | 9 => some 't'
  | 10 => some 'n'
  | 11 => some 'v'
  | 12 => some 'f'
  | 13 => some 'r'
  | _ => none

/-- The mark around a quotation. -/
def doubleQuote : Char := '\x22'

/-- A character as it stands inside a quotation. -/
def escape (c : Char) : List Char :=
  if c = doubleQuote || c = '\\' then ['\\', c]
  else if isPrintable c then [c]
  else
    match escapeLetter? c with
    | some letter => ['\\', letter]
    | none =>
      if c.toNat < 0x80 then '\\' :: 'x' :: hexDigits 2 c.toNat
      else if c.toNat < 0x10000 then '\\' :: 'u' :: hexDigits 4 c.toNat
      else '\\' :: 'U' :: hexDigits 8 c.toNat

/-- A piece of a text as it stands inside a quotation. -/
def Segment.escape (s : Segment) : List Char :=
  if s.isStray then '\\' :: 'x' :: s.bytes.flatMap fun b => hexDigits 2 b.toNat
  else Text.escape s.char

/-- Pieces of a text between double quotes. -/
def quoteSegments (ss : List Segment) : Text :=
  ofChars (doubleQuote :: ss.flatMap Segment.escape ++ [doubleQuote])

/-- A text between double quotes, with escapes. -/
def quote (t : Text) : Text := quoteSegments (segments t.bytes)

/-- A quotation of the first characters of a text only. -/
def quotePrefix (count : Nat) (t : Text) : Text := quoteSegments ((segments t.bytes).take count)

/-- A character named by its code point, in at least four upper-case hexadecimal digits,
and shown in single quotes if it is printable. -/
def codePoint (c : Char) : String :=
  let width := if c.toNat < 0x10000 then 4 else if c.toNat < 0x100000 then 5 else 6
  let name := "U+" ++ String.ofList ((hexDigits width c.toNat).map Char.toUpper)
  if isPrintable c then name ++ " '" ++ String.singleton c ++ "'" else name

end SymCalc.Text
