import SymCalc.Number.Layout

/-!
# Templates

A template is text with directives, each a percent sign, flags, a width, a precision and a
letter; it is filled in with one number. A directive that makes no sense is answered in the
text itself, between `%!` and a closing parenthesis.
-/

namespace SymCalc.Number

open Text (Segment)

/-- The flags, the width and the precision of a directive. -/
structure Directive where
  /-- Always write a sign. -/
  plus : Bool := false
  /-- Pad on the right. -/
  minus : Bool := false
  /-- Always write a point, and keep zeros at the end. -/
  sharp : Bool := false
  /-- Write a space in place of a plus sign. -/
  space : Bool := false
  /-- Pad with zeros. -/
  zero : Bool := false
  /-- The least number of characters. -/
  width : Option Nat := none
  /-- The number of digits, in the sense of the layout. -/
  precision : Option Nat := none
  deriving DecidableEq, Repr

namespace Directive

/-- The padding that brings a text up to the width. -/
def padding (d : Directive) (length : Nat) : List Char :=
  List.replicate (d.width.getD 0 - length) (if d.zero && !d.minus then '0' else ' ')

/-- A text brought up to the width, on the left or on the right. -/
def pad (d : Directive) (text : List Char) : List Char :=
  if d.minus then text ++ d.padding text.length else d.padding text.length ++ text

/-- A padded text is at least as long as the text. -/
theorem length_le_pad (d : Directive) (text : List Char) : text.length ≤ (d.pad text).length := by
  simp only [pad]
  split <;> simp

end Directive

/-- The layout that a letter asks for, with the precision it has by default and whether it
wants upper case. -/
def layoutOf? : Char → Option (Layout × Option Nat × Bool)
  | 'v' | 'g' => some (.general, none, false)
  | 'G' => some (.general, none, true)
  | 'e' => some (.scientific, some 6, false)
  | 'E' => some (.scientific, some 6, true)
  | 'f' | 'F' => some (.positional, some 6, false)
  | 'x' => some (.hexadecimal, none, false)
  | 'X' => some (.hexadecimal, none, true)
  | 'b' => some (.binary, none, false)
  | _ => none

/-- Splits a number before its exponent. In hexadecimal the letter e is a digit. -/
def splitExponent (hexadecimal : Bool) (text : List Char) : List Char × List Char :=
  let isDigit (c : Char) : Bool := c != 'p' && c != 'P' && (hexadecimal || (c != 'e' && c != 'E'))
  (text.takeWhile isDigit, text.dropWhile isDigit)

/-- A number with a point in any case, and with zeros up to `count` significant digits. -/
def withPoint (hexadecimal : Bool) (count : Nat) (text : List Char) : List Char :=
  let (front, exponent) := splitExponent hexadecimal text
  let significant := ((front.filter (· ≠ '.')).dropWhile (· = '0')).length
  let shown := if front = ['0'] then 1 else significant
  let front := if front.contains '.' then front else front ++ ['.']
  front ++ List.replicate (count - shown) '0' ++ exponent

/-- How many significant digits the sharp flag keeps. -/
def sharpCount (letter : Char) (precision : Option Nat) : Nat :=
  if letter = 'v' || letter = 'g' || letter = 'G' || letter = 'x' then precision.getD 6 else 0

/-- A signed text put into its place. Zeros used as padding go between the sign and the rest;
a plus sign is left out unless it was asked for. -/
def placeSigned (d : Directive) (sign : Char) (text : List Char) : List Char :=
  if d.plus || sign ≠ '+' then
    if d.zero && !d.minus then sign :: d.padding (text.length + 1) ++ text
    else d.pad (sign :: text)
  else d.pad text

/-- The sign that a number carries before its magnitude. -/
def signOf (d : Directive) (negative : Bool) : Char :=
  if negative then '-' else if d.space && !d.plus then ' ' else '+'

/-- A number written by a directive with a letter that has a layout. -/
def writeAs (d : Directive) (letter : Char) (layout : Layout) (default : Option Nat) (upper : Bool)
    (x : Float) : List Char :=
  let unpadded := { d with zero := false }
  match Binary64.ofFloat x with
  | .nan =>
    if d.space || d.plus then unpadded.pad (signOf d false :: "NaN".toList)
    else unpadded.pad "NaN".toList
  | .infinite negative =>
    let sign := signOf d negative
    unpadded.pad (sign :: "Inf".toList)
  | .finite negative m q =>
    let precision := d.precision.orElse fun _ => default
    let text := layout.write m q precision
    let text := if upper then text.map Char.toUpper else text
    let text :=
      if d.sharp && layout ≠ .binary then
        withPoint (layout = .hexadecimal) (sharpCount letter precision) text
      else text
    placeSigned d (signOf d negative) text

/-- The number in the plainest layout, under the flags of a directive. -/
def writePlain (d : Directive) (x : Float) : List Char := writeAs d 'v' .general none false x

/-- The name that templates use for the kind of number they are given. -/
def kindName : List Char := "float64".toList

/-- A number under a directive and its letter. The letter v ignores the plus and the sharp
flag, the letter T names the kind of number, and a letter without a layout is reported. -/
def writeDirective (d : Directive) (letter : Char) (x : Float) : List Char :=
  let d := if letter = 'v' || letter = 'w' then { d with plus := false, sharp := false } else d
  if letter = 'T' then d.pad (kindName.take (d.precision.getD kindName.length))
  else
    match layoutOf? letter with
    | some (layout, default, upper) => writeAs d letter layout default upper x
    | none => '%' :: '!' :: letter :: '(' :: kindName ++ '=' :: writePlain d x ++ [')']

/-- Reads flags. -/
def readFlags (d : Directive) : List Segment → Directive × List Segment
  | [] => (d, [])
  | s :: rest =>
    match s.char with
    | '#' => readFlags { d with sharp := true } rest
    | '0' => readFlags { d with zero := true } rest
    | '+' => readFlags { d with plus := true } rest
    | '-' => readFlags { d with minus := true } rest
    | ' ' => readFlags { d with space := true } rest
    | _ => (d, s :: rest)

/-- The largest width and precision before one more digit is read. -/
def sizeLimit : Nat := 1000000

/-- Reads a size. One that grows beyond the limit counts as none and swallows the rest. -/
def readSize (n : Option Nat) : List Segment → Option Nat × List Segment
  | [] => (n, [])
  | s :: rest =>
    if s.char.isDigit then
      if sizeLimit < n.getD 0 then (none, [])
      else readSize (some (n.getD 0 * 10 + (s.char.toNat - '0'.toNat))) rest
    else (n, s :: rest)

/-- What follows a character, if the text starts with it. -/
def after? (c : Char) : List Segment → Option (List Segment)
  | [] => none
  | s :: rest => if s.char = c then some rest else none

/-- What is known while a template is filled in. -/
structure Filling where
  /-- Whether the number has been used. -/
  used : Bool := false
  /-- Whether some directive named the number by its place. -/
  placed : Bool := false
  /-- Whether the place named by the present directive exists. -/
  good : Bool := true
  /-- Whether a place has just been named. -/
  afterPlace : Bool := false
  deriving DecidableEq, Repr

/-- Reads a place in brackets, such as `[1]`. Only the first place exists. -/
def readPlace (f : Filling) (text : List Segment) : Filling × List Segment :=
  match after? '[' text with
  | none => ({ f with afterPlace := false }, text)
  | some rest =>
    let f := { f with placed := true }
    if rest.length < 2 || !rest.any (·.char = ']') then
      ({ f with good := false, afterPlace := false }, rest)
    else
      let inside := rest.takeWhile (·.char ≠ ']')
      let after := (rest.dropWhile (·.char ≠ ']')).drop 1
      match readSize none inside with
      | (some n, []) =>
        if n = 1 then ({ f with used := false, afterPlace := true }, after)
        else ({ f with good := false, afterPlace := true }, after)
      | _ => ({ f with good := false, afterPlace := false }, after)

/-- A directive as far as it has been read. -/
structure Reading where
  /-- What is known by then. -/
  filling : Filling
  /-- The flags, the width and the precision. -/
  directive : Directive
  /-- What is said about a size that cannot be used. -/
  complaint : Text
  /-- What is left of the template. -/
  rest : List Segment

/-- Reads the width. A star would take it from the number, which is not a whole number. -/
def readWidth (r : Reading) : Reading :=
  match after? '*' r.rest with
  | some rest =>
    { r with
      filling := { r.filling with used := true, afterPlace := false }
      complaint := r.complaint ++ "%!(BADWIDTH)"
      rest := rest }
  | none =>
    let (width, rest) := readSize none r.rest
    let good := r.filling.good && !(r.filling.afterPlace && width.isSome)
    { r with
      filling := { r.filling with good := good }
      directive := { r.directive with width := width }
      rest := rest }

/-- Reads the precision, which follows a point. A point at the end of the template is not the
start of one. -/
def readPrecision (r : Reading) : Reading :=
  match after? '.' r.rest with
  | none | some [] => r
  | some rest =>
    let good := r.filling.good && !r.filling.afterPlace
    let (f, rest) := readPlace { r.filling with good := good } rest
    match after? '*' rest with
    | some rest =>
      { r with
        filling := { f with used := true, afterPlace := false }
        complaint := r.complaint ++ "%!(BADPREC)"
        rest := rest }
    | none =>
      let (precision, rest) := readSize none rest
      { r with
        filling := f
        directive := { r.directive with precision := some (precision.getD 0) }
        rest := rest }

/-- Reads a directive after its percent sign, up to its letter. -/
def readDirective (f : Filling) (text : List Segment) : Reading :=
  let (d, text) := readFlags {} text
  let (f, text) := readPlace { f with good := true } text
  let r := readPrecision (readWidth ⟨f, d, "", text⟩)
  if r.filling.afterPlace then r
  else
    let (f, rest) := readPlace r.filling r.rest
    { r with filling := f, rest := rest }

/-- A directive whose letter cannot be used, with the reason. -/
def refusal (letter : Char) (reason : String) : Text :=
  Text.ofChars ('%' :: '!' :: letter :: '(' :: reason.toList ++ [')'])

/-- One directive, after its percent sign: what is known then, the text it gives, the rest. -/
def fillDirective (x : Float) (f : Filling) (text : List Segment) : Filling × Text × List Segment :=
  let r := readDirective f text
  let f := r.filling
  match r.rest with
  | [] => (f, r.complaint ++ "%!(NOVERB)", [])
  | s :: rest =>
    let letter := s.char
    if letter = '%' then (f, r.complaint ++ "%", rest)
    else if !f.good then (f, r.complaint ++ refusal letter "BADINDEX", rest)
    else if f.used then (f, r.complaint ++ refusal letter "MISSING", rest)
    else
      let written := Text.ofChars (writeDirective r.directive letter x)
      ({ f with used := true }, r.complaint ++ written, rest)

/-- Fills in a template from left to right; each step takes at least one character, so as
many steps as there are characters are enough. What is not part of a directive is copied byte
by byte. -/
def fillFrom (x : Float) : (steps : Nat) → Filling → List Segment → Filling × Text
  | 0, f, _ => (f, "")
  | _, f, [] => (f, "")
  | steps + 1, f, s :: rest =>
    if s.char = '%' then
      let (f, text, rest) := fillDirective x f rest
      let (f, more) := fillFrom x steps f rest
      (f, text ++ more)
    else
      let (f, more) := fillFrom x steps f rest
      (f, Text.ofBytes s.bytes ++ more)

/-- A template filled in with a number. A number that no directive used is reported at the end. -/
def fill (template : Text) (x : Float) : Text :=
  let text := Text.segments template.bytes
  let (f, filled) := fillFrom x text.length {} text
  if f.used || f.placed then filled
  else filled ++ Text.ofChars ("%!(EXTRA ".toList ++ kindName ++ '=' :: writePlain {} x ++ [')'])

end SymCalc.Number
