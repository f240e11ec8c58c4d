/-!
# Text as bytes

What the program reads and writes is a sequence of bytes, and so are names and messages.
Most of it is UTF-8, but nothing promises that: a byte that does not begin a valid sequence
stands for one replacement character. Main statements: texts are the same when their bytes
are, decoding gives at most one character per byte, and an ASCII byte is always a character
of its own.
-/

namespace SymCalc

/-- Text: bytes, in UTF-8 where the writer took care. -/
abbrev Text := ByteArray

namespace Text

/-- Whether two texts are the same can be decided, by their bytes. -/
instance (priority := high) : DecidableEq Text := ByteArray.instDecidableEq

/-- The bytes of a string. -/
def ofString (s : String) : Text := s.toUTF8

instance : Coe String Text := ⟨ofString⟩

/-- The text made of the given characters. -/
def ofChars (cs : List Char) : Text := ofString (String.ofList cs)

/-- The text made of the given bytes. -/
def ofBytes (bytes : List UInt8) : Text := ⟨⟨bytes⟩⟩

/-- The bytes of a text, in order. -/
def bytes (t : Text) : List UInt8 := t.data.toList

/-- Taking the bytes of a text built from bytes gives them back. -/
@[simp] theorem bytes_ofBytes (bs : List UInt8) : (ofBytes bs).bytes = bs := rfl

/-- The bytes of two texts put together. -/
@[simp] theorem bytes_append (a b : Text) : (a ++ b).bytes = a.bytes ++ b.bytes := by
  simp [bytes]

/-- Texts are the same when their bytes are. -/
theorem bytes_inj {a b : Text} : a.bytes = b.bytes ↔ a = b :=
  ⟨fun h => ByteArray.ext (Array.toList_inj.mp h), fun h => h ▸ rfl⟩

/-- Texts of strings are the same when the strings are. -/
theorem ofString_inj {s t : String} : ofString s = ofString t ↔ s = t := String.toByteArray_inj

/-- Texts of characters are the same when the characters are. -/
theorem ofChars_inj {cs ds : List Char} : ofChars cs = ofChars ds ↔ cs = ds :=
  ofString_inj.trans ⟨fun h => by simpa using congrArg String.toList h, fun h => h ▸ rfl⟩

/-- The order of texts: the first byte that differs decides, and a text comes after its
beginnings. -/
def order (a b : Text) : Ordering := compare a.bytes b.bytes

/-- Only the same texts are equal in the order. -/
theorem order_eq_eq_iff {a b : Text} : order a b = .eq ↔ a = b :=
  Std.LawfulEqOrd.compare_eq_iff_eq.trans bytes_inj

/-- The character that stands for a byte which is not part of any valid sequence. -/
def replacement : Char := '�'

/-- The payload of a continuation byte, one of the form `10xxxxxx`. -/
def continuation? (b : UInt8) : Option Nat :=
  if 0x80 ≤ b && b < 0xC0 then some (b.toNat - 0x80) else none

/-- The character encoded at the front of the bytes, with the number of bytes it takes.
Overlong forms, surrogates and codes above the last code point encode nothing. -/
def leading? : List UInt8 → Option (Char × Nat)
  | [] => none
  | a :: rest =>
    if a < 0x80 then some (Char.ofNat a.toNat, 1)
    else if a < 0xC2 then none
    else if a < 0xE0 then
      match rest with
      | b :: _ => do
        let b ← continuation? b
        some (Char.ofNat ((a.toNat - 0xC0) * 0x40 + b), 2)
      | _ => none
    else if a < 0xF0 then
      match rest with
      | b :: c :: _ => do
        let b ← continuation? b
        let c ← continuation? c
        let code := ((a.toNat - 0xE0) * 0x40 + b) * 0x40 + c
        let surrogate := 0xD800 ≤ code && code < 0xE000
        if 0x800 ≤ code && !surrogate then some (Char.ofNat code, 3) else none
      | _ => none
    else if a < 0xF5 then
      match rest with
      | b :: c :: d :: _ => do
        let b ← continuation? b
        let c ← continuation? c
        let d ← continuation? d
        let code := (((a.toNat - 0xF0) * 0x40 + b) * 0x40 + c) * 0x40 + d
        if 0x10000 ≤ code && code < 0x110000 then some (Char.ofNat code, 4) else none
      | _ => none
    else none

/-- A character with the bytes it was read from. -/
structure Segment where
  /-- The character. -/
  char : Char
  /-- The bytes it was read from. -/
  bytes : List UInt8
  deriving DecidableEq

/-- Whether the character stands for a byte that is not part of any valid sequence. -/
def Segment.isStray (s : Segment) : Bool :=
  match s.bytes with
  | [b] => 0x80 ≤ b
  | _ => false

/-- The characters of the bytes, each with the bytes it was read from. The first argument
counts the bytes that still belong to the character before. -/
def segmentsFrom : Nat → List UInt8 → List Segment
  | _, [] => []
  | skip + 1, _ :: rest => segmentsFrom skip rest
  | 0, b :: rest =>
    match leading? (b :: rest) with
    | some (c, n) => ⟨c, (b :: rest).take n⟩ :: segmentsFrom (n - 1) rest
    | none => ⟨replacement, [b]⟩ :: segmentsFrom 0 rest

/-- The characters of the bytes, each with the bytes it was read from. -/
def segments (bs : List UInt8) : List Segment := segmentsFrom 0 bs

/-- The characters of the bytes; a byte that begins no valid sequence is one replacement
character. -/
def decode (bs : List UInt8) : List Char := (segments bs).map (·.char)

/-- The characters of a text. -/
def chars (t : Text) : List Char := decode t.bytes

@[simp] theorem decode_nil : decode [] = [] := rfl

/-- An ASCII byte is a character of its own, whatever follows. -/
theorem decode_cons_ascii {b : UInt8} (h : b < 0x80) (rest : List UInt8) :
    decode (b :: rest) = Char.ofNat b.toNat :: decode rest := by
  simp only [decode, segments, segmentsFrom, leading?, if_pos h, List.map_cons, Nat.sub_self]

/-- Decoding gives at most one character per byte. -/
theorem length_segmentsFrom_le (skip : Nat) (bs : List UInt8) :
    (segmentsFrom skip bs).length ≤ bs.length := by
  induction bs generalizing skip with
  | nil => simp [segmentsFrom]
  | cons b rest ih =>
    cases skip with
    | zero =>
      simp only [segmentsFrom]
      split
      · simpa using ih _
      · simpa using ih 0
    | succ skip => exact Nat.le_succ_of_le (ih skip)

/-- A text has at most as many characters as bytes. -/
theorem length_decode_le (bs : List UInt8) : (decode bs).length ≤ bs.length := by
  simpa [decode, segments] using length_segmentsFrom_le 0 bs

/-- The line feed byte. -/
def newline : UInt8 := 10

/-- The carriage return byte. -/
def carriageReturn : UInt8 := 13

/-- Whether a character is blank: one of the Unicode white space characters. -/
def isBlank (c : Char) : Bool :=
  let n := c.toNat
  (9 ≤ n && n ≤ 13) || n == 0x20 || n == 0x85 || n == 0xA0 || n == 0x1680 ||
    (0x2000 ≤ n && n ≤ 0x200A) || n == 0x2028 || n == 0x2029 || n == 0x202F || n == 0x205F ||
    n == 0x3000

/-- The text without the blank characters at its two ends. -/
def trim (t : Text) : Text :=
  let tail := (segments t.bytes).dropWhile fun s => isBlank s.char
  let inner := (tail.reverse.dropWhile fun s => isBlank s.char).reverse
  ofBytes (inner.flatMap (·.bytes))

/-- The pieces of the bytes between separators; what follows the last one is the last piece,
even when it is empty. -/
def splitAt (separator : UInt8) : List UInt8 → List (List UInt8)
  | [] => [[]]
  | b :: rest =>
    match splitAt separator rest with
    | [] => [[b]]
    | piece :: pieces =>
      if b = separator then [] :: piece :: pieces else (b :: piece) :: pieces

/-- Bytes without a separator are one piece. -/
theorem splitAt_of_not_mem {separator : UInt8} {bs : List UInt8} (h : separator ∉ bs) :
    splitAt separator bs = [bs] := by
  induction bs with
  | nil => rfl
  | cons b rest ih =>
    obtain ⟨hb, hrest⟩ := not_or.mp (mt List.mem_cons.mpr h)
    rw [splitAt, ih hrest]
    exact if_neg (Ne.symm hb)

/-- The pieces of the bytes, each with the line feed that ends it; a last piece without one
is kept unless it is empty. -/
def splitAfterLines : List UInt8 → List (List UInt8)
  | [] => []
  | b :: rest =>
    if b = newline then [b] :: splitAfterLines rest
    else
      match splitAfterLines rest with
      | [] => [[b]]
      | piece :: pieces => (b :: piece) :: pieces

/-- Splitting after line feeds loses nothing. -/
theorem flatten_splitAfterLines (bs : List UInt8) : (splitAfterLines bs).flatten = bs := by
  induction bs with
  | nil => rfl
  | cons b rest ih =>
    simp only [splitAfterLines]
    split
    · simp [ih]
    · split <;> rename_i h <;> rw [h] at ih <;> simp_all

/-- The line without one carriage return at its end. -/
def dropReturn (line : List UInt8) : List UInt8 :=
  if line.getLast? = some carriageReturn then line.dropLast else line

/-- The longest line that can be read, with its line feed. -/
def lineLimit : Nat := 65536

/-- The lines of a text as they are read one by one, with whether a line that is too long
ended the reading early. -/
def readLines (t : Text) : List Text × Bool :=
  let pieces := splitAt newline t.bytes
  let pieces := if pieces.getLast? = some [] then pieces.dropLast else pieces
  let fit := pieces.takeWhile fun line => line.length < lineLimit
  (fit.map fun line => ofBytes (dropReturn line), fit.length < pieces.length)

/-- Whether a text ends in a line feed. -/
def endsLine (t : Text) : Bool := t.bytes.getLast? = some newline

/-- The text with a line feed at its end, added when it is missing. -/
def ensureLine (t : Text) : Text := if t.endsLine then t else t ++ ofBytes [newline]

/-- The texts put together with a separator between them. -/
def join (sep : Text) : List Text → Text
  | [] => ofBytes []
  | [t] => t
  | t :: rest => t ++ sep ++ join sep rest

end Text

end SymCalc
