import Mathlib
import SymCalc.Proofs.Nodes
import SymCalc.Proofs.Utf8
import SymCalc.Expr.Parser

/-!
# Well-formed trees

What the reader of programs builds is narrower than what the type of trees allows: names are
names, numbers are numerals, operators are made of operator characters and have a priority, lists
in parentheses have a member and matrices are full rectangles. The tokens that it reads are spelled
accordingly, from any source.
-/

namespace SymCalc

/-- A text that is read as a name: a name character that is no digit, more name characters, and
no reserved word. -/
def IsName (name : Text) : Prop :=
  ∃ c cs, name = Text.ofChars (c :: cs) ∧ isNameStart c = true ∧
    (∀ d ∈ cs, isNamePart d = true) ∧ isReserved name = false

/-- A text is a plain number: digits, perhaps with a point and further digits after them. -/
def IsNumeral (t : Text) : Prop :=
  ∃ whole part : List Char, whole ≠ [] ∧ (∀ c ∈ whole, c.isDigit = true) ∧
    (∀ c ∈ part, c.isDigit = true) ∧
    (t = Text.ofChars whole ∨ t = Text.ofChars (whole ++ '.' :: part))

/-- A text is an operator: operator characters other than the backquote. -/
structure IsSymbol (t : Text) : Prop where
  /-- It is made of characters. -/
  encoded : Text.ofChars t.chars = t
  /-- It has a character. -/
  nonempty : t.chars ≠ []
  /-- Its characters are operator characters. -/
  chars : ∀ c ∈ t.chars, (isOperatorChar c && decide (c ≠ backquote)) = true

instance (t : Text) : Decidable (IsSymbol t) :=
  decidable_of_iff (Text.ofChars t.chars = t ∧ t.chars ≠ [] ∧
      (t.chars.all fun c => isOperatorChar c && decide (c ≠ backquote)) = true)
    ⟨fun h => ⟨h.1, h.2.1, List.all_eq_true.mp h.2.2⟩,
      fun h => ⟨h.encoded, h.nonempty, List.all_eq_true.mpr h.chars⟩⟩

/-- A token that is an identifier, a number or an operator has the text of one. -/
structure Token.Sound (t : Token) : Prop where
  /-- An identifier is a name. -/
  name : t.kind = .identifier → IsName t.text
  /-- A number is a numeral. -/
  numeral : t.kind = .digit → IsNumeral t.text
  /-- An operator is the backquote or made of the other operator characters. -/
  operator : t.kind = .operator → t.text = Text.ofChars [backquote] ∨ IsSymbol t.text

/-- A token that is no identifier, number or operator is sound. -/
theorem Token.sound_of_ne {t : Token} (hname : t.kind ≠ .identifier) (hdigit : t.kind ≠ .digit)
    (hoperator : t.kind ≠ .operator) : t.Sound :=
  ⟨fun h => absurd h hname, fun h => absurd h hdigit, fun h => absurd h hoperator⟩

/-- The token that was looked at, if one was, is sound. -/
def Scanner.Sound (s : Scanner) : Prop := ∀ h ∈ s.held, h.token.Sound

/-- The digits at the front of characters are a numeral. -/
theorem numeralPrefix_isNumeral {c : Char} (hc : c.isDigit = true) (cs : List Char) :
    IsNumeral (Text.ofChars (numeralPrefix (c :: cs))) := by
  have hwhole : (c :: cs).takeWhile Char.isDigit ≠ [] := by
    rw [List.takeWhile_cons_of_pos hc]
    exact List.cons_ne_nil _ _
  have hdigits : ∀ ds : List Char, ∀ d ∈ ds.takeWhile Char.isDigit, d.isDigit = true :=
    fun ds d hd => List.mem_takeWhile_imp hd
  unfold numeralPrefix
  dsimp only
  split
  · exact ⟨_, _, hwhole, hdigits _, hdigits _, .inr rfl⟩
  · exact ⟨_, [], hwhole, hdigits _, List.forall_mem_nil _, .inl rfl⟩

/-- Operator characters other than the backquote are an operator. -/
theorem isSymbol_ofChars {cs : List Char} (hne : cs ≠ [])
    (h : ∀ c ∈ cs, (isOperatorChar c && decide (c ≠ backquote)) = true) :
    IsSymbol (Text.ofChars cs) := by
  refine ⟨by rw [Text.chars_ofChars], ?_, ?_⟩
  · rwa [Text.chars_ofChars]
  · rwa [Text.chars_ofChars]

/-- A token with the kind and the text of a lexeme is sound. -/
theorem lexeme_sound (c : Char) (cs : List Char) (pos : Position) :
    (⟨(lexeme c cs).1, Text.ofChars (lexeme c cs).2, pos⟩ : Token).Sound := by
  unfold lexeme
  by_cases hdigit : c.isDigit
  · rw [if_pos hdigit]
    exact ⟨nofun, fun _ => numeralPrefix_isNumeral hdigit cs, nofun⟩
  rw [if_neg hdigit]
  by_cases hop : isOperatorChar c
  · rw [if_pos hop]
    by_cases hquote : c = backquote
    · rw [if_pos hquote, hquote]
      exact ⟨nofun, nofun, fun _ => .inl rfl⟩
    · rw [if_neg hquote]
      refine ⟨nofun, nofun, fun _ => .inr (isSymbol_ofChars (List.cons_ne_nil _ _) ?_)⟩
      refine List.forall_mem_cons.mpr ⟨by simp [hop, hquote], fun d hd => ?_⟩
      have hpart := List.mem_takeWhile_imp hd
      exact hpart
  rw [if_neg hop]
  by_cases hpunct : isPunctuation c
  · rw [if_pos hpunct]
    exact Token.sound_of_ne nofun nofun nofun
  rw [if_neg hpunct]
  by_cases hname : isNameStart c
  · rw [if_pos hname]
    dsimp only
    cases hreserved : isReserved (Text.ofChars (c :: cs.takeWhile isNamePart)) with
    | true => exact Token.sound_of_ne nofun nofun nofun
    | false =>
      exact ⟨fun _ => ⟨c, _, rfl, hname, fun d hd => List.mem_takeWhile_imp hd, hreserved⟩,
        nofun, nofun⟩
  · rw [if_neg hname]
    exact Token.sound_of_ne nofun nofun nofun

namespace Scanner

variable {s : Scanner}

/-- Logging a token leaves the token looked at. -/
@[simp] theorem held_emit (s : Scanner) (t : Token) : (s.emit t).held = s.held := by
  unfold emit
  split <;> rfl

/-- A token read from the source is sound, and the token looked at stays. -/
theorem scan_sound (s : Scanner) : s.scan.1.token.Sound ∧ s.scan.2.held = s.held := by
  unfold scan
  dsimp only
  split
  · exact ⟨Token.sound_of_ne nofun nofun nofun, rfl⟩
  · split
    · split
      · exact ⟨Token.sound_of_ne nofun nofun nofun, held_emit _ _⟩
      · exact ⟨Token.sound_of_ne nofun nofun nofun, rfl⟩
    · split
      · exact ⟨Token.sound_of_ne nofun nofun nofun, rfl⟩
      · rename_i c cs _ _ _
        exact ⟨lexeme_sound c cs _, held_emit _ _⟩

/-- Taking a token from a sound scanner gives a sound token and leaves the scanner sound. -/
theorem next_sound (hs : s.Sound) : s.next.1.Sound ∧ s.next.2.Sound := by
  unfold next
  cases hheld : s.held with
  | some held => exact ⟨hs held hheld, fun _ h => nomatch h⟩
  | none =>
    obtain ⟨htoken, hsame⟩ := s.scan_sound
    refine ⟨htoken, fun h hh => ?_⟩
    rw [hsame, hheld] at hh
    cases hh

/-- Looking at a token of a sound scanner gives a sound token and leaves the scanner sound. -/
theorem peek_sound (hs : s.Sound) : s.peek.1.Sound ∧ s.peek.2.Sound := by
  unfold peek
  cases hheld : s.held with
  | some held => exact ⟨hs held hheld, hs⟩
  | none =>
    obtain ⟨htoken, _⟩ := s.scan_sound
    refine ⟨htoken, fun h hh => ?_⟩
    cases hh
    exact htoken

/-- Looking for the end of the line leaves a scanner sound. -/
theorem atEndOfLine_sound (hs : s.Sound) : s.atEndOfLine.2.Sound := by
  unfold atEndOfLine
  cases hheld : s.held with
  | some held => exact hs
  | none => exact fun _ h => nomatch h

end Scanner

/-- The token looked at is sound. -/
def Cursor.Sound (c : Cursor) : Prop := c.scanner.Sound

variable {M : Type} [Numeric M]

/-- The constants that stand in programs: numbers, Booleans, the imaginary unit and literal
variables. -/
inductive Constant.Written : Constant M → Prop where
  | number {m : M} {t : Text} (numeral : IsNumeral t) (value : Numeric.read? t = some m) :
      Written (.scalar (.number m))
  | boolean (b : Bool) : Written (.boolean b)
  | imaginaryUnit : Written (.scalar (.poly (.term .imaginaryUnit)))
  | named {name : Text} (isName : IsName name) (notUnit : name ≠ "i") :
      Written (.scalar (.poly (.term (.named name))))

namespace Expr

/-- What the reader of programs makes sure of at a node. -/
def WellFormedNode : Expr M → Prop
  | literal _ c => c.Written
  | reference ref => IsName ref.name
  | unary _ op _ => isUnaryOperator op.symbol = true
  | binary _ _ op _ =>
    IsSymbol op.symbol ∧ (priority? op.symbol).isSome = true ∧ op.symbol ≠ "-"
  | assign _ target _ => IsName target.name
  | tuple _ items => items ≠ []
  | matrix _ rows => rows ≠ [] ∧ ∃ width, 0 < width ∧ ∀ row ∈ rows, row.length = width
  | lambda _ params _ _ => ∀ p ∈ params, IsName p.name
  | call _ name _ => IsName name
  | ifThen _ _ _ | ifElse _ _ _ _ | ret _ _ | declare _ _ => True
  | operator _ | program _ _ => False

/-- Every node of a tree is as the reader of programs makes it. -/
abbrev WellFormed (e : Expr M) : Prop := e.Everywhere WellFormedNode

end Expr

end SymCalc
