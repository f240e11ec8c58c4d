import Mathlib
import SymCalc.Proofs.Words

/-!
# Words written out

For each kind of word, the characters that are scanned as it. Names, reserved words and numbers
must come before a character that does not go on with them; an operator must not come before
another one; punctuation and the backquote may come before anything. Main statements: one rule
for each kind of word, by which the words of a text are found from its end to its start.
-/

namespace SymCalc

/-- Characters with their words. Carriage returns, which are dropped before anything is scanned,
are not among them. -/
structure Spans (n : Bool) (cs : List Char) (ws : List Word) (m : Bool) : Prop where
  /-- No carriage return is among the characters. -/
  clean : '\r' ∉ cs
  /-- The characters have these words. -/
  scans : Scans n cs ws m

/-- What holds of the characters with codes below a bound. -/
theorem forall_char_lt {n : Nat} (P : Char → Prop) (h : ∀ k : Fin n, P (Char.ofNat k)) (c : Char)
    (hc : c.toNat < n) : P c := by
  have hp := h ⟨c.toNat, hc⟩
  rw [Char.ofNat_toNat] at hp
  exact hp

/-- A digit is an ASCII character. -/
theorem toNat_lt_of_isDigit {c : Char} (h : c.isDigit = true) : c.toNat < 128 := by
  simp only [Char.isDigit, Bool.and_eq_true, decide_eq_true_eq] at h
  have hle : c.val.toNat ≤ 57 := UInt32.le_iff_toNat_le.mp h.2
  change c.val.toNat < 128
  omega

/-- The operator characters, one by one. -/
theorem mem_of_isOperatorChar {c : Char} (h : isOperatorChar c = true) :
    c ∈ ['=', '~', '+', '-', '*', '/', '>', '<', '?', '|', '&', backquote, '!'] :=
  List.contains_iff_mem.mp h

/-- The punctuation characters, one by one. -/
theorem mem_of_isPunctuation {c : Char} (h : isPunctuation c = true) :
    c ∈ ['(', ')', '[', ']', '\x7b', '\x7d', '.', ',', ';'] :=
  List.contains_iff_mem.mp h

/-- A character starts a word if it is none of those that are skipped or open a string. -/
theorem startsWord_of_not_mem {c : Char} (h : c ∉ [' ', '\t', '\r', '\n', '#', '\x27', '\x22']) :
    StartsWord c := by
  simp only [List.mem_cons, List.not_mem_nil, or_false, not_or] at h
  obtain ⟨hblank, htab, hreturn, hnewline, hcomment, hsingle, hdouble⟩ := h
  exact ⟨by simp [isSpace, hblank, htab, hreturn], hnewline, hcomment,
    by simp [isQuote, hsingle, hdouble]⟩

/-- A digit starts a word. -/
theorem startsWord_of_isDigit {c : Char} (h : c.isDigit = true) : StartsWord c := by
  have hall : ∀ d : Char, d.toNat < 128 → d.isDigit = true →
      d ∉ [' ', '\t', '\r', '\n', '#', '\x27', '\x22'] :=
    forall_char_lt (fun d => d.isDigit = true → d ∉ _) (by decide +kernel)
  exact startsWord_of_not_mem (hall c (toNat_lt_of_isDigit h) h)

/-- An operator character starts a word, and is no digit. -/
theorem startsWord_of_isOperatorChar {c : Char} (h : isOperatorChar c = true) :
    StartsWord c ∧ c.isDigit = false := by
  have hall : ∀ d ∈ ['=', '~', '+', '-', '*', '/', '>', '<', '?', '|', '&', backquote, '!'],
      d ∉ [' ', '\t', '\r', '\n', '#', '\x27', '\x22'] ∧ d.isDigit = false := by
    simp [backquote]
  obtain ⟨hstart, hdigit⟩ := hall c (mem_of_isOperatorChar h)
  exact ⟨startsWord_of_not_mem hstart, hdigit⟩

/-- Punctuation starts a word, and is no digit and no operator. -/
theorem startsWord_of_isPunctuation {c : Char} (h : isPunctuation c = true) :
    StartsWord c ∧ c.isDigit = false ∧ isOperatorChar c = false := by
  have hall : ∀ d ∈ ['(', ')', '[', ']', '\x7b', '\x7d', '.', ',', ';'],
      d ∉ [' ', '\t', '\r', '\n', '#', '\x27', '\x22'] ∧ d.isDigit = false ∧
        isOperatorChar d = false := by
    simp [isOperatorChar]
  obtain ⟨hstart, hclass⟩ := hall c (mem_of_isPunctuation h)
  exact ⟨startsWord_of_not_mem hstart, hclass⟩

/-- What starts a name starts a word, and is no digit, no operator and no punctuation. -/
theorem startsWord_of_isNameStart {c : Char} (h : isNameStart c = true) :
    StartsWord c ∧ c.isDigit = false ∧ isOperatorChar c = false ∧ isPunctuation c = false := by
  have hne : ∀ d : Char, isNameStart d = false → c ≠ d := by
    rintro d hd rfl
    rw [h] at hd
    cases hd
  have hskipped : ∀ d ∈ [' ', '\t', '\r', '\n', '#', '\x27', '\x22'], isNameStart d = false := by
    simp [isNameStart, Text.isLetter]
  have hoperator : ∀ d ∈ ['=', '~', '+', '-', '*', '/', '>', '<', '?', '|', '&', backquote, '!'],
      isNameStart d = false := by
    simp [isNameStart, Text.isLetter, backquote]
  have hpunct : ∀ d ∈ ['(', ')', '[', ']', '\x7b', '\x7d', '.', ',', ';'],
      isNameStart d = false := by
    simp [isNameStart, Text.isLetter]
  have hdigit : ∀ d : Char, d.toNat < 128 → d.isDigit = true → isNameStart d = false :=
    forall_char_lt (fun d => d.isDigit = true → isNameStart d = false) (by decide +kernel)
  refine ⟨startsWord_of_not_mem fun hc => hne c (hskipped c hc) rfl, ?_, ?_, ?_⟩
  · refine Bool.eq_false_iff.mpr fun hc => hne c ?_ rfl
    exact hdigit c (toNat_lt_of_isDigit hc) hc
  · exact Bool.eq_false_iff.mpr fun hc => hne c (hoperator c (mem_of_isOperatorChar hc)) rfl
  · exact Bool.eq_false_iff.mpr fun hc => hne c (hpunct c (mem_of_isPunctuation hc)) rfl

/-- Characters that do not go on with an operator: they start with no operator character, the
backquote apart. -/
def Unsigned (ds : List Char) : Prop := ∀ c ∈ ds.head?, isOperatorChar c = true → c = backquote

/-- Where no word goes on no operator does. -/
theorem Breaks.unsigned {ds : List Char} (h : Breaks ds) : Unsigned ds := fun c hc => (h c hc).2.2

/-- A numeral starts with a digit and is a number as a whole. -/
theorem IsNumeral.exists_chars {t : Text} (h : IsNumeral t) :
    ∃ c cs, t = Text.ofChars (c :: cs) ∧ c.isDigit = true ∧ '\r' ∉ cs ∧
      numeralPrefix (c :: cs) = c :: cs := by
  obtain ⟨whole, part, hne, hwhole, hpart, htext⟩ := h
  obtain ⟨c, cs, rfl⟩ := List.exists_cons_of_ne_nil hne
  obtain ⟨hc, hcs⟩ := List.forall_mem_cons.mp hwhole
  have htake := List.takeWhile_eq_self_iff.mpr hwhole
  have hdrop := List.dropWhile_eq_nil_iff.mpr hwhole
  have hreturn : ∀ ds : List Char, (∀ d ∈ ds, d.isDigit = true) → '\r' ∉ ds :=
    fun ds hds hmem => absurd (hds _ hmem) (by decide)
  rcases htext with rfl | rfl
  · refine ⟨c, cs, rfl, hc, hreturn cs hcs, ?_⟩
    simp only [numeralPrefix, htake, hdrop]
  · have hpoint : ∀ d ∈ ('.' :: part).head?, d.isDigit = false := by
      rintro d ⟨⟩
      decide
    refine ⟨c, cs ++ '.' :: part, rfl, hc, ?_, ?_⟩
    · simp only [List.mem_append, List.mem_cons, not_or]
      exact ⟨hreturn cs hcs, by decide, hreturn part hpart⟩
    · rw [← List.cons_append]
      simp only [numeralPrefix, takeWhile_append_of_head hpoint, dropWhile_append_of_head hpoint,
        htake, hdrop, List.nil_append, List.takeWhile_eq_self_iff.mpr hpart]

/-- A text is a numeral if it is scanned as a number as a whole. -/
theorem isNumeral_iff {t : Text} :
    (Text.ofChars t.chars = t ∧ t.chars.head?.any Char.isDigit = true ∧
      numeralPrefix t.chars = t.chars) ↔ IsNumeral t := by
  constructor
  · rintro ⟨hencoded, hhead, hself⟩
    rw [← hencoded]
    generalize t.chars = cs at hhead hself
    cases cs with
    | nil => cases hhead
    | cons c cs =>
      rw [← hself]
      exact numeralPrefix_isNumeral hhead cs
  · intro h
    obtain ⟨c, cs, rfl, hc, -, hself⟩ := h.exists_chars
    rw [Text.chars_ofChars]
    exact ⟨rfl, hc, hself⟩

instance (t : Text) : Decidable (IsNumeral t) := decidable_of_iff _ isNumeral_iff

/-- A numeral has no characters but digits and points. -/
theorem IsNumeral.isDigit_or_point {t : Text} (h : IsNumeral t) :
    ∀ c ∈ t.chars, c.isDigit = true ∨ c = '.' := by
  obtain ⟨whole, part, -, hwhole, hpart, rfl | rfl⟩ := h
  · rw [Text.chars_ofChars]
    exact fun c hc => .inl (hwhole c hc)
  · rw [Text.chars_ofChars]
    intro c hc
    rcases List.mem_append.mp hc with hc | hc
    · exact .inl (hwhole c hc)
    · rcases List.mem_cons.mp hc with hc | hc
      · exact .inr hc
      · exact .inl (hpart c hc)

/-- A prefix operator is an operator. -/
theorem isSymbol_of_isUnaryOperator {t : Text} (h : isUnaryOperator t = true) : IsSymbol t := by
  have hall : (unaryOperators.all fun t => decide (IsSymbol t)) = true := by decide
  obtain ⟨u, hu, heq⟩ := List.any_eq_true.mp h
  rw [← of_decide_eq_true heq]
  exact of_decide_eq_true (List.all_eq_true.mp hall u hu)

namespace Spans

variable {n m k : Bool} {c : Char} {cs ds : List Char} {ws vs : List Word}

/-- The end of the text. -/
theorem nil : Spans false [] [] false := ⟨List.not_mem_nil, .nil false⟩

/-- A blank. -/
theorem blank (rest : Spans n ds vs k) : Spans n (' ' :: ds) vs k :=
  ⟨List.not_mem_cons_of_ne_of_not_mem (by decide) rest.clean, .space (by decide) rest.scans⟩

/-- The end of a line. -/
theorem newline (rest : Spans true ds vs k) : Spans n ('\n' :: ds) vs k :=
  ⟨List.not_mem_cons_of_ne_of_not_mem (by decide) rest.clean, .newline rest.scans⟩

/-- Characters are put together where no word goes on. -/
theorem append (h : Spans n cs ws m) (hds : Breaks ds) (rest : Spans m ds vs k) :
    Spans n (cs ++ ds) (ws ++ vs) k := by
  refine ⟨fun hmem => ?_, h.scans.append hds rest.scans⟩
  rcases List.mem_append.mp hmem with hmem | hmem
  · exact h.clean hmem
  · exact rest.clean hmem

/-- A word, where the scanner takes it. -/
theorem word {kind : Kind} (cs : List Char) (hstart : StartsWord c) (hclean : '\r' ∉ cs)
    (hlex : lexeme c (cs ++ ds) = (kind, c :: cs)) (hkind : kind ≠ .error)
    (rest : Spans false ds vs k) :
    Spans n (c :: (cs ++ ds)) (⟨kind, Text.ofChars (c :: cs), n⟩ :: vs) k := by
  have hreturn : '\r' ≠ c := by
    rintro rfl
    exact absurd hstart.space (by decide)
  refine ⟨?_, .word hstart hlex hkind ?_⟩
  · simp only [List.mem_cons, List.mem_append, not_or]
    exact ⟨hreturn, hclean, rest.clean⟩
  · rw [← List.cons_append, List.drop_left]
    exact rest.scans

/-- Punctuation, whatever follows. -/
theorem punct (hc : isPunctuation c = true) (rest : Spans false ds vs k) :
    Spans n (c :: ds) (⟨.punctuation, Text.ofChars [c], n⟩ :: vs) k := by
  obtain ⟨hstart, hdigit, hoperator⟩ := startsWord_of_isPunctuation hc
  refine word [] hstart List.not_mem_nil ?_ nofun rest
  simp [lexeme, hdigit, hoperator, hc]

/-- The backquote, whatever follows. -/
theorem quote (rest : Spans false ds vs k) :
    Spans n (backquote :: ds) (⟨.operator, Text.ofChars [backquote], n⟩ :: vs) k := by
  refine word [] (startsWord_of_not_mem (by decide)) List.not_mem_nil ?_ nofun rest
  rfl

/-- An operator before no further operator. -/
theorem operator (hne : cs ≠ [])
    (hcs : ∀ c ∈ cs, (isOperatorChar c && decide (c ≠ backquote)) = true) (hds : Unsigned ds)
    (rest : Spans false ds vs k) :
    Spans n (cs ++ ds) (⟨.operator, Text.ofChars cs, n⟩ :: vs) k := by
  cases cs with
  | nil => exact absurd rfl hne
  | cons c cs =>
    obtain ⟨hc, hcs⟩ := List.forall_mem_cons.mp hcs
    obtain ⟨hop, hquote⟩ := Bool.and_eq_true_iff.mp hc
    obtain ⟨hstart, hdigit⟩ := startsWord_of_isOperatorChar hop
    have hclean : '\r' ∉ cs := fun hmem => absurd (hcs _ hmem) (by decide)
    have hends : ∀ d ∈ ds.head?, (isOperatorChar d && decide (d ≠ backquote)) = false := by
      intro d hd
      by_cases hop : isOperatorChar d = true
      · simp [hds d hd hop]
      · simp [hop]
    have htaken :
        (cs ++ ds).takeWhile (fun d => isOperatorChar d && decide (d ≠ backquote)) = cs := by
      rw [takeWhile_append_of_head hends, List.takeWhile_eq_self_iff]
      exact hcs
    refine word cs hstart hclean ?_ nofun rest
    simp only [lexeme, hdigit, hop, of_decide_eq_true hquote, htaken, if_true, if_false,
      Bool.false_eq_true]

/-- A word made of letters, digits and underscores, before a break. -/
theorem nameLike (hc : isNameStart c = true) (hcs : ∀ d ∈ cs, isNamePart d = true)
    (hds : Breaks ds) (rest : Spans false ds vs k) :
    Spans n (c :: (cs ++ ds))
      (⟨if isReserved (Text.ofChars (c :: cs)) then .keyword else .identifier,
        Text.ofChars (c :: cs), n⟩ :: vs) k := by
  obtain ⟨hstart, hdigit, hoperator, hpunct⟩ := startsWord_of_isNameStart hc
  have hclean : '\r' ∉ cs := fun hmem => absurd (hcs _ hmem) (by decide)
  have htaken : cs.takeWhile isNamePart = cs := List.takeWhile_eq_self_iff.mpr hcs
  refine word cs hstart hclean ?_ (by split <;> exact nofun) rest
  rw [lexeme_append hds]
  simp only [lexeme, hdigit, hoperator, hpunct, hc, htaken, if_true, if_false, Bool.false_eq_true]

/-- A name, before a break. -/
theorem name {name : Text} (h : IsName name) (hds : Breaks ds) (rest : Spans false ds vs k) :
    Spans n (name.chars ++ ds) (⟨.identifier, name, n⟩ :: vs) k := by
  obtain ⟨c, cs, rfl, hc, hcs, hreserved⟩ := h
  have hspans := nameLike (n := n) hc hcs hds rest
  rw [hreserved] at hspans
  rw [Text.chars_ofChars]
  exact hspans

/-- A reserved word, before a break. -/
theorem keyword (cs : List Char) (h : isReserved (Text.ofChars cs) = true) (hds : Breaks ds)
    (rest : Spans false ds vs k) :
    Spans n (cs ++ ds) (⟨.keyword, Text.ofChars cs, n⟩ :: vs) k := by
  have hletters : (keywords.all fun t =>
      t.chars.head?.any isNameStart && t.chars.all isNamePart) = true := by decide
  obtain ⟨t, ht, heq⟩ := List.any_eq_true.mp h
  have hword := List.all_eq_true.mp hletters t ht
  rw [of_decide_eq_true heq, Text.chars_ofChars] at hword
  cases cs with
  | nil => cases hword
  | cons c cs =>
    obtain ⟨hc, hcs⟩ := Bool.and_eq_true_iff.mp hword
    have hspans := nameLike (n := n) hc
      (List.forall_mem_cons.mp (List.all_eq_true.mp hcs)).2 hds rest
    rw [h] at hspans
    exact hspans

/-- A number, before a break. -/
theorem numeral {t : Text} (h : IsNumeral t) (hds : Breaks ds) (rest : Spans false ds vs k) :
    Spans n (t.chars ++ ds) (⟨.digit, t, n⟩ :: vs) k := by
  obtain ⟨c, cs, rfl, hc, hclean, hself⟩ := h.exists_chars
  rw [Text.chars_ofChars]
  refine word cs (startsWord_of_isDigit hc) hclean ?_ nofun rest
  rw [lexeme_append hds, lexeme, if_pos hc, hself]

/-- An operator with its text, before no further operator. -/
theorem symbol {symbol : Text} (h : IsSymbol symbol) (hds : Unsigned ds)
    (rest : Spans false ds vs k) :
    Spans n (symbol.chars ++ ds) (⟨.operator, symbol, n⟩ :: vs) k := by
  have hspans := operator (n := n) h.nonempty h.chars hds rest
  rw [h.encoded] at hspans
  exact hspans

end Spans

end SymCalc
