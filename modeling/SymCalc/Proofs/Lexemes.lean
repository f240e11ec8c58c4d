import Mathlib
import SymCalc.Proofs.SourceLines
import SymCalc.Proofs.Spelling

/-!
# Gaps and spans

A text consists of gaps, which are blanks, newlines and comments, and of spans, for which tokens
stand. Both are described here by the characters alone, with the words of each kind given by their
spelling. Main statements: what is skipped is a gap, and the token at the next character stands for
a span, which no character behind it goes on with.
-/

namespace SymCalc

namespace Position

/-- The position behind some characters: the line counts the line feeds among them, and the column
the characters since the last line feed. -/
def behind (before : List Char) : Position :=
  ⟨before.count '\n' + 1, (before.reverse.takeWhile (· ≠ '\n')).length + 1⟩

/-- Passing further characters. -/
theorem advanceAll_behind (before cs : List Char) :
    (behind before).advanceAll cs = behind (before ++ cs) := by
  have hone (before : List Char) (c : Char) :
      (behind before).advance c = behind (before ++ [c]) := by
    by_cases hc : c = '\n'
    · simp [behind, advance, hc]
    · simp [behind, advance, hc]
  induction cs generalizing before with
  | nil => rw [advanceAll_nil, List.append_nil]
  | cons c cs ih => rw [advanceAll_cons, hone, ih, List.append_assoc, List.singleton_append]

end Position

/-- Blanks, newlines and comments before the given characters. -/
inductive Gap (after : List Char) : List Char → Prop where
  | nil : Gap after []
  | blank {c : Char} {gap : List Char} (blank : isSpace c = true ∨ c = '\n')
      (rest : Gap after gap) : Gap after (c :: gap)
  /-- A comment goes to the end of the line. -/
  | comment {inside gap : List Char} (line : '\n' ∉ inside) (rest : Gap after gap) :
      Gap after ('#' :: inside ++ '\n' :: gap)
  /-- A comment on the last line goes to the end of the text. -/
  | last {inside : List Char} (line : '\n' ∉ inside) (ends : after = []) :
      Gap after ('#' :: inside)

/-- What is skipped is a gap, and it is told whether a newline is among it. Inside a comment, what
is skipped goes on with the gap that the comment has begun. -/
theorem skipChars_gap (comment : Bool) (cs : List Char) (pos : Position) (newline : Bool) :
    ∃ taken, cs = taken ++ (skipChars comment cs pos newline).chars ∧
      (skipChars comment cs pos newline).pos = pos.advanceAll taken ∧
      (skipChars comment cs pos newline).newline = (newline || decide ('\n' ∈ taken)) ∧
      (comment = false → Gap (skipChars comment cs pos newline).chars taken) ∧
      (comment = true → ∀ inside, '\n' ∉ inside →
        Gap (skipChars comment cs pos newline).chars ('#' :: inside ++ taken)) := by
  have hcons (newline : Bool) (c : Char) (taken : List Char) :
      (newline || decide (c = '\n') || decide ('\n' ∈ taken)) =
        (newline || decide ('\n' ∈ c :: taken)) := by
    rw [Bool.or_assoc, ← Bool.decide_or]
    simp only [List.mem_cons, eq_comm]
  fun_induction skipChars comment cs pos newline with
  | case1 =>
    refine ⟨[], rfl, rfl, by simp, fun _ => .nil, fun _ inside hinside => ?_⟩
    rw [List.append_nil]
    exact .last hinside rfl
  | case2 c cs pos newline ih =>
    obtain ⟨taken, hcs, hpos, hnewline, hends, hgoes⟩ := ih
    refine ⟨c :: taken, by rw [List.cons_append, ← hcs], hpos,
      hnewline.trans (hcons newline c taken), by simp, fun _ inside hinside => ?_⟩
    by_cases hc : c = '\n'
    · rw [hc] at hends ⊢
      exact .comment hinside (hends (by simp))
    · have hnext := hgoes (by simpa using hc) (inside ++ [c]) (by simp [hinside, Ne.symm hc])
      simpa using hnext
  | case3 cs pos newline ih =>
    obtain ⟨taken, hcs, hpos, hnewline, -, hgoes⟩ := ih
    exact ⟨'#' :: taken, by rw [List.cons_append, ← hcs], hpos, by simp [hnewline],
      fun _ => hgoes rfl [] List.not_mem_nil, by simp⟩
  | case4 c cs pos newline _ hblank ih =>
    obtain ⟨taken, hcs, hpos, hnewline, hends, -⟩ := ih
    exact ⟨c :: taken, by rw [List.cons_append, ← hcs], hpos,
      hnewline.trans (hcons newline c taken), fun _ => .blank (by simpa using hblank) (hends rfl),
      by simp⟩
  | case5 => exact ⟨[], rfl, rfl, by simp, fun _ => .nil, by simp⟩

/-- The words of each kind. -/
inductive IsWord : Kind → List Char → Prop where
  | whole {c : Char} {digits : List Char} (first : c.isDigit = true)
      (all : ∀ d ∈ digits, d.isDigit = true) : IsWord .digit (c :: digits)
  /-- There need not be a digit behind the point. -/
  | decimal {c : Char} {whole part : List Char} (first : c.isDigit = true)
      (before : ∀ d ∈ whole, d.isDigit = true) (behind : ∀ d ∈ part, d.isDigit = true) :
      IsWord .digit (c :: whole ++ '.' :: part)
  | mark : IsWord .operator [backquote]
  | operator {c : Char} {cs : List Char}
      (all : ∀ d ∈ c :: cs, isOperatorChar d = true ∧ d ≠ backquote) : IsWord .operator (c :: cs)
  | punctuation {c : Char} (only : isPunctuation c = true) : IsWord .punctuation [c]
  | keyword {c : Char} {cs : List Char} (first : isNameStart c = true)
      (parts : ∀ d ∈ cs, isNamePart d = true)
      (reserved : isReserved (Text.ofChars (c :: cs)) = true) : IsWord .keyword (c :: cs)
  | identifier {c : Char} {cs : List Char} (first : isNameStart c = true)
      (parts : ∀ d ∈ cs, isNamePart d = true)
      (free : isReserved (Text.ofChars (c :: cs)) = false) : IsWord .identifier (c :: cs)

/-- A word does not go on with the character behind it: the two together are no word. -/
def Ended (word rest : List Char) : Prop := ∀ d ∈ rest.head?, ∀ kind, ¬IsWord kind (word ++ [d])

/-- Whether a character may stand in a word that starts with another one. -/
def goesOn (c d : Char) : Bool :=
  if c.isDigit then d.isDigit || d = '.'
  else if isOperatorChar c then c ≠ backquote && isOperatorChar d && d ≠ backquote
  else if isPunctuation c then false
  else isNamePart d

namespace IsWord

variable {kind : Kind} {c : Char} {cs : List Char}

/-- The kinds of words. -/
theorem kind_mem {word : List Char} (h : IsWord kind word) :
    kind ∈ [Kind.digit, .identifier, .keyword, .operator, .punctuation] := by
  cases h <;> decide

/-- No word is empty. -/
theorem ne_nil {word : List Char} (h : IsWord kind word) : word ≠ [] := by
  cases h <;> exact List.cons_ne_nil _ _

/-- The first character tells which characters may follow. -/
theorem goesOn_first (h : IsWord kind (c :: cs)) : ∀ d ∈ cs, goesOn c d = true := by
  have hname (hc : isNameStart c = true) (d : Char) : goesOn c d = isNamePart d := by
    obtain ⟨-, hdigit, hoperator, hpunct⟩ := startsWord_of_isNameStart hc
    simp [goesOn, hdigit, hoperator, hpunct]
  cases h with
  | whole hc hdigits =>
    intro d hd
    simp [goesOn, hc, hdigits d hd]
  | decimal hc hwhole hpart =>
    intro d hd
    rcases List.mem_append.mp hd with hd | hd
    · simp [goesOn, hc, hwhole d hd]
    rcases List.mem_cons.mp hd with rfl | hd
    · simp [goesOn, hc]
    · simp [goesOn, hc, hpart d hd]
  | mark => exact List.forall_mem_nil _
  | operator hall =>
    obtain ⟨⟨hc, hne⟩, hcs⟩ := List.forall_mem_cons.mp hall
    intro d hd
    simp [goesOn, (startsWord_of_isOperatorChar hc).2, hc, hne, hcs d hd]
  | punctuation => exact List.forall_mem_nil _
  | keyword hc hparts => exact fun d hd => (hname hc d).trans (hparts d hd)
  | identifier hc hparts => exact fun d hd => (hname hc d).trans (hparts d hd)

/-- The first character of a word is a digit, an operator or punctuation, or starts a name. -/
theorem first (h : IsWord kind (c :: cs)) :
    c.isDigit = true ∨ isOperatorChar c = true ∨ isPunctuation c = true ∨ isNameStart c = true := by
  cases h with
  | whole hc | decimal hc => exact .inl hc
  | mark => exact .inr (.inl (by decide))
  | operator hall => exact .inr (.inl (hall c List.mem_cons_self).1)
  | punctuation hc => exact .inr (.inr (.inl hc))
  | keyword hc | identifier hc => exact .inr (.inr (.inr hc))

/-- A number has one point at most. -/
theorem count_point (h : IsWord kind (c :: cs)) (hc : c.isDigit = true) : cs.count '.' ≤ 1 := by
  have hnone (digits : List Char) (hdigits : ∀ d ∈ digits, d.isDigit = true) :
      digits.count '.' = 0 :=
    List.count_eq_zero.mpr fun hmem => absurd (hdigits '.' hmem) (by decide)
  cases h with
  | whole _ hdigits => rw [hnone _ hdigits]; exact Nat.zero_le 1
  | decimal _ hwhole hpart => simp [hnone _ hwhole, hnone _ hpart]
  | mark | punctuation => exact Nat.zero_le 1
  | operator hall =>
    have hoperator := startsWord_of_isOperatorChar (hall c List.mem_cons_self).1
    rw [hoperator.2] at hc
    cases hc
  | keyword hname | identifier hname =>
    rw [(startsWord_of_isNameStart hname).2.1] at hc
    cases hc

/-- No word has a backquote beside other characters. -/
theorem backquote_alone {word : List Char} (h : IsWord kind word) (hmem : backquote ∈ word) :
    word = [backquote] := by
  have hafter (c : Char) : goesOn c backquote = false := by
    have hpart : isNamePart backquote = false := by decide +kernel
    have hdigit : backquote.isDigit = false := by decide
    have hpoint : backquote ≠ '.' := by decide
    simp [goesOn, hpart, hdigit, hpoint]
  have hbefore (d : Char) : goesOn backquote d = false := by
    simp [goesOn, isOperatorChar, backquote]
  obtain ⟨c, cs, rfl⟩ := List.exists_cons_of_ne_nil (List.ne_nil_of_mem hmem)
  have hgoes := h.goesOn_first
  rcases List.mem_cons.mp hmem with rfl | hmem
  · have hcs : cs = [] := List.eq_nil_iff_forall_not_mem.mpr fun d hd => by
      simpa [hbefore] using hgoes d hd
    rw [hcs]
  · simpa [hafter] using hgoes _ hmem

end IsWord

section Lexemes

variable {c : Char} {word rest : List Char}

/-- A word ends before a character that may not stand in it. -/
theorem ended_of_goesOn (h : ∀ d ∈ rest.head?, goesOn c d = false) : Ended (c :: word) rest := by
  intro d hd kind hword
  have hgoes := hword.goesOn_first d (by simp)
  rw [h d hd] at hgoes
  cases hgoes

/-- What comes behind a run does not go on with it. -/
theorem head?_dropWhile {p : Char → Bool} (cs : List Char) :
    ∀ d ∈ (cs.dropWhile p).head?, p d = false := by
  intro d hd
  have hnot := List.head?_dropWhile_not p cs
  rw [hd] at hnot
  exact hnot

/-- The digits of a number are followed by no further digit, and by a point only if there is one
among them. -/
theorem numeralPrefix_isWord (hc : c.isDigit = true) (cs : List Char) :
    ∃ rest, c :: cs = numeralPrefix (c :: cs) ++ rest ∧
      IsWord .digit (numeralPrefix (c :: cs)) ∧ Ended (numeralPrefix (c :: cs)) rest := by
  have hdigits (ds : List Char) : ∀ d ∈ ds.takeWhile Char.isDigit, d.isDigit = true :=
    fun _ hd => List.mem_takeWhile_imp hd
  have hsplit (ds : List Char) := List.takeWhile_append_dropWhile (p := Char.isDigit) (l := ds)
  unfold numeralPrefix
  dsimp only
  rw [List.takeWhile_cons_of_pos hc, List.dropWhile_cons_of_pos hc]
  split
  · rename_i after hafter
    refine ⟨after.dropWhile Char.isDigit, ?_, .decimal hc (hdigits cs) (hdigits after), ?_⟩
    · rw [List.append_assoc, List.cons_append, List.cons_append, hsplit after, ← hafter, hsplit cs]
    · intro d hd kind hword
      have hdigit := head?_dropWhile after d hd
      have hgoes := hword.goesOn_first d (by simp)
      have hcount : (cs.takeWhile Char.isDigit ++ '.' :: after.takeWhile Char.isDigit ++
          [d]).count '.' ≤ 1 := hword.count_point hc
      obtain rfl : d = '.' := by simpa [goesOn, hc, hdigit] using hgoes
      simp only [List.count_append, List.count_cons_self] at hcount
      omega
  · rename_i hpoint
    refine ⟨cs.dropWhile Char.isDigit, ?_, .whole hc (hdigits cs), ended_of_goesOn ?_⟩
    · rw [List.cons_append, hsplit cs]
    · intro d hd
      have hdigit := head?_dropWhile cs d hd
      have hne : d ≠ '.' := by
        rintro rfl
        obtain ⟨after, hafter⟩ := List.head?_eq_some_iff.mp hd
        exact hpoint after hafter
      simp [goesOn, hc, hdigit, hne]

/-- A lexeme is a word that ends where the lexeme ends, or a character that starts no word. -/
theorem lexeme_isWord (c : Char) (cs : List Char) :
    ∃ rest, c :: cs = (lexeme c cs).2 ++ rest ∧
      (IsWord (lexeme c cs).1 (lexeme c cs).2 ∧ Ended (lexeme c cs).2 rest ∨
        lexeme c cs = (.error, [c]) ∧ ∀ kind, ¬IsWord kind [c]) := by
  have hsplit (p : Char → Bool) : c :: cs = c :: cs.takeWhile p ++ cs.dropWhile p := by
    rw [List.cons_append, List.takeWhile_append_dropWhile]
  unfold lexeme
  by_cases hdigit : c.isDigit = true
  · rw [if_pos hdigit]
    obtain ⟨rest, hrest, hword, hended⟩ := numeralPrefix_isWord hdigit cs
    exact ⟨rest, hrest, .inl ⟨hword, hended⟩⟩
  by_cases hop : isOperatorChar c = true
  · by_cases hmark : c = backquote
    · rw [if_neg hdigit, if_pos hop, if_pos hmark]
      subst hmark
      refine ⟨cs, rfl, .inl ⟨.mark, ended_of_goesOn fun d _ => ?_⟩⟩
      simp [goesOn, hdigit, hop]
    · rw [if_neg hdigit, if_pos hop, if_neg hmark]
      refine ⟨_, hsplit _, .inl ⟨.operator ?_, ended_of_goesOn fun d hd => ?_⟩⟩
      · refine List.forall_mem_cons.mpr ⟨⟨hop, hmark⟩, fun d hd => ?_⟩
        simpa using List.mem_takeWhile_imp hd
      · have hnot := head?_dropWhile cs d hd
        simpa [goesOn, hdigit, hop, hmark] using hnot
  by_cases hpunct : isPunctuation c = true
  · rw [if_neg hdigit, if_neg hop, if_pos hpunct]
    refine ⟨cs, rfl, .inl ⟨.punctuation hpunct, ended_of_goesOn fun d _ => ?_⟩⟩
    simp [goesOn, hdigit, hop, hpunct]
  by_cases hname : isNameStart c = true
  · rw [if_neg hdigit, if_neg hop, if_neg hpunct, if_pos hname]
    have hparts : ∀ d ∈ cs.takeWhile isNamePart, isNamePart d = true :=
      fun d hd => List.mem_takeWhile_imp hd
    have hended : Ended (c :: cs.takeWhile isNamePart) (cs.dropWhile isNamePart) := by
      refine ended_of_goesOn fun d hd => ?_
      simpa [goesOn, hdigit, hop, hpunct] using head?_dropWhile cs d hd
    refine ⟨_, hsplit isNamePart, .inl ?_⟩
    dsimp only
    cases hreserved : isReserved (Text.ofChars (c :: cs.takeWhile isNamePart)) with
    | true => exact ⟨.keyword hname hparts hreserved, hended⟩
    | false => exact ⟨.identifier hname hparts hreserved, hended⟩
  · rw [if_neg hdigit, if_neg hop, if_neg hpunct, if_neg hname]
    refine ⟨cs, rfl, .inr ⟨rfl, fun kind hword => ?_⟩⟩
    simpa [hdigit, hop, hpunct, hname] using hword.first

end Lexemes

/-- The characters that a token of a kind and with a text stands for, if the given ones follow. -/
inductive Span (rest : List Char) : Kind → Text → List Char → Prop where
  /-- A word is as long as it can be, and the backquote is a word of its own. -/
  | word {kind : Kind} {word : List Char} (spelled : IsWord kind word) (maximal : Ended word rest)
      (alone : backquote ∈ word → word = [backquote]) : Span rest kind (Text.ofChars word) word
  /-- A string stands with its quotes, and its text is without them. -/
  | string {quote : Char} {inside : List Char} (opens : isQuote quote = true)
      (closes : quote ∉ inside) :
      Span rest .string (Text.ofChars inside) (quote :: inside ++ [quote])
  /-- A string that is not closed goes to the end of the text. -/
  | unclosed {quote : Char} {inside : List Char} (opens : isQuote quote = true)
      (closes : quote ∉ inside) (ends : rest = []) :
      Span rest .error "unterminated string" (quote :: inside)
  /-- A character that is not skipped and starts neither a string nor a word. -/
  | stray {c : Char} (starts : StartsWord c) (unknown : ∀ kind, ¬IsWord kind [c]) :
      Span rest .error ("unrecognized character: " ++ Text.codePoint c) [c]

/-- No token stands for nothing. -/
theorem Span.ne_nil {rest span : List Char} {kind : Kind} {text : Text}
    (h : Span rest kind text span) : span ≠ [] := by
  cases h with
  | word spelled => exact spelled.ne_nil
  | string | unclosed | stray => exact List.cons_ne_nil _ _

/-- No span is the end of the text. -/
theorem Span.kind_ne_eof {rest span : List Char} {kind : Kind} {text : Text}
    (h : Span rest kind text span) : kind ≠ .eof := by
  cases h with
  | word spelled =>
    rintro rfl
    exact absurd spelled.kind_mem (by decide)
  | string | unclosed | stray => decide

namespace Source

variable {s t : Source}

/-- What a token says does not depend on whether a newline stands before it. -/
theorem lex_newline (s : Source) (newline seen : Bool) :
    s.lex newline = (⟨(s.lex seen).1.token, newline⟩, (s.lex seen).2) := by
  unfold lex
  cases s.chars with
  | nil => rfl
  | cons c cs =>
    by_cases hquote : isQuote c = true
    · simp only [hquote, if_true]
      obtain ⟨inside, t⟩ := (s.advance [c] cs).quoted c
      cases inside <;> rfl
    · simp only [hquote, Bool.false_eq_true, if_false]
      split <;> rfl

/-- A source with all characters at hand gives up the first of them. -/
structure Passes (s : Source) (taken : List Char) (t : Source) : Prop where
  /-- All characters are still at hand. -/
  feed : t.feed = none
  /-- What is given up stood before what is left. -/
  chars : s.chars = taken ++ t.chars
  /-- The position has moved over what is given up. -/
  pos : t.pos = s.pos.advanceAll taken

/-- The token at a character that is not skipped stands for a span. -/
theorem lex_span (hfeed : s.feed = none) (newline : Bool) (hne : s.chars ≠ [])
    (hhead : ∀ c ∈ s.chars.head?, c ≠ '#' ∧ isSpace c = false ∧ c ≠ '\n') :
    ∃ kind text span, (s.lex newline).1.token = ⟨kind, text, s.pos⟩ ∧
      Span (s.lex newline).2.chars kind text span ∧ s.Passes span (s.lex newline).2 := by
  obtain ⟨c, cs, hchars⟩ := List.exists_cons_of_ne_nil hne
  obtain ⟨hcomment, hspace, hnewline⟩ := hhead c (by rw [hchars]; rfl)
  unfold lex
  rw [hchars]
  dsimp only
  by_cases hquote : isQuote c = true
  · have hafter : (s.advance [c] cs).chars = cs := rfl
    have hsplit := List.takeWhile_append_dropWhile (p := (· ≠ c)) (l := cs)
    have hinside : c ∉ cs.takeWhile (· ≠ c) := fun hmem => by
      simpa using List.mem_takeWhile_imp hmem
    simp only [hquote, if_true, quoted,
      quotedRounds_of_feed_none (s := s.advance [c] cs) hfeed, hafter]
    cases hclose : cs.dropWhile (· ≠ c) with
    | nil =>
      rw [hclose, List.append_nil] at hsplit
      rw [hsplit] at hinside ⊢
      exact ⟨_, _, _, rfl, .unclosed hquote hinside rfl, hfeed,
        hchars.trans (List.append_nil _).symm, rfl⟩
    | cons d rest =>
      have hd := head?_dropWhile cs d (by rw [hclose]; rfl)
      obtain rfl : d = c := not_not.mp (of_decide_eq_false hd)
      rw [hclose] at hsplit
      refine ⟨_, _, _, rfl, .string hquote hinside, hfeed, ?_, rfl⟩
      rw [hchars, List.append_assoc, List.cons_append]
      exact congrArg (d :: ·) hsplit.symm
  · rw [if_neg hquote]
    obtain ⟨rest, hrest, hlexeme⟩ := lexeme_isWord c cs
    have hdrop : (c :: cs).drop (lexeme c cs).2.length = rest := by rw [hrest, List.drop_left]
    rw [hdrop]
    rcases hlexeme with ⟨hword, hended⟩ | ⟨hstray, hunknown⟩
    · have hkind : (lexeme c cs).1 ≠ .error := by
        intro herror
        rw [herror] at hword
        exact absurd hword.kind_mem (by decide)
      rw [if_neg hkind]
      exact ⟨_, _, _, rfl, .word hword hended hword.backquote_alone, hfeed, hchars.trans hrest, rfl⟩
    · rw [hstray] at hrest ⊢
      rw [if_pos rfl]
      have hstart : StartsWord c := ⟨hspace, hnewline, hcomment, Bool.eq_false_iff.mpr hquote⟩
      exact ⟨_, _, _, rfl, .stray hstart hunknown, hfeed, hchars.trans hrest, rfl⟩

/-- The next token comes behind a gap. It is the end of the text, or it stands for a span. -/
theorem scan_span (hfeed : s.feed = none) :
    ∃ gap, s.scan.1.newline = decide ('\n' ∈ gap) ∧
      (s.scan.1.token = ⟨.eof, "EOF", s.pos.advanceAll gap⟩ ∧ Gap [] gap ∧
          s.Passes gap s.scan.2 ∧ s.scan.2.chars = [] ∨
        ∃ kind text span, s.scan.1.token = ⟨kind, text, s.pos.advanceAll gap⟩ ∧
          Gap (span ++ s.scan.2.chars) gap ∧ Span s.scan.2.chars kind text span ∧
          s.Passes (gap ++ span) s.scan.2) := by
  obtain ⟨gap, hchars, hpos, hnewline, hgap, -⟩ := skipChars_gap false s.chars s.pos false
  have hhead := skipChars_head false s.chars s.pos false
  rw [scan, Scanner.skip_of_feed_none hfeed]
  generalize skipChars false s.chars s.pos false = skipped at hchars hpos hnewline hgap hhead
  obtain ⟨left, pos, newline⟩ := skipped
  dsimp only at hchars hpos hnewline hgap hhead ⊢
  subst hpos
  refine ⟨gap, ?_, ?_⟩
  · rw [lex_newline _ _ false, hnewline, Bool.false_or]
  · by_cases hleft : left = []
    · subst hleft
      exact .inl ⟨rfl, hgap rfl, ⟨hfeed, hchars, rfl⟩, rfl⟩
    · obtain ⟨kind, text, span, htoken, hspan, hpasses⟩ :=
        lex_span (s := ⟨left, s.pos.advanceAll gap, s.feed⟩) hfeed newline hleft hhead
      refine .inr ⟨kind, text, span, htoken, ?_, hspan, hpasses.feed, ?_, ?_⟩
      · rw [← hpasses.chars]
        exact hgap rfl
      · rw [List.append_assoc, ← hpasses.chars]
        exact hchars
      · rw [Position.advanceAll_append]
        exact hpasses.pos

end Source

end SymCalc
