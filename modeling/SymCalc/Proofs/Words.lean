import Mathlib
import SymCalc.Proofs.Utf8
import SymCalc.Proofs.WellFormed

/-!
# Words

A word is a token without its position: what it is, how it is written, and whether it is the
first on its line. Here the words of a run of characters are a relation that can be built up
piece by piece, and a cursor over a text is described by the words that it has still to read.
Main statements: runs of characters may be put together where no word is continued across, and
taking or looking at a token is taking or looking at a word.
-/

namespace SymCalc

/-- A token without its position. -/
structure Word where
  /-- The kind of token. -/
  kind : Kind
  /-- The text of the token. -/
  text : Text
  /-- Whether a newline lies between the token before and this one. -/
  newline : Bool
  deriving DecidableEq

/-- A character that is skipped neither as a blank nor as a newline or a comment, and that does
not open a quoted string. -/
structure StartsWord (c : Char) : Prop where
  /-- It is not a blank. -/
  space : isSpace c = false
  /-- It does not end the line. -/
  newline : c ≠ '\n'
  /-- It does not open a comment. -/
  comment : c ≠ '#'
  /-- It does not open a string. -/
  quote : isQuote c = false

/-- The words of characters without comments and strings. The first flag tells whether a newline
lies before the characters, the second whether one lies after their last word. -/
inductive Scans : Bool → List Char → List Word → Bool → Prop where
  | nil (n : Bool) : Scans n [] [] n
  | space {n m : Bool} {c : Char} {cs : List Char} {ws : List Word} (blank : isSpace c = true)
      (rest : Scans n cs ws m) : Scans n (c :: cs) ws m
  | newline {n m : Bool} {cs : List Char} {ws : List Word} (rest : Scans true cs ws m) :
      Scans n ('\n' :: cs) ws m
  | word {n m : Bool} {c : Char} {cs taken : List Char} {kind : Kind} {ws : List Word}
      (start : StartsWord c) (lex : lexeme c cs = (kind, taken)) (sound : kind ≠ .error)
      (rest : Scans false ((c :: cs).drop taken.length) ws m) :
      Scans n (c :: cs) (⟨kind, Text.ofChars taken, n⟩ :: ws) m

/-- Whether no word is left on the line. -/
def endsLine : List Word → Bool
  | [] => true
  | w :: _ => w.newline

/-- No lexeme is the end of the input. -/
theorem lexeme_ne_eof (c : Char) (cs : List Char) : (lexeme c cs).1 ≠ .eof := by
  unfold lexeme
  dsimp only
  repeat' split
  all_goals exact nofun

/-- A lexeme is not empty. -/
theorem length_lexeme_pos (c : Char) (cs : List Char) : 0 < (lexeme c cs).2.length := by
  unfold lexeme
  dsimp only
  split
  · rename_i hdigit
    unfold numeralPrefix
    dsimp only
    rw [List.takeWhile_cons_of_pos hdigit]
    split <;> simp
  · repeat' split
    all_goals simp

/-- There are at most as many words as characters. -/
theorem Scans.length_le {n m : Bool} {cs : List Char} {ws : List Word} (h : Scans n cs ws m) :
    ws.length ≤ cs.length := by
  induction h with
  | nil => exact Nat.le_refl 0
  | space _ _ ih => exact Nat.le_succ_of_le ih
  | newline _ ih => exact Nat.le_succ_of_le ih
  | @word n m c cs taken kind ws start lex sound rest ih =>
    have hpos := length_lexeme_pos c cs
    simp only [lex] at hpos
    simp only [List.length_drop, List.length_cons] at ih ⊢
    omega

/-- No word is the end of the input or an error. -/
theorem Scans.kind_ne {n m : Bool} {cs : List Char} {ws : List Word} (h : Scans n cs ws m) :
    ∀ w ∈ ws, w.kind ≠ .eof ∧ w.kind ≠ .error := by
  induction h with
  | nil => exact fun _ hw => nomatch hw
  | space _ _ ih => exact ih
  | newline _ ih => exact ih
  | @word n m c cs taken kind ws start lex sound rest ih =>
    have heof := lexeme_ne_eof c cs
    rw [lex] at heof
    exact List.forall_mem_cons.mpr ⟨⟨heof, sound⟩, ih⟩

variable {n m : Bool} {c : Char} {cs : List Char} {ws : List Word}

/-- What is left after skipping has the same words, and a word starts there. -/
theorem Scans.skipChars (h : Scans n cs ws m) (pos : Position) :
    Scans (skipChars false cs pos n).newline (skipChars false cs pos n).chars ws m ∧
      ∀ c ∈ (SymCalc.skipChars false cs pos n).chars.head?, StartsWord c := by
  induction h generalizing pos with
  | nil n => exact ⟨.nil n, fun _ h => nomatch h⟩
  | @space n m c cs ws blank rest ih =>
    have hc : c ≠ '#' ∧ c ≠ '\n' := by
      simp only [isSpace, Bool.or_eq_true, decide_eq_true_eq] at blank
      rcases blank with (rfl | rfl) | rfl <;> decide
    rw [SymCalc.skipChars, if_neg hc.1, blank, Bool.true_or, if_pos rfl, decide_eq_false hc.2,
      Bool.or_false]
    exact ih (pos.advance c)
  | @newline n m cs ws rest ih =>
    have hskip : SymCalc.skipChars false ('\n' :: cs) pos n =
        SymCalc.skipChars false cs (pos.advance '\n') true := by
      simp [SymCalc.skipChars]
    rw [hskip]
    exact ih (pos.advance '\n')
  | @word n m c cs taken kind ws start lex sound rest ih =>
    rw [SymCalc.skipChars, if_neg start.comment, start.space, decide_eq_false start.newline,
      Bool.or_false, if_neg (by decide)]
    refine ⟨.word start lex sound rest, fun d hd => ?_⟩
    cases hd
    exact start

/-- Without characters there are no words. -/
theorem Scans.eq_nil (h : Scans n [] ws m) : ws = [] := by
  cases h
  rfl

/-- Where a word starts, the first word is the lexeme there. -/
theorem Scans.exists_lexeme (h : Scans n (c :: cs) ws m) (hc : StartsWord c) :
    ∃ kind taken vs, lexeme c cs = (kind, taken) ∧ kind ≠ .error ∧
      ws = ⟨kind, Text.ofChars taken, n⟩ :: vs ∧
      Scans false ((c :: cs).drop taken.length) vs m := by
  cases h with
  | space blank =>
    rw [hc.space] at blank
    cases blank
  | newline => exact absurd rfl hc.newline
  | word start lex sound rest => exact ⟨_, _, _, lex, sound, rfl, rest⟩

/-- Blanks before the words do not count. -/
theorem Scans.dropWhile_isSpace (h : Scans n cs ws m) : Scans n (cs.dropWhile isSpace) ws m := by
  induction h with
  | nil n => exact .nil n
  | space blank _ ih =>
    rw [List.dropWhile_cons_of_pos blank]
    exact ih
  | newline rest _ =>
    rw [List.dropWhile_cons_of_neg (by decide)]
    exact .newline rest
  | word start lex sound rest _ =>
    rw [List.dropWhile_cons_of_neg (by simp [start.space])]
    exact .word start lex sound rest

/-- After a newline the line has ended. -/
theorem Scans.endsLine_of_newline (h : Scans n cs ws m) (hn : n = true) : endsLine ws = true := by
  induction h with
  | nil => rfl
  | space _ _ ih => exact ih hn
  | newline _ ih => exact ih rfl
  | word => exact hn

/-- The line ends where, after blanks, the characters or the line end. -/
theorem Scans.endsLine_eq (h : Scans false cs ws m) :
    (match cs.dropWhile isSpace with
      | [] => true
      | c :: _ => decide (c = '\n') || decide (c = '#')) = endsLine ws := by
  have hrest := h.dropWhile_isSpace
  have hhead := List.head?_dropWhile_not isSpace cs
  generalize cs.dropWhile isSpace = ds at hrest hhead
  cases hrest with
  | nil => rfl
  | space blank =>
    rw [List.head?_cons] at hhead
    exact absurd blank (by simpa using hhead)
  | newline rest => exact (rest.endsLine_of_newline rfl).symm
  | word start =>
    simp only [decide_eq_false start.newline, decide_eq_false start.comment, Bool.or_self]
    rfl

/-- No word goes on with these characters: they start with no character of a name, a number or
an operator, the backquote apart. -/
def Breaks (ds : List Char) : Prop :=
  ∀ c ∈ ds.head?, isNamePart c = false ∧ c ≠ '.' ∧ (isOperatorChar c = true → c = backquote)

/-- A digit may stand in a name. -/
theorem isNamePart_of_isDigit {c : Char} (h : c.isDigit = true) : isNamePart c = true := by
  have hascii : c.toNat < 0x80 := by
    simp only [Char.isDigit, Bool.and_eq_true, decide_eq_true_eq] at h
    have hle : c.val.toNat ≤ 57 := UInt32.le_iff_toNat_le.mp h.2
    change c.val.toNat < 128
    omega
  rw [isNamePart, Text.isDecimal_of_ascii hascii, h, Bool.or_true]

section Append

variable {p : Char → Bool} {ds : List Char}

/-- A run ends where the characters that follow do not belong to it. -/
theorem takeWhile_append_of_head (h : ∀ c ∈ ds.head?, p c = false) (cs : List Char) :
    (cs ++ ds).takeWhile p = cs.takeWhile p := by
  induction cs with
  | nil =>
    cases ds with
    | nil => rfl
    | cons d ds => exact List.takeWhile_cons_of_neg (by simpa using h d rfl)
  | cons c cs ih =>
    by_cases hc : p c = true
    · rw [List.cons_append, List.takeWhile_cons_of_pos hc, List.takeWhile_cons_of_pos hc, ih]
    · rw [List.cons_append, List.takeWhile_cons_of_neg hc, List.takeWhile_cons_of_neg hc]

/-- What comes after a run has the characters that follow at its end. -/
theorem dropWhile_append_of_head (h : ∀ c ∈ ds.head?, p c = false) (cs : List Char) :
    (cs ++ ds).dropWhile p = cs.dropWhile p ++ ds := by
  induction cs with
  | nil =>
    cases ds with
    | nil => rfl
    | cons d ds => exact List.dropWhile_cons_of_neg (by simpa using h d rfl)
  | cons c cs ih =>
    by_cases hc : p c = true
    · rw [List.cons_append, List.dropWhile_cons_of_pos hc, List.dropWhile_cons_of_pos hc, ih]
    · rw [List.cons_append, List.dropWhile_cons_of_neg hc, List.dropWhile_cons_of_neg hc,
        List.cons_append]

/-- A number does not go on across a break. -/
theorem numeralPrefix_append (hds : Breaks ds) (cs : List Char) :
    numeralPrefix (cs ++ ds) = numeralPrefix cs := by
  have hdigit : ∀ c ∈ ds.head?, c.isDigit = false := by
    intro c hc
    have hpart := (hds c hc).1
    by_contra h
    rw [Bool.not_eq_false] at h
    rw [isNamePart_of_isDigit h] at hpart
    cases hpart
  unfold numeralPrefix
  dsimp only
  rw [takeWhile_append_of_head hdigit, dropWhile_append_of_head hdigit]
  generalize cs.dropWhile Char.isDigit = rest
  split
  · rename_i after heq
    cases rest with
    | nil =>
      rw [List.nil_append] at heq
      exact absurd rfl (hds '.' (by rw [heq]; rfl)).2.1
    | cons c rest =>
      rw [List.cons_append] at heq
      obtain ⟨rfl, rfl⟩ := List.cons.inj heq
      rw [takeWhile_append_of_head hdigit]
      rfl
  · rename_i hne
    split
    · rename_i after
      exact absurd rfl (hne (after ++ ds))
    · rfl

/-- A lexeme does not go on across a break. -/
theorem lexeme_append (hds : Breaks ds) (c : Char) (cs : List Char) :
    lexeme c (cs ++ ds) = lexeme c cs := by
  have hop : ∀ c ∈ ds.head?, (isOperatorChar c && decide (c ≠ backquote)) = false := by
    intro c hc
    have h := (hds c hc).2.2
    by_cases hc : isOperatorChar c = true
    · simp [h hc]
    · simp [hc]
  have hname : ∀ c ∈ ds.head?, isNamePart c = false := fun c hc => (hds c hc).1
  unfold lexeme
  dsimp only
  rw [← List.cons_append, numeralPrefix_append hds, takeWhile_append_of_head hop,
    takeWhile_append_of_head hname]

/-- A number is at the front of the characters. -/
theorem numeralPrefix_isPrefix (cs : List Char) : numeralPrefix cs <+: cs := by
  have hsplit := List.takeWhile_append_dropWhile (p := Char.isDigit) (l := cs)
  unfold numeralPrefix
  dsimp only
  split
  · rename_i rest hdot
    rw [hdot] at hsplit
    have hcons : '.' :: rest.takeWhile Char.isDigit <+: '.' :: rest :=
      List.cons_prefix_cons.mpr ⟨rfl, List.takeWhile_prefix _⟩
    calc
      _ <+: cs.takeWhile Char.isDigit ++ '.' :: rest := (List.prefix_append_right_inj _).mpr hcons
      _ = cs := hsplit
  · exact List.takeWhile_prefix _

/-- A lexeme is at the front of the characters. -/
theorem lexeme_isPrefix (c : Char) (cs : List Char) : (lexeme c cs).2 <+: c :: cs := by
  have hcons : ∀ p : Char → Bool, c :: cs.takeWhile p <+: c :: cs :=
    fun p => List.cons_prefix_cons.mpr ⟨rfl, List.takeWhile_prefix p⟩
  have hone : [c] <+: c :: cs := List.cons_prefix_cons.mpr ⟨rfl, List.nil_prefix⟩
  unfold lexeme
  dsimp only
  split
  · exact numeralPrefix_isPrefix _
  · repeat' split
    all_goals first | exact hone | exact hcons _

/-- Characters are put together where no word goes on. -/
theorem Scans.append {vs : List Word} {k : Bool} (h : Scans n cs ws m) (hds : Breaks ds)
    (hafter : Scans m ds vs k) : Scans n (cs ++ ds) (ws ++ vs) k := by
  induction h with
  | nil => exact hafter
  | space blank _ ih => exact .space blank (ih hafter)
  | newline _ ih => exact .newline (ih hafter)
  | @word n m c cs taken kind ws start lex sound rest ih =>
    have hle := (lexeme_isPrefix c cs).length_le
    simp only [lex] at hle
    have hdrop : (c :: (cs ++ ds)).drop taken.length = (c :: cs).drop taken.length ++ ds := by
      rw [← List.cons_append, List.drop_append_of_le_length hle]
    refine .word start ((lexeme_append hds c cs).trans lex) sound ?_
    exact hdrop ▸ ih hafter

end Append

/-- A token is the word, at some position. -/
structure Token.Is (t : Token) (w : Word) : Prop where
  /-- They have the same kind. -/
  kind : t.kind = w.kind
  /-- They have the same text. -/
  text : t.text = w.text

/-- The words that a scanner of a text has still to give. -/
def Scanner.Reads (s : Scanner) (ws : List Word) : Prop :=
  s.source.feed = none ∧
    match s.held with
    | none => ∃ m, Scans false s.source.chars ws m
    | some h =>
      match ws with
      | [] => h.token.kind = .eof ∧ s.source.chars = []
      | w :: ws => h.token.Is w ∧ h.newline = w.newline ∧ w.kind ≠ .eof ∧ w.kind ≠ .error ∧
          ∃ m, Scans false s.source.chars ws m

namespace Scanner

variable {s : Scanner} {w : Word}

/-- Logging a token changes nothing in what is read. -/
theorem emit_source (s : Scanner) (t : Token) : (s.emit t).source = s.source := by
  unfold emit
  split <;> rfl

/-- What is skipped in a source without lines to ask for. -/
theorem skip_of_feed_none {source : Source} (h : source.feed = none) :
    source.skip = ({ source with
      chars := (skipChars false source.chars source.pos false).chars
      pos := (skipChars false source.chars source.pos false).pos },
      (skipChars false source.chars source.pos false).newline) := by
  obtain ⟨chars, pos, feed⟩ := source
  cases h
  have hfill : (⟨chars, pos, none⟩ : Source).fill = ⟨chars, pos, none⟩ := by
    cases chars <;> rfl
  simp [Source.skip, Source.skipRounds, hfill, Source.isOpen]

/-- Reading from the source at the end of the words. -/
theorem scan_nil (hfeed : s.source.feed = none) (h : Scans false s.source.chars [] m) :
    s.scan.1.token.kind = .eof ∧ s.scan.2.source.chars = [] ∧ s.scan.2.source.feed = none := by
  have hskip := skip_of_feed_none hfeed
  obtain ⟨hscans, hstart⟩ := h.skipChars s.source.pos
  generalize skipChars false s.source.chars s.source.pos false = k at hskip hscans hstart
  obtain ⟨chars, pos, newline⟩ := k
  unfold scan
  rw [hskip]
  cases chars with
  | nil => exact ⟨rfl, rfl, hfeed⟩
  | cons c cs =>
    obtain ⟨_, _, _, _, _, hws, _⟩ := hscans.exists_lexeme (hstart c rfl)
    cases hws

/-- Reading a word from the source. -/
theorem scan_cons (hfeed : s.source.feed = none) (h : Scans false s.source.chars (w :: ws) m) :
    s.scan.1.token.Is w ∧ s.scan.1.newline = w.newline ∧ s.scan.2.source.feed = none ∧
      Scans false s.scan.2.source.chars ws m := by
  have hskip := skip_of_feed_none hfeed
  obtain ⟨hscans, hstart⟩ := h.skipChars s.source.pos
  generalize skipChars false s.source.chars s.source.pos false = k at hskip hscans hstart
  obtain ⟨chars, pos, newline⟩ := k
  unfold scan
  rw [hskip]
  cases chars with
  | nil => cases hscans.eq_nil
  | cons c cs =>
    have hc := hstart c rfl
    obtain ⟨kind, taken, vs, hlex, hkind, hws, hrest⟩ := hscans.exists_lexeme hc
    cases hws
    simp only [hc.quote, hlex, if_neg hkind, Bool.false_eq_true, if_false, emit_source]
    exact ⟨⟨rfl, rfl⟩, trivial, hfeed, hrest⟩

/-- A scanner that has not looked ahead reads the words of its characters. -/
theorem reads_of_scans (hheld : s.held = none) (hfeed : s.source.feed = none)
    (h : Scans false s.source.chars ws m) : s.Reads ws := by
  refine ⟨hfeed, ?_⟩
  rw [hheld]
  exact ⟨m, h⟩

/-- The words of a scanner that has not looked ahead. -/
theorem Reads.scans (h : s.Reads ws) (hheld : s.held = none) :
    ∃ m, Scans false s.source.chars ws m := by
  have hrest := h.2
  rw [hheld] at hrest
  exact hrest

/-- Taking a word. -/
theorem Reads.next_cons (h : s.Reads (w :: ws)) :
    s.next.1.Is w ∧ w.kind ≠ .eof ∧ w.kind ≠ .error ∧ s.next.2.Reads ws := by
  unfold next
  cases hheld : s.held with
  | none =>
    obtain ⟨m, hscans⟩ := h.scans hheld
    obtain ⟨htoken, _, hfeed, hrest⟩ := scan_cons h.1 hscans
    have hkind := hscans.kind_ne w List.mem_cons_self
    exact ⟨htoken, hkind.1, hkind.2, reads_of_scans (s.scan_sound.2.trans hheld) hfeed hrest⟩
  | some held =>
    have hrest := h.2
    simp only [hheld] at hrest
    obtain ⟨htoken, _, heof, herror, m, hscans⟩ := hrest
    exact ⟨htoken, heof, herror, reads_of_scans rfl h.1 hscans⟩

/-- Looking at the end of the words. -/
theorem Reads.peek_nil (h : s.Reads []) : s.peek.1.kind = .eof ∧ s.peek.2.Reads [] := by
  unfold peek
  cases hheld : s.held with
  | none =>
    obtain ⟨m, hscans⟩ := h.scans hheld
    obtain ⟨hkind, hchars, hfeed⟩ := scan_nil h.1 hscans
    exact ⟨hkind, hfeed, hkind, hchars⟩
  | some held =>
    have hrest := h.2
    simp only [hheld] at hrest
    exact ⟨hrest.1, h⟩

/-- Looking at a word. -/
theorem Reads.peek_cons (h : s.Reads (w :: ws)) :
    s.peek.1.Is w ∧ w.kind ≠ .eof ∧ w.kind ≠ .error ∧ s.peek.2.Reads (w :: ws) := by
  unfold peek
  cases hheld : s.held with
  | none =>
    obtain ⟨m, hscans⟩ := h.scans hheld
    obtain ⟨htoken, hnewline, hfeed, hrest⟩ := scan_cons h.1 hscans
    obtain ⟨heof, herror⟩ := hscans.kind_ne w List.mem_cons_self
    exact ⟨htoken, heof, herror, hfeed, htoken, hnewline, heof, herror, m, hrest⟩
  | some held =>
    have hrest := h.2
    simp only [hheld] at hrest
    exact ⟨hrest.1, hrest.2.2.1, hrest.2.2.2.1, h⟩

/-- Looking for the end of the line. -/
theorem Reads.atEndOfLine (h : s.Reads ws) :
    s.atEndOfLine.1 = endsLine ws ∧ s.atEndOfLine.2.Reads ws := by
  have hfill : s.source.fill = s.source := by
    unfold Source.fill
    rw [h.1]
    split <;> first | rfl | contradiction
  unfold Scanner.atEndOfLine
  cases hheld : s.held with
  | none =>
    obtain ⟨m, hscans⟩ := h.scans hheld
    dsimp only
    rw [hfill]
    refine ⟨hscans.endsLine_eq, reads_of_scans rfl h.1 hscans.dropWhile_isSpace⟩
  | some held =>
    have hrest := h.2
    simp only [hheld] at hrest
    refine ⟨?_, h⟩
    cases ws with
    | nil => simp [hrest.1, endsLine]
    | cons w ws =>
      obtain ⟨htoken, hnewline, heof, _⟩ := hrest
      simp [htoken.kind, hnewline, heof, endsLine]

/-- The bound on the tokens to come counts at least one more than the words. -/
theorem Reads.length_lt_size (h : s.Reads ws) : ws.length < s.size := by
  have hsize : s.size = s.source.chars.length + 2 := by
    unfold Scanner.size Source.size
    rw [h.1]
    rfl
  rw [hsize]
  cases hheld : s.held with
  | none =>
    obtain ⟨m, hscans⟩ := h.scans hheld
    have := hscans.length_le
    omega
  | some held =>
    have hrest := h.2
    simp only [hheld] at hrest
    cases ws with
    | nil => simp
    | cons w ws =>
      obtain ⟨_, _, _, _, m, hscans⟩ := hrest
      have := hscans.length_le
      simp only [List.length_cons]
      omega

end Scanner

end SymCalc
