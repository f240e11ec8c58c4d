import Mathlib
import SymCalc.Proofs.Lexemes
import SymCalc.Proofs.Readers
import SymCalc.Proofs.Relabelling

/-!
# Scanning in step

Two sources that hold the same characters are scanned in step, also when one of them starts further
down, or goes on with further lines after the other has ended. Main statement: the source further
down gives the same tokens further down, until the first source ends.
-/

namespace SymCalc

/-- The token at another position. -/
def Token.relabel (f : Position → Position) (t : Token) : Token := { t with pos := f t.pos }

/-- The token looked at, at another position. -/
def Scanned.relabel (f : Position → Position) (x : Scanned) : Scanned :=
  { x with token := x.token.relabel f }

/-- What is wrong, with the positions of tokens changed. -/
def SyntaxFault.relabel (f : Position → Position) : SyntaxFault → SyntaxFault
  | .expected text got => .expected text (got.relabel f)
  | .unexpected token => .unexpected (token.relabel f)
  | .expectedName got => .expectedName (got.relabel f)
  | .expectedComma got => .expectedComma (got.relabel f)
  | fault => fault

/-- An error with its positions changed. -/
def SyntaxError.relabel (f : Position → Position) (e : SyntaxError) : SyntaxError :=
  ⟨e.file, f e.pos, e.fault.relabel f⟩

section

variable (f : Position → Position) (t : Token)

@[simp] theorem Token.kind_relabel : (t.relabel f).kind = t.kind := rfl

@[simp] theorem Token.text_relabel : (t.relabel f).text = t.text := rfl

@[simp] theorem Token.pos_relabel : (t.relabel f).pos = f t.pos := rfl

@[simp] theorem Token.isPunct_relabel (text : Text) :
    (t.relabel f).isPunct text = t.isPunct text := rfl

end

namespace Source

variable {s : Source}

/-- Where a character is left, a token is read. -/
theorem kind_lex_ne_eof (newline : Bool) (h : s.chars ≠ []) :
    (s.lex newline).1.token.kind ≠ .eof := by
  unfold lex
  cases hchars : s.chars with
  | nil => exact absurd hchars h
  | cons c cs =>
    by_cases hquote : isQuote c = true
    · simp only [hquote, if_true]
      obtain ⟨inside, t⟩ := (s.advance [c] cs).quoted c
      cases inside <;> exact nofun
    · simp only [hquote, Bool.false_eq_true, if_false]
      split
      · exact nofun
      · exact lexeme_ne_eof c cs

/-- A token is read with the characters before it. At the end nothing is left, and the end is where
reading stopped. -/
theorem scan_split (hs : s.Lined) :
    ∃ taken, s.rest = taken ++ s.scan.2.rest ∧ s.scan.2.pos = s.pos.advanceAll taken ∧
      (s.scan.1.token.kind ≠ .eof → taken ≠ []) ∧
      (s.scan.1.token.kind = .eof →
        s.scan.2.rest = [] ∧ s.scan.1.token = ⟨.eof, "EOF", s.scan.2.pos⟩) := by
  have hflat := (scan_flat hs).1
  have hfirst : s.scan.1 = s.flat.scan.1 := by rw [hflat]
  have hrest : s.scan.2.rest = s.flat.scan.2.chars := by rw [hflat, chars_flat]
  have hpos : s.scan.2.pos = s.flat.scan.2.pos := by rw [hflat, pos_flat]
  rw [hfirst, hrest, hpos, ← chars_flat s, ← pos_flat s]
  obtain ⟨gap, -, ⟨htoken, -, hpasses, hend⟩ | ⟨kind, text, span, htoken, -, hspan, hpasses⟩⟩ :=
    scan_span (s := s.flat) (feed_flat s)
  · rw [htoken]
    exact ⟨gap, hpasses.chars, hpasses.pos, absurd rfl, fun _ => ⟨hend, by rw [hpasses.pos]⟩⟩
  · rw [htoken]
    refine ⟨gap ++ span, hpasses.chars, hpasses.pos, fun _ hnil => ?_, fun heof => ?_⟩
    · exact hspan.ne_nil (List.append_eq_nil_iff.mp hnil).2
    · exact absurd heof hspan.kind_ne_eof

/-- Skips blanks and tells whether the line ends after them. -/
def lineEnd (s : Source) : Bool × Source :=
  let after := s.fill.chars.dropWhile isSpace
  let ends :=
    match after with
    | [] => true
    | c :: _ => c = '\n' || c = '#'
  (ends, s.fill.advance (s.fill.chars.takeWhile isSpace) after)

end Source

/-- A scanner that has not looked ahead looks for the end of the line in its source. -/
theorem Scanner.atEndOfLine_of_held_none {s : Scanner} (h : s.held = none) :
    s.atEndOfLine = (s.source.lineEnd.1, { s with source := s.source.lineEnd.2 }) := by
  rw [Scanner.atEndOfLine, h]
  rfl

namespace Source

variable {s : Source}

/-- Blanks are taken off the characters still to come. -/
theorem lineEnd_split (hs : s.Lined) : s.lineEnd.2.Lined ∧
    ∃ taken, s.rest = taken ++ s.lineEnd.2.rest ∧
      s.lineEnd.2.pos = s.pos.advanceAll taken := by
  have hsplit := List.takeWhile_append_dropWhile (p := isSpace) (l := s.fill.chars)
  refine ⟨hs.fill.of_suffix rfl (s.fill.chars.takeWhile isSpace) hsplit.symm,
    s.fill.chars.takeWhile isSpace, ?_, by rw [← s.pos_fill]; rfl⟩
  have hrest : s.lineEnd.2.rest = s.fill.chars.dropWhile isSpace ++ s.fill.later := rfl
  rw [hrest, ← List.append_assoc, hsplit, ← rest_fill, rest_eq_append]

/-- Where the line does not end, nothing more is skipped before the next token. -/
theorem skip_of_lineEnd_false (h : s.lineEnd.1 = false) :
    s.lineEnd.2.chars ≠ [] ∧ s.lineEnd.2.skip = (s.lineEnd.2, false) := by
  have hhead := List.head?_dropWhile_not isSpace s.fill.chars
  have hchars : s.lineEnd.2.chars = s.fill.chars.dropWhile isSpace := rfl
  unfold lineEnd at h
  dsimp only at h
  cases hafter : s.fill.chars.dropWhile isSpace with
  | nil => simp [hafter] at h
  | cons c cs =>
    rw [hafter] at hhead h hchars
    simp only [Bool.or_eq_false_iff, decide_eq_false_iff_not] at h
    have hspace : isSpace c = false := by simpa using hhead
    have hfill : s.lineEnd.2.fill = s.lineEnd.2 := by
      unfold Source.fill
      rw [hchars]
    refine ⟨by rw [hchars]; exact List.cons_ne_nil c cs, ?_⟩
    unfold skip skipRounds
    rw [hfill]
    simp only [hchars, skipChars, h, hspace, Bool.or_self, decide_false, Bool.false_eq_true,
      if_false, List.isEmpty_cons, Bool.false_and]
    rw [← hchars]

/-- Where the line does not end, a token follows without a newline before it. -/
theorem scan_of_lineEnd_false (h : s.lineEnd.1 = false) :
    s.lineEnd.2.scan.1.newline = false ∧ s.lineEnd.2.scan.1.token.kind ≠ .eof := by
  obtain ⟨hchars, hskip⟩ := skip_of_lineEnd_false h
  rw [scan, hskip]
  refine ⟨?_, kind_lex_ne_eof _ hchars⟩
  rw [lex_newline _ _ false]

end Source

namespace Scanner

variable {s : Scanner}

/-- Taking a token that has not been looked at. -/
theorem next_of_held_none (h : s.held = none) : s.next = (s.source.scan.1.token,
    { s with source := s.source.scan.2, held := none, log := s.scan.2.log }) := by
  rw [next, h, s.scan_eq.1, h]

/-- Looking at a token for the first time. -/
theorem peek_of_held_none (h : s.held = none) : s.peek = (s.source.scan.1.token,
    { s with source := s.source.scan.2, held := some s.source.scan.1, log := s.scan.2.log }) := by
  rw [peek, h, s.scan_eq.1]

/-- Looking for the end of the line leaves the token looked at. -/
theorem held_atEndOfLine (s : Scanner) : s.atEndOfLine.2.held = s.held := by
  cases h : s.held with
  | none => rw [atEndOfLine_of_held_none h, h]
  | some x => rw [atEndOfLine, h]; exact h

end Scanner

/-- Where the line does not end, the next token stands on it. -/
theorem Cursor.moreOnLine_of_atEndOfLine {c : Cursor} (h : c.scanner.atEndOfLine.1 = false)
    (n : Nat) :
    MoreOnLine ⟨c.scanner.atEndOfLine.2, n⟩ := by
  intro x hx
  cases hheld : c.scanner.held with
  | some y =>
    have hends : c.scanner.atEndOfLine = (decide (y.token.kind = .eof) || y.newline, c.scanner) := by
      rw [Scanner.atEndOfLine, hheld]
    rw [hends] at h hx
    simp only [Bool.or_eq_false_iff, decide_eq_false_iff_not] at h
    rw [Scanner.peek_of_held hheld] at hx
    cases hheld.symm.trans hx
    exact h
  | none =>
    rw [Scanner.atEndOfLine_of_held_none hheld] at h hx
    rw [Scanner.peek_of_held_none
      (s := { c.scanner with source := c.scanner.source.lineEnd.2 }) hheld] at hx
    cases hx
    exact (Source.scan_of_lineEnd_false h).symm

namespace Source

variable {s : Source}

/-- A line with nothing but blanks at hand is the last one. -/
theorem Lined.later_eq_nil (hs : s.Lined) (h : s.fill.chars.dropWhile isSpace = []) :
    s.fill.later = [] := by
  cases hfeed : s.fill.feed with
  | none => rw [later, hfeed]
  | some f =>
    rcases (hs.fill f hfeed).1 with hchars | ⟨body, -, hchars⟩
    · have hrest := (rest_of_chars_fill hchars).1
      rw [← rest_fill, rest_eq_append, hchars] at hrest
      exact hrest
    · rw [hchars, List.dropWhile_eq_nil_iff] at h
      exact absurd (h '\n' (by simp)) (by decide)

/-- Where the line ends, a line feed or a comment stands, or nothing. -/
theorem chars_of_lineEnd_true (hs : s.Lined) (h : s.lineEnd.1 = true) :
    s.lineEnd.2.rest = [] ∨ ∃ c cs, s.lineEnd.2.chars = c :: cs ∧ (c = '\n' ∨ c = '#') := by
  have hchars : s.lineEnd.2.chars = s.fill.chars.dropWhile isSpace := rfl
  have hlater : s.lineEnd.2.later = s.fill.later := rfl
  cases hafter : s.fill.chars.dropWhile isSpace with
  | nil =>
    refine .inl ?_
    rw [rest_eq_append, hchars, hlater, hafter, hs.later_eq_nil hafter, List.append_nil]
  | cons c cs =>
    refine .inr ⟨c, cs, hchars.trans hafter, ?_⟩
    simpa [lineEnd, hafter] using h

/-- Dropping the rest of a line of which only the line feed or a comment is left loses no token,
and leads to the place where the line feed leads. -/
theorem scan_discard (hs : s.Lined) (hinteractive : s.isInteractive = true) {c : Char}
    {cs : List Char} (hchars : s.chars = c :: cs) (hc : c = '\n' ∨ c = '#') :
    s.discard.Lined ∧ s.discard.pos.advanceAll s.discard.rest = s.pos.advanceAll s.rest ∧
      s.flat.scan = (⟨s.discard.flat.scan.1.token, true⟩, s.discard.flat.scan.2) := by
  obtain ⟨f, hf⟩ := Option.isSome_iff_exists.mp hinteractive
  have hdiscard : s.discard = { s with chars := [], pos := s.pos.nextLine } := by
    rw [discard, hinteractive, hchars]
    rfl
  refine ⟨hs.of_suffix (by rw [hdiscard]) s.chars (by rw [hdiscard]; simp), ?_⟩
  obtain ⟨body, hbody, hline⟩ := ((hs f hf).1).resolve_left (by rw [hchars]; simp)
  have hrest : s.rest = body ++ '\n' :: s.later := by
    rw [rest_eq_append, hline, List.append_assoc]
    rfl
  -- Skipping passes over the whole line, since a comment has no line feed in it.
  have hskip : (skipChars false body s.pos false).chars = [] := by
    have hcomment : ∀ (ds : List Char) p, '\n' ∉ ds → (skipChars true ds p false).chars = [] := by
      intro ds
      induction ds with
      | nil => exact fun _ _ => rfl
      | cons d ds ih =>
        intro p hds
        obtain ⟨hd, hds⟩ := not_or.mp (mt List.mem_cons.mpr hds)
        simpa [skipChars, Ne.symm hd] using ih (p.advance d) hds
    cases body with
    | nil => rfl
    | cons b body =>
      obtain ⟨hb, hbody⟩ := not_or.mp (mt List.mem_cons.mpr hbody)
      have hcb : c = b := by
        rw [hchars] at hline
        exact (List.cons.inj hline).1
      have hb : b = '#' := hcb ▸ hc.resolve_left (hcb ▸ Ne.symm hb)
      rw [hb, skipChars, if_pos rfl]
      exact hcomment body _ hbody
  obtain ⟨taken, htaken, hpos⟩ := skipChars_split false body s.pos false
  rw [hskip, List.append_nil] at htaken
  have hnext : (skipChars false body s.pos false).pos.nextLine = s.pos.nextLine := by
    rw [hpos, ← htaken, Position.nextLine_advanceAll s.pos hbody]
  have hlater : s.discard.flat = { chars := s.later, pos := s.pos.nextLine } := by
    rw [hdiscard]
    rfl
  have hstop : s.discard.pos.advanceAll s.discard.rest = s.pos.advanceAll s.rest := by
    rw [← pos_flat, ← chars_flat s.discard, hlater, hrest, Position.advanceAll_append,
      Position.advanceAll_cons, Position.advance_newline, Position.nextLine_advanceAll s.pos hbody]
  refine ⟨hstop, ?_⟩
  rw [scan, scan, Scanner.skip_of_feed_none rfl, Scanner.skip_of_feed_none rfl, hlater]
  simp only [chars_flat, pos_flat, feed_flat, hrest, skipChars_append_newline, hskip, if_true, hnext]
  rw [skipChars_newline false s.later s.pos.nextLine true, Bool.true_or]
  exact lex_newline _ true _

end Source

/-- How one source differs from another. -/
structure Offset where
  /-- How many lines further down it is. -/
  lines : Nat := 0
  /-- How many more tokens have been read before. -/
  tokens : Nat := 0
  /-- The characters after the line feed with which it goes on, if it goes on. -/
  more : Option (List Char) := none
  /-- Where the first source ends. -/
  stop : Position
  /-- The name of the input. -/
  name : Text := ""
  /-- Whether the first reader may log what it reads; the second one never does. -/
  loud : Bool := false

namespace Offset

variable (o : Offset) {s : Source}

/-- The place of a position of the first source. -/
def place : Position → Position := Position.down o.lines

/-- The characters with which the second source goes on. -/
def extra : List Char :=
  match o.more with
  | none => []
  | some cs => '\n' :: cs

/-- The second source, with all its characters at hand. -/
def source (s : Source) : Source := { chars := s.rest ++ o.extra, pos := o.place s.pos }

/-- The second source only depends on the characters still to come. -/
@[simp] theorem source_flat (s : Source) : o.source s.flat = o.source s := by
  rw [source, Source.rest_flat, Source.pos_flat, source]

/-- No word goes on in the characters with which the second source goes on. -/
theorem breaks_extra : Breaks o.extra := by
  unfold extra
  cases o.more with
  | none => exact fun _ h => nomatch h
  | some cs => exact Source.breaks_newline cs

/-- The token at the next character is the same, unless it is a string that is not ended. -/
theorem lex_source (newline : Bool) (hfeed : s.feed = none) (hne : s.chars ≠ []) :
    (o.source s).lex newline = ((s.lex newline).1.relabel o.place, o.source (s.lex newline).2) ∨
      (o.more ≠ none ∧ (s.lex newline).1.token.kind = .error) := by
  obtain ⟨c, cs, hchars⟩ := List.exists_cons_of_ne_nil hne
  have hsource : (o.source s).chars = c :: (cs ++ o.extra) := by
    rw [source, Source.rest_of_feed_none hfeed, hchars, List.cons_append]
  by_cases hquote : isQuote c = true
  · have hleft : (s.advance [c] cs).chars = cs := rfl
    have hright : ((o.source s).advance [c] (cs ++ o.extra)).chars = cs ++ o.extra := rfl
    simp only [Source.lex, hsource, hchars, hquote, if_true, Source.quoted,
      Source.quotedRounds_of_feed_none (s := s.advance [c] cs) hfeed,
      Source.quotedRounds_of_feed_none (s := (o.source s).advance [c] (cs ++ o.extra)) rfl,
      hleft, hright]
    cases hdrop : cs.dropWhile (· ≠ c) with
    | cons d after =>
      have hne : cs.dropWhile (· ≠ c) ≠ [] := by rw [hdrop]; exact List.cons_ne_nil d after
      obtain ⟨htake, hafter⟩ := Source.span_append_of_ne_nil hne o.extra
      rw [hdrop, List.cons_append] at hafter
      simp only [hafter, htake]
      refine .inl (Prod.ext rfl ?_)
      simp [source, Source.advance, Source.rest, hfeed, place]
    | nil =>
      cases hmore : o.more with
      | some ds => exact .inr ⟨Option.some_ne_none ds, rfl⟩
      | none =>
        have hextra : o.extra = [] := by rw [extra, hmore]
        simp only [hextra, List.append_nil, hdrop]
        refine .inl (Prod.ext rfl ?_)
        simp [source, Source.advance, Source.rest, hfeed, place, hextra]
  · refine .inl ?_
    have hdrop : (c :: (cs ++ o.extra)).drop (lexeme c cs).2.length =
        (c :: cs).drop (lexeme c cs).2.length ++ o.extra := by
      rw [← List.cons_append, List.drop_append_of_le_length (lexeme_isPrefix c cs).length_le]
    have hafter : ∀ ds, (o.source s).advance (lexeme c cs).2 (ds ++ o.extra) =
        o.source (s.advance (lexeme c cs).2 ds) := by
      intro ds
      simp [source, Source.advance, Source.rest, hfeed, place]
    simp only [Source.lex, hsource, hchars, hquote, Bool.false_eq_true, if_false,
      lexeme_append o.breaks_extra, hdrop, hafter]
    split <;> rfl

/-- The next token of the second source: the same further down, or the first of those with which
it goes on when the first source has ended. Only a string that is not ended may be another. -/
theorem scan_source (hs : s.Lined) :
    ((o.source s).scan = (s.scan.1.relabel o.place, o.source s.scan.2) ∧
      (o.more ≠ none → s.scan.1.token.kind ≠ .eof)) ∨
    (o.more ≠ none ∧ s.scan.1.token.kind = .error) ∨
    ∃ cs, o.more = some cs ∧ s.scan.1.token.kind = .eof ∧
      (o.source s).scan =
        (⟨(Source.scan { chars := cs, pos := (o.place (s.pos.advanceAll s.rest)).nextLine }).1.token,
            true⟩,
          (Source.scan { chars := cs, pos := (o.place (s.pos.advanceAll s.rest)).nextLine }).2) := by
  obtain ⟨hflat, -⟩ := Source.scan_flat hs
  have hfirst : s.scan.1 = s.flat.scan.1 := by rw [hflat]
  have hsecond : o.source s.scan.2 = o.source s.flat.scan.2 := by rw [hflat, source_flat]
  obtain ⟨taken, htaken, hpos⟩ := skipChars_split false s.rest s.pos false
  rw [hfirst, hsecond, Source.scan, Source.scan, Scanner.skip_of_feed_none rfl,
    Scanner.skip_of_feed_none rfl]
  have hchars : (o.source s).chars = s.rest ++ o.extra := rfl
  have hplace : (o.source s).pos = s.pos.down o.lines := rfl
  have hfeed : (o.source s).feed = none := rfl
  simp only [hchars, hplace, hfeed, Source.chars_flat, Source.pos_flat, Source.feed_flat]
  have hword : ∀ (cs : List Char) (p : Position) (newline : Bool), cs ≠ [] →
      (((o.source { chars := cs, pos := p }).lex newline =
          ((Source.lex { chars := cs, pos := p } newline).1.relabel o.place,
            o.source (Source.lex { chars := cs, pos := p } newline).2) ∧
        (o.more ≠ none → (Source.lex { chars := cs, pos := p } newline).1.token.kind ≠ .eof)) ∨
      (o.more ≠ none ∧ (Source.lex { chars := cs, pos := p } newline).1.token.kind = .error)) := by
    intro cs p newline hcs
    rcases o.lex_source (s := { chars := cs, pos := p }) newline rfl hcs with h | h
    · exact .inl ⟨h, fun _ => Source.kind_lex_ne_eof newline hcs⟩
    · exact .inr h
  have hrest : ∀ (cs : List Char) (p : Position),
      o.source { chars := cs, pos := p } = { chars := cs ++ o.extra, pos := p.down o.lines } := by
    intro cs p
    rw [source, Source.rest_of_feed_none rfl]
    rfl
  cases hmore : o.more with
  | none =>
    have hextra : o.extra = [] := by rw [extra, hmore]
    rw [hextra, List.append_nil, skipChars_down]
    generalize skipChars false s.rest s.pos false = skipped
    obtain ⟨cs, p, newline⟩ := skipped
    by_cases hcs : cs = []
    · subst hcs
      refine .inl ⟨Prod.ext rfl ?_, fun h => absurd rfl h⟩
      simp only [Source.lex, hrest, hextra, List.append_nil]
    · have hlex := hword cs p newline hcs
      rw [hrest, hextra, List.append_nil, hmore] at hlex
      exact hlex.imp id .inl
  | some cs =>
    have hextra : o.extra = '\n' :: cs := by rw [extra, hmore]
    rw [hextra, skipChars_append_newline, skipChars_down]
    generalize skipChars false s.rest s.pos false = skipped at htaken hpos
    obtain ⟨left, p, newline⟩ := skipped
    by_cases hleft : left = []
    · -- The first source has ended, and skipping goes on after the line feed.
      subst hleft
      rw [List.append_nil] at htaken
      refine .inr (.inr ⟨cs, rfl, rfl, ?_⟩)
      simp only [if_true]
      rw [htaken, ← hpos, Source.scan, Scanner.skip_of_feed_none rfl,
        skipChars_newline false cs _ true, Bool.true_or]
      exact Source.lex_newline _ true _
    · have hlex := hword left p newline hleft
      rw [hrest, hextra, hmore] at hlex
      simp only [hleft, if_false]
      exact hlex.imp id .inl

/-- The line of the second source ends where the line of the first one does. -/
theorem lineEnd_source (hs : s.Lined) :
    (o.source s).lineEnd = (s.lineEnd.1, o.source s.lineEnd.2) := by
  have hspace : ∀ c ∈ o.extra.head?, isSpace c = false := by
    unfold extra
    cases o.more with
    | none => exact fun _ h => nomatch h
    | some cs =>
      intro c hc
      cases hc
      decide
  have hfill : (o.source s).fill = o.source s := Source.fill_of_feed_none rfl
  have hchars : (o.source s).chars = s.fill.chars ++ (s.fill.later ++ o.extra) := by
    rw [source, ← s.rest_fill, Source.rest_eq_append, List.append_assoc]
  have hspan : (s.fill.chars ++ (s.fill.later ++ o.extra)).takeWhile isSpace =
        s.fill.chars.takeWhile isSpace ∧
      (s.fill.chars ++ (s.fill.later ++ o.extra)).dropWhile isSpace =
        s.fill.chars.dropWhile isSpace ++ (s.fill.later ++ o.extra) := by
    by_cases hafter : s.fill.chars.dropWhile isSpace = []
    · rw [hs.later_eq_nil hafter, List.nil_append]
      exact ⟨takeWhile_append_of_head hspace _, dropWhile_append_of_head hspace _⟩
    · exact Source.span_append_of_ne_nil hafter _
  unfold Source.lineEnd
  simp only [hfill, hchars, hspan]
  refine Prod.ext ?_ ?_
  · cases hafter : s.fill.chars.dropWhile isSpace with
    | cons c cs => rfl
    | nil =>
      rw [hs.later_eq_nil hafter]
      unfold extra
      cases o.more <;> rfl
  · simp [source, Source.advance, Source.rest_eq_append, Source.later, place]

end Offset

end SymCalc
