import Mathlib
import SymCalc.Proofs.Lookahead

/-!
# Asking for lines

A source takes the characters of a line one by one, and asks for the next line when none is at
hand. Main statements: whatever a scanner is asked, its source takes characters and asks for lines
in this way; and where no line has a quote in it, the source has the end of the line at hand when a
token was read, so that looking at what follows on the line asks for nothing.
-/

namespace SymCalc

namespace Source

variable {s t : Source}

/-- What a source does. -/
inductive Step : Source → Source → Prop where
  /-- It takes the next character. -/
  | take {s : Source} {c : Char} {cs : List Char} (chars : s.chars = c :: cs) :
    Step s { s with chars := cs, pos := s.pos.advance c }
  /-- It drops what is left of the line. -/
  | drop {s : Source} (chars : s.chars ≠ []) :
    Step s { s with chars := [], pos := s.pos.nextLine }
  /-- It asks for a line, when no character of the one before is left. -/
  | ask {s : Source} {f : Feed} (chars : s.chars = []) (feed : s.feed = some f)
    (more : f.closed = false) : Step s { s with chars := f.ask.1, feed := some f.ask.2 }

/-- What a source does one after the other. -/
abbrev Steps : Source → Source → Prop := Relation.ReflTransGen Step

/-- A line is asked for when no character is at hand. -/
theorem steps_fill (s : Source) : s.Steps s.fill := by
  obtain ⟨chars, pos, feed⟩ := s
  cases chars with
  | cons c cs => exact .refl
  | nil =>
    cases feed with
    | none => exact .refl
    | some f =>
      cases hclosed : f.closed with
      | true =>
        rw [fill]
        simp only [hclosed, if_true]
        exact .refl
      | false =>
        rw [fill]
        simp only [hclosed, Bool.false_eq_true, if_false]
        exact .single (.ask rfl rfl hclosed)

/-- Characters at hand are taken one by one. -/
theorem steps_advance {taken rest : List Char} (h : s.chars = taken ++ rest) :
    s.Steps (s.advance taken rest) := by
  induction taken generalizing s with
  | nil =>
    obtain ⟨chars, pos, feed⟩ := s
    obtain rfl : chars = rest := h
    exact .refl
  | cons c taken ih => exact .head (.take h) (ih rfl)

/-- Skipping goes step by step. -/
theorem steps_skipRounds (rounds : Nat) (s : Source) (newline : Bool) :
    s.Steps (s.skipRounds rounds newline).1 := by
  induction rounds generalizing s newline with
  | zero => exact .refl
  | succ rounds ih =>
    have hround : s.Steps (s.fill.skipAtHand newline).1 := by
      obtain ⟨taken, hchars, hpos⟩ := skipChars_split false s.fill.chars s.fill.pos newline
      have hsame : (s.fill.skipAtHand newline).1 =
          s.fill.advance taken (skipChars false s.fill.chars s.fill.pos newline).chars := by
        rw [skipAtHand, advance, hpos]
      rw [hsame]
      exact s.steps_fill.trans (steps_advance hchars)
    rw [skipRounds_eq]
    dsimp only
    split
    · exact hround.trans (ih _ _)
    · exact hround

/-- A string is read step by step. -/
theorem steps_quotedRounds (quote : Char) (rounds : Nat) (taken : List Char) (s : Source) :
    s.Steps (s.quotedRounds quote rounds taken).2 := by
  induction rounds generalizing s taken with
  | zero => exact .refl
  | succ rounds ih =>
    have hsplit := List.takeWhile_append_dropWhile (p := (· ≠ quote)) (l := s.fill.chars)
    rw [quotedRounds]
    dsimp only
    cases hafter : s.fill.chars.dropWhile (· ≠ quote) with
    | cons c rest =>
      refine s.steps_fill.trans (steps_advance ?_)
      rw [List.append_assoc, List.singleton_append, ← hafter]
      exact hsplit.symm
    | nil =>
      have hline : s.Steps (s.fill.advance (s.fill.chars.takeWhile (· ≠ quote)) []) := by
        refine s.steps_fill.trans (steps_advance ?_)
        rw [← hafter]
        exact hsplit.symm
      dsimp only
      split
      · exact hline.trans (ih _ _)
      · exact hline

/-- A token is read step by step. -/
theorem steps_scan (s : Source) : s.Steps s.scan.2 := by
  have hskip : s.Steps s.skip.1 := steps_skipRounds _ s false
  refine hskip.trans ?_
  rw [scan, lex]
  generalize s.skip.1 = t
  cases hchars : t.chars with
  | nil => exact .refl
  | cons c cs =>
    dsimp only
    split
    · have hquote : t.Steps (t.advance [c] cs) := steps_advance hchars
      have hinside : (t.advance [c] cs).Steps ((t.advance [c] cs).quoted c).2 :=
        steps_quotedRounds c _ [] _
      generalize (t.advance [c] cs).quoted c = result at hinside
      obtain ⟨inside, u⟩ := result
      cases inside <;> exact hquote.trans hinside
    · have hword : t.Steps (t.advance (lexeme c cs).2 ((c :: cs).drop (lexeme c cs).2.length)) :=
        steps_advance (hchars.trans (List.prefix_iff_eq_append.mp (lexeme_isPrefix c cs)).symm)
      split <;> exact hword

/-- The end of the line is looked for step by step. -/
theorem steps_lineEnd (s : Source) : s.Steps s.lineEnd.2 :=
  s.steps_fill.trans (steps_advance (List.takeWhile_append_dropWhile (p := isSpace)).symm)

/-- The rest of a line is dropped in one step. -/
theorem steps_discard (s : Source) : s.Steps s.discard := by
  rw [discard]
  split
  · rename_i hdrop
    obtain ⟨-, hchars⟩ := Bool.and_eq_true_iff.mp hdrop
    refine .single (.drop fun hnil => ?_)
    rw [hnil] at hchars
    cases hchars
  · exact .refl

/-- No quote is to come. -/
def Unquoted (s : Source) : Prop := ∀ c ∈ s.rest, isQuote c = false

/-- What comes after characters that are taken has no quote in it either. -/
theorem Unquoted.of_append (hs : s.Unquoted) {taken : List Char} (h : s.rest = taken ++ t.rest) :
    t.Unquoted := by
  intro c hc
  exact hs c (by rw [h]; exact List.mem_append_right taken hc)

/-- Skipping stops at a character, or where there is no line to ask for. -/
theorem settled_skipRounds {rounds : Nat} (newline : Bool) (h : s.Enough rounds) :
    (s.skipRounds rounds newline).1.Settled := by
  induction rounds generalizing s newline with
  | zero => exact absurd h.1 (Nat.not_lt_zero _)
  | succ rounds ih =>
    rw [skipRounds_eq]
    dsimp only
    split
    · rename_i hmore
      obtain ⟨hempty, hopen⟩ := Bool.and_eq_true_iff.mp hmore
      exact ih _ (h.of_used (List.isEmpty_iff.mp hempty) rfl hopen)
    · rename_i hstop
      rw [Bool.and_eq_true, List.isEmpty_iff, not_and_or, Bool.not_eq_true] at hstop
      exact hstop

/-- A token that is no string ends before the end of its line. -/
theorem settled_lex (newline : Bool) (hs : s.Lined) (hsettled : s.Settled)
    (hhead : ∀ c ∈ s.chars.head?, isQuote c = false ∧ c ≠ '\n') :
    (s.lex newline).2.Settled ∧ (s.lex newline).2.feed = s.feed := by
  rw [lex]
  cases hchars : s.chars with
  | nil => exact ⟨hsettled, rfl⟩
  | cons c cs =>
    obtain ⟨hquote, hc⟩ := hhead c (by rw [hchars]; rfl)
    have hword : (s.advance (lexeme c cs).2 ((c :: cs).drop (lexeme c cs).2.length)).Settled := by
      cases hfeed : s.feed with
      | none => exact .inr (by rw [isOpen, advance, hfeed])
      | some f =>
        have hline := (hs f hfeed).1
        rw [hchars] at hline
        obtain ⟨body, -, rfl⟩ := hline.exists_of_cons hc
        have hlength := (lexeme_isPrefix c body).length_le
        rw [lexeme_append (breaks_newline [])]
        refine .inl (List.ne_nil_of_length_pos ?_)
        simp only [advance, List.length_drop, List.length_cons, List.length_append,
          List.length_nil] at hlength ⊢
        omega
    simp only [hquote, Bool.false_eq_true, if_false]
    split <;> exact ⟨hword, rfl⟩

/-- Skipping stops at a character to come that is no newline. -/
theorem head_skip (hs : s.Lined) : ∀ c ∈ s.skip.1.chars.head?, c ∈ s.rest ∧ c ≠ '\n' := by
  intro c hc
  have hflat := congrArg (fun r => r.1.chars) (skip_flat hs).1
  rw [Scanner.skip_of_feed_none rfl] at hflat
  have hhead : c ∈ (skipChars false s.rest s.pos false).chars.head? := by
    have hsame : (skipChars false s.rest s.pos false).chars = s.skip.1.rest := hflat
    rw [hsame, rest_eq_append, List.head?_append, hc]
    rfl
  obtain ⟨taken, hrest, -⟩ := skipChars_split false s.rest s.pos false
  refine ⟨?_, (skipChars_head false s.rest s.pos false c hhead).2.2⟩
  rw [hrest]
  exact List.mem_append_right taken (List.mem_of_mem_head? hhead)

/-- After a token was read the end of its line is at hand, and all lines that were asked for were
asked for before its first character. -/
theorem scan_of_unquoted (hs : s.Lined) (hquotes : s.Unquoted) :
    s.scan.2.Settled ∧ s.scan.2.feed = s.skip.1.feed := by
  have hsettled : s.skip.1.Settled := settled_skipRounds false ⟨by omega, fun _ => by omega⟩
  refine settled_lex s.skip.2 (skip_flat hs).2.1 hsettled fun c hc => ?_
  obtain ⟨hmem, hnewline⟩ := head_skip hs c hc
  exact ⟨hquotes c hmem, hnewline⟩

/-- Looking for the end of the line asks for nothing when it is at hand. -/
theorem Settled.feed_lineEnd (h : s.Settled) : s.lineEnd.2.feed = s.feed := by
  rw [lineEnd, h.fill_eq]
  rfl

/-- Reading a token that stands on the line asks for nothing. -/
theorem Settled.feed_scan (h : s.Settled) (hs : s.Lined) (hquotes : s.Unquoted)
    (hline : s.lineEnd.1 = false) : s.scan.2.feed = s.feed := by
  rw [(scan_of_unquoted hs hquotes).2, ← skip_lineEnd hs, (skip_of_lineEnd_false hline).2,
    h.feed_lineEnd]

/-- Looking for the end of the line again finds the same. -/
theorem lineEnd_lineEnd (hs : s.Lined) : s.lineEnd.2.lineEnd = s.lineEnd := by
  have hdrop : s.lineEnd.2.chars.dropWhile isSpace = s.lineEnd.2.chars :=
    List.dropWhile_idempotent isSpace s.fill.chars
  have htake : s.lineEnd.2.chars.takeWhile isSpace = [] := by
    have hsplit := List.takeWhile_append_dropWhile (p := isSpace) (l := s.lineEnd.2.chars)
    rw [hdrop] at hsplit
    exact List.append_left_eq_self.mp hsplit
  rw [lineEnd, (settled_lineEnd hs).fill_eq, hdrop, htake]
  rfl

end Source

namespace Scanner

variable {s t : Scanner} {onLine : Bool}

/-- A scanner that has gone no further than to look at the next token, and only on the line if this
is asked for. -/
inductive Looked (onLine : Bool) (t : Scanner) : Scanner → Prop where
  /-- It has not looked at anything. -/
  | here : Looked onLine t t
  /-- It has looked for the end of the line. -/
  | ends : Looked onLine t t.atEndOfLine.2
  /-- It has looked at the next token. -/
  | token (line : onLine = true → t.atEndOfLine.1 = false) : Looked onLine t t.peek.2

/-- Less may be said of what a scanner has looked at. -/
theorem Looked.any (h : Looked onLine t s) : Looked false t s := by
  cases h with
  | here => exact .here
  | ends => exact .ends
  | token => exact .token fun hfalse => nomatch hfalse

/-- Looking for the end of the line twice is looking once. -/
theorem atEndOfLine_atEndOfLine (hs : s.source.Lined) :
    s.atEndOfLine.2.atEndOfLine = s.atEndOfLine := by
  cases hheld : s.held with
  | some x => simp only [atEndOfLine, hheld]
  | none =>
    have hlooked : s.atEndOfLine.2.held = none := by rw [held_atEndOfLine, hheld]
    rw [atEndOfLine_of_held_none hlooked, atEndOfLine_of_held_none hheld]
    dsimp only
    rw [Source.lineEnd_lineEnd hs]

/-- With a token held, looking for the end of the line changes nothing. -/
theorem atEndOfLine_peek (s : Scanner) : s.peek.2.atEndOfLine.2 = s.peek.2 := by
  obtain ⟨x, hx, -⟩ := s.held_peek
  rw [atEndOfLine, hx]

/-- The next token is taken as if nothing had been looked at. -/
theorem Looked.next (h : Looked onLine t s) (ht : t.source.Lined) : s.next = t.next := by
  cases h with
  | here => rfl
  | ends => exact next_atEndOfLine ht
  | token => exact t.next_peek

/-- The next token is looked at as if nothing had been looked at. -/
theorem Looked.peek (h : Looked onLine t s) (ht : t.source.Lined) : s.peek = t.peek := by
  cases h with
  | here => rfl
  | ends => exact peek_atEndOfLine ht
  | token => exact t.peek_peek

/-- Looking for the end of the line is looking ahead, and where it is not found the line goes on. -/
theorem Looked.atEndOfLine (h : Looked onLine t s) (ht : t.source.Lined) :
    Looked onLine t s.atEndOfLine.2 ∧
      (s.atEndOfLine.1 = false → onLine = true → t.atEndOfLine.1 = false) := by
  cases h with
  | here => exact ⟨.ends, fun hends _ => hends⟩
  | ends =>
    rw [atEndOfLine_atEndOfLine ht]
    exact ⟨.ends, fun hends _ => hends⟩
  | token line =>
    rw [atEndOfLine_peek]
    exact ⟨.token line, fun _ => line⟩

/-- A scanner of lines without quotes. When it has looked at a token, the end of the token's line is
at hand. -/
structure Tidy (s : Scanner) : Prop where
  /-- The source has lines. -/
  lined : s.source.Lined
  /-- No quote is to come. -/
  unquoted : s.source.Unquoted
  /-- The end of the line of a token that was looked at is at hand. -/
  settled : s.held ≠ none → s.source.Settled

/-- After a token was taken the end of its line is at hand, and none is held. -/
theorem Tidy.next (h : s.Tidy) :
    s.next.2.Tidy ∧ s.next.2.held = none ∧ s.next.2.source.Settled := by
  cases hheld : s.held with
  | some x =>
    have hsettled := h.settled (by rw [hheld]; exact Option.some_ne_none x)
    rw [next_of_held hheld]
    exact ⟨⟨h.lined, h.unquoted, fun _ => hsettled⟩, rfl, hsettled⟩
  | none =>
    obtain ⟨taken, hrest, -⟩ := Source.scan_split h.lined
    have hsettled := (Source.scan_of_unquoted h.lined h.unquoted).1
    rw [next_of_held_none hheld]
    exact ⟨⟨(Source.scan_flat h.lined).2, h.unquoted.of_append hrest, fun _ => hsettled⟩, rfl,
      hsettled⟩

/-- Looking at a token leaves the source where taking it does. -/
theorem source_peek (s : Scanner) : s.peek.2.source = s.next.2.source := by
  cases hheld : s.held with
  | some x => rw [peek_of_held hheld, next_of_held hheld]
  | none => rw [peek_of_held_none hheld, next_of_held_none hheld]

/-- After a token was looked at the end of its line is at hand. -/
theorem Tidy.peek (h : s.Tidy) : s.peek.2.Tidy := by
  obtain ⟨⟨hlined, hunquoted, -⟩, -, hsettled⟩ := h.next
  rw [← source_peek] at hlined hunquoted hsettled
  exact ⟨hlined, hunquoted, fun _ => hsettled⟩

/-- After looking for the end of a line it is at hand. -/
theorem Tidy.atEndOfLine (h : s.Tidy) : s.atEndOfLine.2.Tidy := by
  cases hheld : s.held with
  | some x =>
    have hstays : s.atEndOfLine.2 = s := by rw [Scanner.atEndOfLine, hheld]
    rw [hstays]
    exact h
  | none =>
    obtain ⟨hlined, taken, hrest, -⟩ := Source.lineEnd_split h.lined
    rw [atEndOfLine_of_held_none hheld]
    exact ⟨hlined, h.unquoted.of_append hrest, fun _ => Source.settled_lineEnd h.lined⟩

/-- Dropping the rest of a line leaves lines without quotes. -/
theorem Tidy.discard (h : s.Tidy) : s.discard.Tidy := by
  refine ⟨?_, ?_, absurd rfl⟩
  · intro f hf
    rw [Scanner.discard, Source.discard] at hf ⊢
    split
    · rename_i hdrop
      simp only [hdrop, if_true] at hf
      exact ⟨.inl rfl, (h.lined f hf).2⟩
    · rename_i hkeep
      simp only [hkeep] at hf
      exact h.lined f hf
  · rw [Scanner.discard, Source.discard]
    split
    · exact h.unquoted.of_append s.source.rest_eq_append
    · exact h.unquoted

/-- Looking ahead on the line asks for nothing. -/
theorem Looked.feed_eq (h : Looked true t s) (ht : t.Tidy) (hheld : t.held = none)
    (hsettled : t.source.Settled) : s.source.feed = t.source.feed := by
  cases h with
  | here => rfl
  | ends =>
    rw [atEndOfLine_of_held_none hheld]
    exact hsettled.feed_lineEnd
  | token line =>
    have hline : t.source.lineEnd.1 = false := by
      rw [← line rfl, atEndOfLine_of_held_none hheld]
    rw [peek_of_held_none hheld]
    exact hsettled.feed_scan ht.lined ht.unquoted hline

/-- A scanner goes on to another one: its source does so step by step, and lines without quotes
stay so. -/
structure GoesTo (s t : Scanner) : Prop where
  /-- Characters are taken or dropped, and lines asked for, one after the other. -/
  steps : s.source.Steps t.source
  /-- No quotes come in. -/
  tidy : s.Tidy → t.Tidy

namespace GoesTo

/-- A scanner that stays goes on to itself. -/
theorem refl (s : Scanner) : s.GoesTo s := ⟨.refl, id⟩

/-- A scanner goes on in turn. -/
theorem trans {u : Scanner} (h : s.GoesTo t) (h' : t.GoesTo u) : s.GoesTo u :=
  ⟨h.steps.trans h'.steps, fun hs => h'.tidy (h.tidy hs)⟩

/-- A scanner goes on by taking a token. -/
theorem next (s : Scanner) : s.GoesTo s.next.2 := by
  refine ⟨?_, fun h => h.next.1⟩
  cases hheld : s.held with
  | some x => rw [next_of_held hheld]
  | none =>
    rw [next_of_held_none hheld]
    exact s.source.steps_scan

/-- A scanner goes on by looking at a token. -/
theorem peek (s : Scanner) : s.GoesTo s.peek.2 := by
  refine ⟨?_, Tidy.peek⟩
  rw [source_peek]
  exact (next s).steps

/-- A scanner goes on by looking for the end of the line. -/
theorem atEndOfLine (s : Scanner) : s.GoesTo s.atEndOfLine.2 := by
  refine ⟨?_, Tidy.atEndOfLine⟩
  cases hheld : s.held with
  | some x => rw [Scanner.atEndOfLine, hheld]
  | none =>
    rw [atEndOfLine_of_held_none hheld]
    exact s.source.steps_lineEnd

/-- A scanner goes on by dropping the rest of the line. -/
theorem discard (s : Scanner) : s.GoesTo s.discard := ⟨s.source.steps_discard, Tidy.discard⟩

/-- What has been logged does not matter. -/
theorem withLog (s : Scanner) (log : Text) : s.GoesTo { s with log := log } :=
  ⟨.refl, fun h => ⟨h.lined, h.unquoted, h.settled⟩⟩

/-- A scanner goes on by taking tokens. -/
theorem taken (s : Scanner) (k : Nat) : s.GoesTo (s.taken k) := by
  induction k with
  | zero => exact refl s
  | succ k ih => exact ih.trans (next _)

end GoesTo

/-- A scanner that has looked ahead has gone on. -/
theorem Looked.goesTo (h : Looked onLine t s) : t.GoesTo s := by
  cases h with
  | here => exact .refl _
  | ends => exact .atEndOfLine _
  | token => exact .peek _

end Scanner

/-- A line has no quotes and no line feeds. -/
def Line.Unquoted (line : Line) : Prop :=
  ∀ b ∈ line.bytes, b ≠ 0x22 ∧ b ≠ 0x27 ∧ b ≠ Text.newline

instance (line : Line) : Decidable line.Unquoted :=
  inferInstanceAs (Decidable (∀ b ∈ line.bytes, b ≠ 0x22 ∧ b ≠ 0x27 ∧ b ≠ Text.newline))

/-- The characters of a line without quotes, up to the line feed that ends it. -/
theorem Line.Unquoted.mem_decode {line : Line} (h : line.Unquoted) {c : Char}
    (hc : c ∈ Text.decode (line.bytes.filter (· ≠ Text.carriageReturn))) :
    isQuote c = false ∧ c ≠ '\n' := by
  have hbyte (n : Nat) (hn : n < 0x80) (hcn : c.toNat = n) : UInt8.ofNat n ∈ line.bytes := by
    rw [← hcn]
    exact (List.mem_filter.mp (Text.mem_of_mem_decode hc (by omega))).1
  refine ⟨?_, ?_⟩
  · rw [isQuote, Bool.or_eq_false_iff, decide_eq_false_iff_not, decide_eq_false_iff_not]
    constructor
    · rintro rfl
      exact (h _ (hbyte 0x27 (by omega) rfl)).2.1 rfl
    · rintro rfl
      exact (h _ (hbyte 0x22 (by omega) rfl)).1 rfl
  · rintro rfl
    exact (h _ (hbyte 10 (by omega) rfl)).2.2 rfl

/-- A scanner of lines without quotes is tidy at the start. -/
theorem Scanner.tidy_start {lines : List Line} (h : ∀ line ∈ lines, line.Unquoted)
    (settings : Settings) (name : Text) :
    (Cursor.start settings name (.ofLines lines)).scanner.Tidy := by
  refine ⟨?_, ?_, absurd rfl⟩
  · rintro f ⟨⟩
    refine ⟨.inl rfl, fun line hline => .inr ⟨_, fun hmem => ?_, rfl⟩⟩
    exact ((h line hline).mem_decode hmem).2 rfl
  · intro c hc
    obtain ⟨line, hline, hmem⟩ := List.mem_flatMap.mp hc
    rcases List.mem_append.mp hmem with hmem | hmem
    · exact ((h line hline).mem_decode hmem).1
    · rw [List.mem_singleton.mp hmem]
      decide

end SymCalc
