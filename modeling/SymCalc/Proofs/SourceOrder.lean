import Mathlib
import SymCalc.Proofs.Conversation

/-!
# Reading goes forward

Positions are ordered by line and column. Every token stands behind the one before it, and a reader
that takes tokens, looks at them or looks for the end of the line only goes forward. Main statement:
whatever a reader of a text takes, the tokens to come after it are the last of those to come before,
and none of them stands before the place that was reached.
-/

namespace SymCalc

namespace Position

/-- Positions are ordered by line, and on a line by column. -/
instance : Preorder Position := Preorder.lift fun p : Position => toLex (p.line, p.column)

/-- A position stands before another one on an earlier line, or on the same line further left. -/
theorem lt_iff {p q : Position} :
    p < q ↔ p.line < q.line ∨ p.line = q.line ∧ p.column < q.column :=
  Prod.Lex.toLex_lt_toLex

/-- A character moves the position on. -/
theorem lt_advance (p : Position) (c : Char) : p < p.advance c := by
  rw [lt_iff, advance]
  split
  · exact .inl (Nat.lt_succ_self _)
  · exact .inr ⟨rfl, Nat.lt_succ_self _⟩

/-- Characters do not move the position back. -/
theorem le_advanceAll (p : Position) (cs : List Char) : p ≤ p.advanceAll cs := by
  induction cs generalizing p with
  | nil => exact le_refl p
  | cons c cs ih => exact (p.lt_advance c).le.trans (ih (p.advance c))

/-- Some characters move the position on. -/
theorem lt_advanceAll (p : Position) {cs : List Char} (h : cs ≠ []) : p < p.advanceAll cs := by
  cases cs with
  | nil => exact absurd rfl h
  | cons c cs => exact (p.lt_advance c).trans_le ((p.advance c).le_advanceAll cs)

end Position

namespace Source

variable {s : Source}

/-- The next token does not stand before the place that was reached, and reading goes on behind
where it stands. -/
theorem scan_forward (hfeed : s.feed = none) : s.scan.2.feed = none ∧
    s.pos ≤ s.scan.1.token.pos ∧
      (s.scan.1.token.kind ≠ .eof → s.scan.1.token.pos < s.scan.2.pos) := by
  obtain ⟨gap, -, ⟨htoken, -, hpasses, -⟩ | ⟨kind, text, span, htoken, -, hspan, hpasses⟩⟩ :=
    scan_span hfeed
  · rw [htoken]
    exact ⟨hpasses.feed, s.pos.le_advanceAll gap, absurd rfl⟩
  · rw [htoken, hpasses.pos, Position.advanceAll_append]
    exact ⟨hpasses.feed, s.pos.le_advanceAll gap, fun _ => Position.lt_advanceAll _ hspan.ne_nil⟩

/-- Blanks are skipped before a token in any case. -/
theorem skipChars_dropWhile (cs : List Char) (pos : Position) (newline : Bool) :
    skipChars false (cs.dropWhile isSpace) (pos.advanceAll (cs.takeWhile isSpace)) newline =
      skipChars false cs pos newline := by
  induction cs generalizing pos with
  | nil => rfl
  | cons c cs ih =>
    by_cases hspace : isSpace c = true
    · have hcomment : c ≠ '#' := by
        rintro rfl
        exact absurd hspace (by decide)
      have hnewline : c ≠ '\n' := by
        rintro rfl
        exact absurd hspace (by decide)
      rw [List.dropWhile_cons_of_pos hspace, List.takeWhile_cons_of_pos hspace,
        Position.advanceAll_cons, ih, skipChars]
      simp [hcomment, hspace, hnewline]
    · rw [List.dropWhile_cons_of_neg hspace, List.takeWhile_cons_of_neg hspace,
        Position.advanceAll_nil]

/-- A source has characters at hand, or there is no line to ask for. -/
def Settled (s : Source) : Prop := s.chars ≠ [] ∨ s.isOpen = false

/-- A settled source does not ask for a line. -/
theorem Settled.fill_eq (h : s.Settled) : s.fill = s := by
  obtain ⟨chars, pos, feed⟩ := s
  cases chars with
  | cons c cs => rfl
  | nil =>
    cases feed with
    | none => rfl
    | some f =>
      have hopen := h.resolve_left (absurd rfl)
      have hclosed : f.closed = true := by simpa [isOpen] using hopen
      simp [Source.fill, hclosed]

/-- A source that was asked for a line is settled. -/
theorem settled_fill (s : Source) : s.fill.Settled := by
  by_cases hchars : s.fill.chars = []
  · exact .inr (s.rest_of_chars_fill hchars).2
  · exact .inl hchars

/-- There are rounds left for a further line. -/
theorem Enough.of_used {rounds : Nat} (h : s.Enough (rounds + 1)) {t : Source} (ht : t.chars = [])
    (hfeed : t.feed = s.fill.feed) (hopen : t.isOpen = true) : t.Enough rounds := by
  have hsame : s.fill.isOpen = true := by rwa [isOpen, ← hfeed]
  have hchars : s.fill.chars ≠ [] := by
    intro hnil
    rw [(s.rest_of_chars_fill hnil).2] at hsame
    cases hsame
  exact h.of_fill hchars ht (by rw [linesLeft, hfeed, linesLeft])

/-- Skips what can be skipped of the characters at hand. -/
def skipAtHand (s : Source) (newline : Bool) : Source × Bool :=
  let skipped := skipChars false s.chars s.pos newline
  ({ s with chars := skipped.chars, pos := skipped.pos }, skipped.newline)

/-- A round of skipping, after which there may be others. -/
theorem skipRounds_eq (rounds : Nat) (s : Source) (newline : Bool) :
    s.skipRounds (rounds + 1) newline =
      let skipped := s.fill.skipAtHand newline
      if skipped.1.chars.isEmpty && skipped.1.isOpen then skipped.1.skipRounds rounds skipped.2
      else skipped :=
  rfl

/-- A round more than enough changes nothing in what is skipped. -/
theorem skipRounds_succ {rounds : Nat} (newline : Bool) (h : s.Enough rounds) :
    s.skipRounds (rounds + 1) newline = s.skipRounds rounds newline := by
  induction rounds generalizing s newline with
  | zero => exact absurd h.1 (Nat.not_lt_zero _)
  | succ rounds ih =>
    rw [skipRounds_eq (rounds + 1), skipRounds_eq rounds]
    dsimp only
    split
    · rename_i hmore
      obtain ⟨hempty, hopen⟩ := Bool.and_eq_true_iff.mp hmore
      exact ih _ (h.of_used (List.isEmpty_iff.mp hempty) rfl hopen)
    · rfl

/-- Asking for a line first changes nothing in what is skipped. -/
theorem skip_fill (s : Source) : s.fill.skip = s.skip := by
  have hround (rounds : Nat) :
      s.fill.skipRounds (rounds + 1) false = s.skipRounds (rounds + 1) false := by
    rw [skipRounds_eq, skipRounds_eq, s.settled_fill.fill_eq]
  rw [skip, skip, hround]
  rcases s.fill_cases with ⟨-, hfill⟩ | ⟨-, hopen, -⟩ | ⟨f, g, line, -, hf, hlines, hfill⟩
  · rw [hfill]
  · -- without a line to ask for one round is enough
    have hclosed : (s.fill.skipAtHand false).1.isOpen = false := hopen
    simp only [skipRounds_eq, hclosed, Bool.and_false, Bool.false_eq_true, if_false]
  · have hs : s.linesLeft = s.fill.linesLeft + 1 := by
      rw [hfill, linesLeft, hf]
      simp only [hlines, List.length_cons, linesLeft]
    have henough : s.fill.Enough (s.fill.linesLeft + 2) := ⟨by omega, fun _ => by omega⟩
    rw [hs, ← hround, ← hround]
    exact (skipRounds_succ false henough).symm

/-- A source that was looked for the end of the line is settled, since a line feed is no blank. -/
theorem settled_lineEnd (hs : s.Lined) : s.lineEnd.2.Settled := by
  have hlined := hs.fill
  rcases s.settled_fill with hchars | hopen
  · cases hfeed : s.fill.feed with
    | none => exact .inr (by rw [isOpen, lineEnd, advance, hfeed])
    | some f =>
      obtain ⟨body, -, hbody⟩ := (hlined f hfeed).1.resolve_left hchars
      refine .inl fun hnil => ?_
      have hblank := List.dropWhile_eq_nil_iff.mp hnil '\n' (by rw [hbody]; simp)
      exact absurd hblank (by decide)
  · exact .inr hopen

/-- Looking for the end of the line changes nothing in what is skipped up to the next token. -/
theorem skip_lineEnd (hs : s.Lined) : s.lineEnd.2.skip = s.skip := by
  have hsame : s.lineEnd.2.skipAtHand false = s.fill.skipAtHand false := by
    simp only [skipAtHand, lineEnd, advance, skipChars_dropWhile]
  rw [← s.skip_fill, skip, skip, skipRounds_eq, skipRounds_eq, (settled_lineEnd hs).fill_eq,
    s.settled_fill.fill_eq, hsame]
  rfl

/-- Looking for the end of the line changes nothing in the token that comes next. -/
theorem scan_lineEnd (hs : s.Lined) : s.lineEnd.2.scan = s.scan := by
  rw [scan, scan, skip_lineEnd hs]

end Source

namespace Scanner

variable {s : Scanner}

/-- Looking for the end of the line changes nothing in the token that is read next. -/
theorem scan_lineEnd (hs : s.source.Lined) :
    ({ s with source := s.source.lineEnd.2 } : Scanner).scan = s.scan := by
  unfold Scanner.scan
  rw [Source.skip_lineEnd hs]

/-- Looking for the end of the line changes nothing in the token that is taken next. -/
theorem next_atEndOfLine (hs : s.source.Lined) : s.atEndOfLine.2.next = s.next := by
  cases hheld : s.held with
  | some x => simp only [atEndOfLine, hheld]
  | none => rw [atEndOfLine_of_held_none hheld, next, next, scan_lineEnd hs, hheld]

/-- Looking for the end of the line changes nothing in the token that is looked at next. -/
theorem peek_atEndOfLine (hs : s.source.Lined) : s.atEndOfLine.2.peek = s.peek := by
  cases hheld : s.held with
  | some x => simp only [atEndOfLine, hheld]
  | none => rw [atEndOfLine_of_held_none hheld, peek, peek, scan_lineEnd hs, hheld]

/-- Looking at a token changes nothing in taking it. -/
theorem next_peek (s : Scanner) : s.peek.2.next = s.next := by
  cases hheld : s.held with
  | some x => rw [peek_of_held hheld]
  | none => rw [peek_of_held_none hheld, next_of_held rfl, next_of_held_none hheld]

end Scanner

namespace Cursor

variable {c d e : Cursor}

/-- The tokens to come, of which the last is the end of the input. -/
def tokens (c : Cursor) : List Token := c.scanner.tokens.1

/-- The place that a reader has reached: where the token stands that it has looked at, or where
its source stands. -/
def front (c : Cursor) : Position :=
  match c.scanner.held with
  | some x => x.token.pos
  | none => c.scanner.source.pos

/-- A reader of a text that knows where it stands. -/
structure Placed (c : Cursor) : Prop where
  /-- All characters are at hand. -/
  feed : c.scanner.source.feed = none
  /-- When the end has been looked at, nothing is left, and the end is where reading stands. -/
  ended : ∀ x ∈ c.scanner.held, x.token.kind = .eof →
    c.scanner.source.rest = [] ∧ x.token = ⟨.eof, "EOF", c.scanner.source.pos⟩
  /-- Any other token that has been looked at stands before the source. -/
  passed : ∀ x ∈ c.scanner.held, x.token.kind ≠ .eof → x.token.pos < c.scanner.source.pos

/-- A reader at the start of a text knows where it stands. -/
theorem placed_start (settings : Settings) (name text : Text) :
    (start settings name (.ofText text)).Placed :=
  ⟨rfl, (fun _ hx => nomatch hx), (fun _ hx => nomatch hx)⟩

/-- A reader that knows where it stands is in step with itself. -/
theorem Placed.tame (h : c.Placed) : Offset.Tame {
    stop := c.scanner.source.pos.advanceAll c.scanner.source.rest
    name := c.scanner.name
    loud := true } c :=
  ⟨Source.lined_of_feed_none h.feed, nofun, nofun, rfl, rfl, h.ended⟩

/-- All bounds that exceed the tokens to come give the same tokens. -/
theorem tokensWithin_eq {o : Offset} (h : o.Tame c) {n k : Nat} (hn : c.budget < n)
    (hk : c.budget < k) : (c.scanner.tokensWithin n).1 = (c.scanner.tokensWithin k).1 := by
  induction n generalizing c k with
  | zero => exact absurd hn (Nat.not_lt_zero _)
  | succ n ih =>
    cases k with
    | zero => exact absurd hk (Nat.not_lt_zero _)
    | succ k =>
      obtain ⟨htame, -, -, hless⟩ := h.next c.consumed
      rw [Scanner.tokensWithin, Scanner.tokensWithin]
      dsimp only
      split
      · rfl
      · rename_i hkind
        have hless := hless hkind
        exact congrArg (c.scanner.next.1 :: ·) (ih htame (by omega) (by omega))

/-- The next token is the first of those to come. At the end it stays the only one. -/
theorem Placed.tokens_next (h : c.Placed) (n : Nat) :
    c.tokens = if c.scanner.next.1.kind = .eof then [c.scanner.next.1]
      else c.scanner.next.1 :: tokens ⟨c.scanner.next.2, n⟩ := by
  obtain ⟨htame, -, hbudget, hless⟩ := h.tame.next n
  have hsize := Offset.budget_lt_size c
  have hsize' := Offset.budget_lt_size ⟨c.scanner.next.2, n⟩
  have hmore : c.scanner.size = c.scanner.source.size + 1 + 1 := rfl
  rw [tokens, Scanner.tokens, hmore, Scanner.tokensWithin]
  dsimp only
  split
  · rfl
  · rename_i hkind
    have hless := hless hkind
    rw [tokens, Scanner.tokens, tokensWithin_eq htame (by omega) hsize']

/-- The first of the tokens to come is the next one. -/
theorem Placed.tokens_head (h : c.Placed) : ∃ later, c.tokens = c.scanner.peek.1 :: later := by
  have hnext := h.tokens_next 0
  rw [← c.scanner.next_fst]
  split at hnext
  · exact ⟨[], hnext⟩
  · exact ⟨_, hnext⟩

/-- A reader has passed a position, or has looked at the token that stands there, or is at the
end. -/
def Behind (p : Position) (c : Cursor) : Prop :=
  p < c.front ∨ p = c.front ∧ (c.scanner.held.isSome ∨ c.scanner.source.rest = [])

/-- A reader has gone forward from one place to another. -/
structure Onward (c d : Cursor) : Prop where
  /-- It knows where it stands. -/
  placed : d.Placed
  /-- It has not gone back. -/
  front : c.front ≤ d.front
  /-- What it had come to, it has come to. -/
  behind : ∀ p, Behind p c → Behind p d
  /-- It has taken the first of the tokens to come. -/
  tokens : ∃ taken, c.tokens = taken ++ d.tokens

/-- A reader that stays has gone forward. -/
theorem Placed.onward (h : c.Placed) : c.Onward c := ⟨h, le_refl _, fun _ hp => hp, [], rfl⟩

/-- A reader goes forward in steps. -/
theorem Onward.trans (h : c.Onward d) (h' : d.Onward e) : c.Onward e := by
  obtain ⟨first, hfirst⟩ := h.tokens
  obtain ⟨later, hlater⟩ := h'.tokens
  exact ⟨h'.placed, h.front.trans h'.front, fun p hp => h'.behind p (h.behind p hp),
    first ++ later, by rw [hfirst, hlater, List.append_assoc]⟩

/-- How many tokens have been counted does not matter. -/
theorem Placed.withConsumed (h : c.Placed) (n : Nat) : c.Onward ⟨c.scanner, n⟩ :=
  ⟨⟨h.feed, h.ended, h.passed⟩, le_refl _, fun _ hp => hp, [], rfl⟩

/-- Taking a token leaves none that has been looked at. The end is taken where reading stands, and
any other token before it. -/
theorem Placed.next_placed (h : c.Placed) (n : Nat) :
    Placed ⟨c.scanner.next.2, n⟩ ∧ c.scanner.next.2.held = none ∧
      c.front ≤ c.scanner.next.1.pos ∧
      (c.scanner.next.1.kind ≠ .eof → c.scanner.next.1.pos < c.scanner.next.2.source.pos) ∧
      (c.scanner.next.1.kind = .eof → c.scanner.next.2.source.rest = [] ∧
        c.scanner.next.1 = ⟨.eof, "EOF", c.scanner.next.2.source.pos⟩) := by
  unfold front
  cases hheld : c.scanner.held with
  | some x =>
    rw [Scanner.next_of_held hheld]
    exact ⟨⟨h.feed, (fun _ hx => nomatch hx), (fun _ hx => nomatch hx)⟩, rfl, le_refl _,
      h.passed x hheld, h.ended x hheld⟩
  | none =>
    obtain ⟨hfeed, hpos, hpassed⟩ := Source.scan_forward h.feed
    obtain ⟨-, -, -, -, hend⟩ := Source.scan_split (Source.lined_of_feed_none h.feed)
    rw [Scanner.next_of_held_none hheld]
    exact ⟨⟨hfeed, (fun _ hx => nomatch hx), (fun _ hx => nomatch hx)⟩, rfl, hpos, hpassed, hend⟩

/-- At the end the end is the only token to come. -/
theorem Placed.tokens_of_rest_nil (h : c.Placed) (hheld : c.scanner.held = none)
    (hrest : c.scanner.source.rest = []) : c.tokens = [⟨.eof, "EOF", c.scanner.source.pos⟩] := by
  obtain ⟨htoken, -, -⟩ := Source.scan_of_rest_nil (Source.lined_of_feed_none h.feed) hrest
  have hnext : c.scanner.next.1 = ⟨.eof, "EOF", c.scanner.source.pos⟩ := by
    rw [Scanner.next_of_held_none hheld]
    exact htoken
  rw [h.tokens_next 0, hnext]
  rfl

/-- The token that has been looked at stands at the place reached, and so does the end. -/
theorem Placed.pos_next (h : c.Placed)
    (hstands : c.scanner.held.isSome ∨ c.scanner.source.rest = []) :
    c.front = c.scanner.next.1.pos := by
  unfold front
  cases hheld : c.scanner.held with
  | some x => rw [Scanner.next_of_held hheld]
  | none =>
    have hrest := hstands.resolve_left (by simp [hheld])
    obtain ⟨htoken, -, -⟩ := Source.scan_of_rest_nil (Source.lined_of_feed_none h.feed) hrest
    rw [Scanner.next_of_held_none hheld, htoken]

/-- A reader that goes on from a place passes it, or is at the end there. -/
theorem behind_of_front {p : Position} (hfront : c.front ≤ d.front)
    (hreached : c.scanner.held.isSome ∨ c.scanner.source.rest = [] → Behind c.front d)
    (h : Behind p c) : Behind p d := by
  rcases h with hless | ⟨rfl, hstands⟩
  · exact .inl (hless.trans_le hfront)
  · exact hreached hstands

/-- Taking a token goes forward past it, unless it is the end. -/
theorem Placed.next (h : c.Placed) (n : Nat) : c.Onward ⟨c.scanner.next.2, n⟩ ∧
    c.front ≤ c.scanner.next.1.pos ∧ Behind c.scanner.next.1.pos ⟨c.scanner.next.2, n⟩ ∧
      (c.scanner.next.1.kind ≠ .eof → c.scanner.next.1.pos < front ⟨c.scanner.next.2, n⟩) := by
  obtain ⟨hplaced, hheld, hfront, hpassed, hend⟩ := h.next_placed n
  have hreached : front ⟨c.scanner.next.2, n⟩ = c.scanner.next.2.source.pos := by
    rw [front, hheld]
  have htokens := h.tokens_next n
  by_cases hkind : c.scanner.next.1.kind = .eof
  · obtain ⟨hrest, htoken⟩ := hend hkind
    have hpos : c.scanner.next.1.pos = front ⟨c.scanner.next.2, n⟩ := by rw [hreached, htoken]
    have hbehind : Behind c.scanner.next.1.pos ⟨c.scanner.next.2, n⟩ := .inr ⟨hpos, .inr hrest⟩
    have hfront' : c.front ≤ front ⟨c.scanner.next.2, n⟩ := hpos ▸ hfront
    refine ⟨⟨hplaced, hfront', fun p => behind_of_front hfront' fun hstands => ?_, [], ?_⟩, hfront,
      hbehind, fun hne => absurd hkind hne⟩
    · rw [h.pos_next hstands]
      exact hbehind
    · rw [htokens, if_pos hkind, hplaced.tokens_of_rest_nil hheld hrest]
      exact congrArg (fun t => [t]) htoken
  · have hless : c.scanner.next.1.pos < front ⟨c.scanner.next.2, n⟩ := hreached ▸ hpassed hkind
    have hfront' := hfront.trans_lt hless
    refine ⟨⟨hplaced, hfront'.le, fun p => behind_of_front hfront'.le fun _ => .inl hfront',
      [c.scanner.next.1], ?_⟩, hfront, .inl hless, fun _ => hless⟩
    rw [htokens, if_neg hkind]
    rfl

/-- Readers that take the same token and go on alike have the same tokens to come. -/
theorem Placed.tokens_eq (h : c.Placed) (h' : d.Placed) (hnext : c.scanner.next = d.scanner.next) :
    c.tokens = d.tokens := by
  rw [h.tokens_next 0, h'.tokens_next 0, hnext]

/-- Looking at a token goes to it. -/
theorem Placed.peek (h : c.Placed) (n : Nat) : c.Onward ⟨c.scanner.peek.2, n⟩ ∧
    c.scanner.peek.1.pos = front ⟨c.scanner.peek.2, n⟩ := by
  unfold front
  cases hheld : c.scanner.held with
  | some x =>
    rw [Scanner.peek_of_held hheld, hheld]
    exact ⟨h.withConsumed n, rfl⟩
  | none =>
    obtain ⟨hfeed, hpos, hpassed⟩ := Source.scan_forward h.feed
    obtain ⟨-, -, -, -, hend⟩ := Source.scan_split (Source.lined_of_feed_none h.feed)
    have hnext := c.scanner.next_peek
    rw [Scanner.peek_of_held_none hheld] at hnext ⊢
    refine ⟨?_, rfl⟩
    have hplaced : Placed ⟨{ c.scanner with
        source := c.scanner.source.scan.2
        held := some c.scanner.source.scan.1
        log := c.scanner.scan.2.log }, n⟩ := by
      refine ⟨hfeed, ?_, ?_⟩
      · rintro x ⟨⟩
        exact hend
      · rintro x ⟨⟩
        exact hpassed
    have hfront : c.front ≤ c.scanner.source.scan.1.token.pos := by
      rw [front, hheld]
      exact hpos
    refine ⟨hplaced, hfront, fun p => behind_of_front hfront fun hstands => ?_, [],
      h.tokens_eq hplaced hnext.symm⟩
    rw [h.pos_next hstands, Scanner.next_of_held_none hheld]
    exact .inr ⟨rfl, .inl rfl⟩

/-- Looking for the end of the line goes forward over blanks. -/
theorem Placed.atEndOfLine (h : c.Placed) (n : Nat) : c.Onward ⟨c.scanner.atEndOfLine.2, n⟩ := by
  cases hheld : c.scanner.held with
  | some x =>
    have hstays : c.scanner.atEndOfLine.2 = c.scanner := by rw [Scanner.atEndOfLine, hheld]
    rw [hstays]
    exact h.withConsumed n
  | none =>
    have hlined := Source.lined_of_feed_none h.feed
    obtain ⟨-, taken, hrest, hpos⟩ := Source.lineEnd_split hlined
    rw [Scanner.atEndOfLine_of_held_none hheld]
    have hfeed : c.scanner.source.lineEnd.2.feed = none := by
      rw [Source.lineEnd, Source.fill_of_feed_none h.feed]
      exact h.feed
    have hnext := Scanner.next_atEndOfLine hlined
    rw [Scanner.atEndOfLine_of_held_none hheld] at hnext
    have hplaced : Placed ⟨{ c.scanner with source := c.scanner.source.lineEnd.2 }, n⟩ := by
      refine ⟨hfeed, ?_, ?_⟩
      · intro x hx
        cases hheld.symm.trans hx
      · intro x hx
        cases hheld.symm.trans hx
    have hfront : c.front ≤ front ⟨{ c.scanner with source := c.scanner.source.lineEnd.2 }, n⟩ := by
      rw [front, front, hheld]
      dsimp only
      rw [hpos]
      exact Position.le_advanceAll _ taken
    refine ⟨hplaced, hfront, fun p => behind_of_front hfront fun hstands => ?_, [],
      h.tokens_eq hplaced hnext.symm⟩
    rw [hstands.resolve_left (by simp [hheld])] at hrest
    obtain ⟨rfl, hnil⟩ := List.append_eq_nil_iff.mp hrest.symm
    refine .inr ⟨?_, .inr hnil⟩
    rw [front, front, hheld]
    exact hpos.symm

end Cursor

end SymCalc
