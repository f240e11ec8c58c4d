import Mathlib
import SymCalc.Proofs.SourceOrder

/-!
# Looking ahead

A scanner can be asked for the next token, to look at it, and whether the line ends before it, in
any order. Looking takes characters from the source, and looking for the end of the line takes
blanks, or, once a token is held, only reads a note made when it was looked at. Main statement: the
results are those of taking the tokens one after the other, with newlines counted in the text
between where a token ends and where the next one starts.
-/

namespace SymCalc

/-- The position of the character at an index of a text. -/
def Position.ofIndex (cs : List Char) (i : Nat) : Position := advanceAll {} (cs.take i)

/-- A token stands in a text from one index up to another. -/
inductive Token.Occupies (cs : List Char) : Token → Nat → Nat → Prop where
  /-- The end of the input stands behind all characters. -/
  | eof : Occupies cs ⟨.eof, "EOF", .ofIndex cs cs.length⟩ cs.length cs.length
  /-- A word stands where its characters stand. -/
  | word {kind : Kind} {word : List Char} {i : Nat}
      (kinds : kind ∈ [.digit, .identifier, .keyword, .operator, .punctuation])
      (nonempty : word ≠ []) (here : word <+: cs.drop i) :
      Occupies cs ⟨kind, Text.ofChars word, .ofIndex cs i⟩ i (i + word.length)
  /-- A string stands with its quotes, and the quote does not occur inside. -/
  | string {quote : Char} {inside : List Char} {i : Nat} (opens : isQuote quote = true)
      (closes : quote ∉ inside) (here : quote :: inside ++ [quote] <+: cs.drop i) :
      Occupies cs ⟨.string, Text.ofChars inside, .ofIndex cs i⟩ i (i + inside.length + 2)
  /-- A string that is not closed stands up to the end of the input. -/
  | unclosed {quote : Char} {inside : List Char} {i : Nat} (opens : isQuote quote = true)
      (closes : quote ∉ inside) (here : cs.drop i = quote :: inside) :
      Occupies cs ⟨.error, "unterminated string", .ofIndex cs i⟩ i cs.length
  /-- A character that belongs to no word stands alone. -/
  | stray {c : Char} {i : Nat} (here : [c] <+: cs.drop i) :
      Occupies cs ⟨.error, "unrecognized character: " ++ Text.codePoint c, .ofIndex cs i⟩ i (i + 1)

/-- A span that stands at an index is where its token stands. -/
theorem Span.occupies {cs rest span : List Char} {kind : Kind} {text : Text} {i : Nat}
    (h : Span rest kind text span) (here : cs.drop i = span ++ rest) :
    (⟨kind, text, .ofIndex cs i⟩ : Token).Occupies cs i (i + span.length) := by
  cases h with
  | word spelled => exact .word spelled.kind_mem spelled.ne_nil ⟨rest, here.symm⟩
  | @string quote inside opens closes =>
    have hlength : i + (quote :: inside ++ [quote]).length = i + inside.length + 2 := by
      simp [Nat.add_assoc]
    rw [hlength]
    exact .string opens closes ⟨rest, here.symm⟩
  | @unclosed quote inside opens closes ends =>
    rw [ends, List.append_nil] at here
    have hlength := congrArg List.length here
    rw [List.length_drop, List.length_cons] at hlength
    have hend : i + (quote :: inside).length = cs.length := by
      rw [List.length_cons]
      omega
    rw [hend]
    exact .unclosed opens closes here
  | stray => exact .stray ⟨rest, here.symm⟩

namespace Source

variable {cs : List Char} {i : Nat} {s t : Source}

/-- The source of a text stands at an index of it. -/
structure At (cs : List Char) (i : Nat) (s : Source) : Prop where
  /-- All characters are at hand. -/
  feed : s.feed = none
  /-- The index is one of the text, or its end. -/
  le : i ≤ cs.length
  /-- The characters from the index on are still to come. -/
  chars : s.chars = cs.drop i
  /-- The position is that of the index. -/
  pos : s.pos = .ofIndex cs i

/-- The source of a text stands at its start. -/
theorem at_ofText (text : Text) : (ofText text).At (ofText text).chars 0 :=
  ⟨rfl, Nat.zero_le _, rfl, rfl⟩

/-- Passing characters moves on by their number. -/
theorem At.move (hs : s.At cs i) {taken : List Char} (h : s.Passes taken t) :
    t.At cs (i + taken.length) := by
  have hdrop : cs.drop i = taken ++ t.chars := hs.chars.symm.trans h.chars
  have hlength := congrArg List.length hdrop
  rw [List.length_drop, List.length_append] at hlength
  have hle := hs.le
  refine ⟨h.feed, by omega, ?_, ?_⟩
  · rw [← List.drop_drop, hdrop, List.drop_left]
  · rw [h.pos, hs.pos, Position.ofIndex, Position.ofIndex, ← Position.advanceAll_append,
      List.take_add, hdrop, List.take_left]

/-- A source stands at one index only. -/
theorem At.index_eq {j : Nat} (hi : s.At cs i) (hj : s.At cs j) : i = j := by
  have hlength := congrArg List.length (hi.chars.symm.trans hj.chars)
  rw [List.length_drop, List.length_drop] at hlength
  have hle := hi.le
  have hle' := hj.le
  omega

/-- At the end of the characters the index is the length of the text. -/
theorem At.eq_length (hs : s.At cs i) (h : s.chars = []) : i = cs.length :=
  Nat.le_antisymm hs.le (List.drop_eq_nil_iff.mp (hs.chars.symm.trans h))

/-- The next token stands at the index or behind it, and is noted to have a newline before it when
one of the characters passed over is a newline. -/
theorem At.scan (hs : s.At cs i) : ∃ j k, i ≤ j ∧ s.scan.1.token.Occupies cs j k ∧
    s.scan.2.At cs k ∧ s.scan.1.newline = decide ('\n' ∈ (cs.take j).drop i) := by
  obtain ⟨gap, hnewline, hnext⟩ := scan_span hs.feed
  have hgap (after : List Char) (hchars : s.chars = gap ++ after) :
      s.pos.advanceAll gap = .ofIndex cs (i + gap.length) ∧ cs.drop (i + gap.length) = after ∧
        (cs.take (i + gap.length)).drop i = gap := by
    have hmoved := hs.move (t := ⟨after, s.pos.advanceAll gap, none⟩) ⟨rfl, hchars, rfl⟩
    refine ⟨hmoved.pos, hmoved.chars.symm, ?_⟩
    rw [List.drop_take, Nat.add_sub_cancel_left, ← hs.chars, hchars, List.take_left]
  rcases hnext with ⟨htoken, -, hpasses, hend⟩ | ⟨kind, text, span, htoken, -, hspan, hpasses⟩
  · have hmoved := hs.move hpasses
    obtain ⟨hpos, -, htaken⟩ := hgap _ hpasses.chars
    refine ⟨i + gap.length, _, Nat.le_add_right _ _, ?_, hmoved, by rw [htaken, hnewline]⟩
    rw [htoken, hpos, hmoved.eq_length hend]
    exact .eof
  · have hmoved := hs.move hpasses
    rw [List.length_append, ← Nat.add_assoc] at hmoved
    obtain ⟨hpos, hdrop, htaken⟩ := hgap _ (hpasses.chars.trans (List.append_assoc _ _ _))
    refine ⟨i + gap.length, _, Nat.le_add_right _ _, ?_, hmoved, by rw [htaken, hnewline]⟩
    rw [htoken, hpos]
    exact hspan.occupies hdrop

/-- A comment goes up to a newline or to the end. -/
theorem skipChars_comment (cs : List Char) (pos : Position) (newline : Bool) :
    (skipChars true cs pos newline).newline = true ∨
      (skipChars true cs pos newline).chars = [] := by
  induction cs generalizing pos newline with
  | nil => exact .inr rfl
  | cons c cs ih =>
    rw [skipChars]
    by_cases hc : c = '\n'
    · rw [skipChars_newline]
      simp [hc]
    · simpa [hc] using ih (pos.advance c) newline

/-- The line ends here when the next token is the end of the input or has a newline before it. -/
theorem lineEnd_eq (hfeed : s.feed = none) :
    s.lineEnd.1 = (decide (s.scan.1.token.kind = .eof) || s.scan.1.newline) := by
  have hfeed' : s.lineEnd.2.feed = none := by
    rw [lineEnd, fill_of_feed_none hfeed]
    exact hfeed
  have hscan : s.lineEnd.2.scan = s.scan := scan_lineEnd (lined_of_feed_none hfeed)
  cases hends : s.lineEnd.1 with
  | false =>
    obtain ⟨hnewline, hkind⟩ := scan_of_lineEnd_false hends
    rw [hscan] at hnewline hkind
    simp [hnewline, hkind]
  | true =>
    have hstops := chars_of_lineEnd_true (lined_of_feed_none hfeed) hends
    rw [rest_of_feed_none hfeed'] at hstops
    rw [← hscan, scan, Scanner.skip_of_feed_none hfeed', lex_newline _ _ false]
    generalize s.lineEnd.2 = t at hstops
    -- A newline is noted, and a comment ends at one, or with the text.
    have hskipped : (skipChars false t.chars t.pos false).newline = true ∨
        (skipChars false t.chars t.pos false).chars = [] := by
      rcases hstops with hnil | ⟨c, cs, hcs, rfl | rfl⟩
      · rw [hnil]
        exact .inr rfl
      · have hskip : skipChars false ('\n' :: cs) t.pos false =
            skipChars false cs (t.pos.advance '\n') true := rfl
        rw [hcs, hskip, skipChars_newline]
        exact .inl rfl
      · rw [hcs, skipChars, if_pos rfl]
        exact skipChars_comment cs _ false
    rcases hskipped with hnewline | hnil
    · simp [hnewline]
    · simp [Source.lex, hnil]

end Source

namespace Scanner

/-- What a scanner is asked. -/
inductive Call where
  /-- Take the next token. -/
  | next
  /-- Look at the next token. -/
  | peek
  /-- Look for the end of the line. -/
  | atEndOfLine
  deriving DecidableEq, Repr

/-- What a scanner answers. -/
inductive Result where
  /-- A token. -/
  | token (t : Token)
  /-- Whether the line ends. -/
  | lineEnds (b : Bool)
  deriving DecidableEq

/-- Answers one call. -/
def serve (s : Scanner) : Call → Result × Scanner
  | .next => (.token s.next.1, s.next.2)
  | .peek => (.token s.peek.1, s.peek.2)
  | .atEndOfLine => (.lineEnds s.atEndOfLine.1, s.atEndOfLine.2)

/-- Answers calls one after the other. -/
def results (s : Scanner) : List Call → List Result
  | [] => []
  | call :: calls => (s.serve call).1 :: (s.serve call).2.results calls

/-- The scanner after so many tokens were taken and nothing else was asked. -/
def taken (s : Scanner) : Nat → Scanner
  | 0 => s
  | k + 1 => (s.taken k).next.2

/-- The token with a number, counted from zero, of those that are taken one after the other. -/
def nth (s : Scanner) (k : Nat) : Token := (s.taken k).next.1

/-- The tokens of a text stand one after the other: each from its start on to an end, and not
before the end of the one before it. -/
structure Laid (cs : List Char) (token : Nat → Token) (starts ends : Nat → Nat) : Prop where
  /-- The first token may stand at the start of the text. -/
  zero : ends 0 = 0
  /-- A token starts where the one before it ends, or further on. -/
  le : ∀ k, ends k ≤ starts k
  /-- A token stands between its start and its end. -/
  occupies : ∀ k, (token k).Occupies cs (starts k) (ends (k + 1))

/-- What calls are answered after so many tokens were taken, in terms of the tokens and of where
they stand in the text: a token is taken or looked at, and the line ends when the token is the end
of the input or a newline stands between the end of the one before and its start. -/
def promised (cs : List Char) (token : Nat → Token) (starts ends : Nat → Nat) :
    Nat → List Call → List Result
  | _, [] => []
  | k, .next :: calls => .token (token k) :: promised cs token starts ends (k + 1) calls
  | k, .peek :: calls => .token (token k) :: promised cs token starts ends k calls
  | k, .atEndOfLine :: calls =>
    .lineEnds ((token k).kind = .eof ∨ '\n' ∈ (cs.take (starts k)).drop (ends k)) ::
      promised cs token starts ends k calls

variable {s : Scanner} {o : Source}

/-- A scanner has taken all tokens before those of a source. It may have passed over blanks, or it
holds the first token of the source. -/
structure Stands (o : Source) (s : Scanner) : Prop where
  /-- All characters are at hand. -/
  feed : s.source.feed = none
  /-- What the scanner reads next is what the source reads next, unless it has been read. -/
  ahead : s.held = none ∧ s.source.scan = o.scan ∨
    s.held = some o.scan.1 ∧ s.source = o.scan.2

/-- A scanner that has not looked ahead stands at its source. -/
theorem stands_of_held_none (hfeed : s.source.feed = none) (hheld : s.held = none) :
    s.Stands s.source :=
  ⟨hfeed, .inl ⟨hheld, rfl⟩⟩

/-- The next token is taken, and then the scanner stands behind it. -/
theorem Stands.next (h : s.Stands o) :
    s.next.1 = o.scan.1.token ∧ s.next.2.Stands o.scan.2 ∧ s.next.2.held = none := by
  rcases h.ahead with ⟨hheld, hscan⟩ | ⟨hheld, hsource⟩
  · have hfeed := (Source.scan_forward h.feed).1
    rw [next_of_held_none hheld]
    rw [hscan] at hfeed ⊢
    exact ⟨rfl, ⟨hfeed, .inl ⟨rfl, rfl⟩⟩, rfl⟩
  · rw [next_of_held hheld]
    exact ⟨rfl, ⟨h.feed, .inl ⟨rfl, congrArg Source.scan hsource⟩⟩, rfl⟩

/-- The next token is looked at, and the scanner stands before it. -/
theorem Stands.peek (h : s.Stands o) : s.peek.1 = o.scan.1.token ∧ s.peek.2.Stands o := by
  rcases h.ahead with ⟨hheld, hscan⟩ | ⟨hheld, hsource⟩
  · have hfeed := (Source.scan_forward h.feed).1
    rw [peek_of_held_none hheld]
    rw [hscan] at hfeed ⊢
    exact ⟨rfl, hfeed, .inr ⟨rfl, rfl⟩⟩
  · rw [peek_of_held hheld]
    exact ⟨rfl, h⟩

/-- Whether the line ends depends on the next token only, and the scanner stands before it. -/
theorem Stands.atEndOfLine (h : s.Stands o) :
    s.atEndOfLine.1 = (decide (o.scan.1.token.kind = .eof) || o.scan.1.newline) ∧
      s.atEndOfLine.2.Stands o := by
  rcases h.ahead with ⟨hheld, hscan⟩ | ⟨hheld, hsource⟩
  · rw [atEndOfLine_of_held_none hheld, Source.lineEnd_eq h.feed, hscan]
    have hfeed : s.source.lineEnd.2.feed = none := by
      rw [Source.lineEnd, Source.fill_of_feed_none h.feed]
      exact h.feed
    have hsame := Source.scan_lineEnd (Source.lined_of_feed_none h.feed)
    exact ⟨rfl, hfeed, .inl ⟨hheld, hsame.trans hscan⟩⟩
  · rw [Scanner.atEndOfLine, hheld]
    exact ⟨rfl, h⟩

/-- Calls are answered by the tokens that sources give one after the other, if their newlines are
those of the text. -/
theorem Stands.results {cs : List Char} (sources : Nat → Source) {starts ends : Nat → Nat}
    (hnext : ∀ k, (sources k).scan.2 = sources (k + 1))
    (hnewline : ∀ k, (sources k).scan.1.newline =
      decide ('\n' ∈ (cs.take (starts k)).drop (ends k))) {k : Nat} (h : s.Stands (sources k))
    (calls : List Call) :
    s.results calls = promised cs (fun k => (sources k).scan.1.token) starts ends k calls := by
  induction calls generalizing s k with
  | nil => rfl
  | cons call calls ih =>
    cases call with
    | next =>
      obtain ⟨htoken, hstands, -⟩ := h.next
      rw [hnext] at hstands
      rw [Scanner.results, promised, serve, ih hstands, htoken]
    | peek =>
      obtain ⟨htoken, hstands⟩ := h.peek
      rw [Scanner.results, promised, serve, ih hstands, htoken]
    | atEndOfLine =>
      obtain ⟨hends, hstands⟩ := h.atEndOfLine
      rw [Scanner.results, promised, serve, ih hstands, hends, hnewline, Bool.decide_or]

/-- A scanner that takes tokens and does nothing else holds none, and goes from source to source. -/
theorem taken_spec (hfeed : s.source.feed = none) (hheld : s.held = none) (k : Nat) :
    (s.taken k).source.feed = none ∧ (s.taken k).held = none ∧
      s.nth k = (s.taken k).source.scan.1.token ∧
      (s.taken k).source.scan.2 = (s.taken (k + 1)).source := by
  have hkept : (s.taken k).source.feed = none ∧ (s.taken k).held = none := by
    induction k with
    | zero => exact ⟨hfeed, hheld⟩
    | succ k ih =>
      obtain ⟨-, hstands, hnone⟩ := (stands_of_held_none ih.1 ih.2).next
      exact ⟨hstands.feed, hnone⟩
  refine ⟨hkept.1, hkept.2, ?_, ?_⟩
  · exact (stands_of_held_none hkept.1 hkept.2).next.1
  · rw [taken, next_of_held_none hkept.2]

end Scanner

/-- Lookahead is transparent. The tokens that a scanner of a text gives when they are taken one
after the other stand in the text one after the other, and all calls, in any order and number, are
answered by them: the token with the next number is taken or looked at, and the line ends before
it when it is the end of the input or a newline stands in the text between the end of the token
taken last and its start, be it looked at or not. -/
theorem lookahead_transparent (text name log : Text) (logTokens : Bool) :
    let s : Scanner := { source := .ofText text, name := name, logTokens := logTokens, log := log }
    let cs := (Source.ofText text).chars
    ∃ starts ends, Scanner.Laid cs s.nth starts ends ∧
      ∀ calls, s.results calls = Scanner.promised cs s.nth starts ends 0 calls := by
  intro s cs
  have hspec := Scanner.taken_spec (s := s) rfl rfl
  have hat : ∀ k, ∃ i, (s.taken k).source.At cs i := by
    intro k
    induction k with
    | zero => exact ⟨0, Source.at_ofText text⟩
    | succ k ih =>
      obtain ⟨i, hi⟩ := ih
      obtain ⟨-, j, -, -, hj, -⟩ := hi.scan
      rw [(hspec k).2.2.2] at hj
      exact ⟨j, hj⟩
  choose ends hends using hat
  have hscan : ∀ k, ∃ j, ends k ≤ j ∧ (s.nth k).Occupies cs j (ends (k + 1)) ∧
      (s.taken k).source.scan.1.newline = decide ('\n' ∈ (cs.take j).drop (ends k)) := by
    intro k
    obtain ⟨j, i, hle, hoccupies, hi, hnewline⟩ := (hends k).scan
    rw [(hspec k).2.2.2] at hi
    rw [← (hspec k).2.2.1, hi.index_eq (hends (k + 1))] at hoccupies
    exact ⟨j, hle, hoccupies, hnewline⟩
  choose starts hstarts using hscan
  have hzero : ends 0 = 0 := (hends 0).index_eq (Source.at_ofText text)
  refine ⟨starts, ends, ⟨hzero, fun k => (hstarts k).1, fun k => (hstarts k).2.1⟩, fun calls => ?_⟩
  have hfirst : s.Stands (s.taken 0).source := Scanner.stands_of_held_none rfl rfl
  have hresults := hfirst.results (fun k => (s.taken k).source) (fun k => (hspec k).2.2.2)
    (fun k => (hstarts k).2.2) calls
  have htokens : s.nth = fun k => (s.taken k).source.scan.1.token :=
    funext fun k => (hspec k).2.2.1
  rw [hresults, htokens]

-- The line ends after a comment, also once the string is looked at, and not inside the string.
example : Scanner.results { source := .ofText "a # b\n\"c\n\" d" }
      [.atEndOfLine, .next, .atEndOfLine, .peek, .atEndOfLine, .next, .atEndOfLine, .next,
        .atEndOfLine] =
    [.lineEnds false, .token ⟨.identifier, "a", ⟨1, 1⟩⟩, .lineEnds true,
      .token ⟨.string, "c\n", ⟨2, 1⟩⟩, .lineEnds true, .token ⟨.string, "c\n", ⟨2, 1⟩⟩,
      .lineEnds false, .token ⟨.identifier, "d", ⟨3, 3⟩⟩, .lineEnds true] := by
  decide +kernel

end SymCalc
