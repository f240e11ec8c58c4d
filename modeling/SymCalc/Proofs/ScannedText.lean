import Mathlib
import SymCalc.Proofs.Lookahead

/-!
# The tokens of a text

Taking tokens from a text until it ends goes through the whole text: every character belongs to the
span of one token, or to a gap before one. Main statement: the text is a gap and a span in turn, one
span for each token, with a last gap before the end, and each token has the position of the first
character of its span.
-/

namespace SymCalc

/-- The tokens, through the end, of the characters that come behind others in a text. -/
inductive Tokenised : (before rest : List Char) → List Token → Prop where
  /-- Only a gap is left. -/
  | eof {before gap : List Char} (skipped : Gap [] gap) :
      Tokenised before gap [⟨.eof, "EOF", .behind (before ++ gap)⟩]
  /-- A gap, the span of the first token, and what the other tokens stand for. -/
  | token {before gap span rest : List Char} {kind : Kind} {text : Text} {tokens : List Token}
      (skipped : Gap (span ++ rest) gap) (stands : Span rest kind text span)
      (more : Tokenised (before ++ gap ++ span) rest tokens) :
      Tokenised before (gap ++ span ++ rest) (⟨kind, text, .behind (before ++ gap)⟩ :: tokens)

namespace Scanner

variable {s : Scanner} {before : List Char}

/-- Taking one token and then some is taking one more. -/
theorem taken_next (s : Scanner) (k : Nat) : s.next.2.taken k = s.taken (k + 1) := by
  induction k with
  | zero => rfl
  | succ k ih => rw [taken, ih, ← taken]

/-- The tokens behind the first one. -/
theorem nth_next (s : Scanner) (k : Nat) : s.next.2.nth k = s.nth (k + 1) := by
  rw [nth, nth, taken_next]

/-- The first tokens are the first one and the first of those behind it. -/
theorem map_nth_range (s : Scanner) (n : Nat) :
    (List.range (n + 1)).map s.nth = s.nth 0 :: (List.range n).map s.next.2.nth := by
  rw [List.range_succ_eq_map, List.map_cons, List.map_map]
  congr 1
  exact List.map_congr_left fun k _ => (s.nth_next k).symm

/-- The first token is the next one of the source, and the scanner then stands behind it. -/
theorem next_spec (hfeed : s.source.feed = none) (hheld : s.held = none) :
    s.nth 0 = s.source.scan.1.token ∧ s.source.scan.2 = s.next.2.source ∧
      s.next.2.source.feed = none ∧ s.next.2.held = none := by
  obtain ⟨-, -, hfirst, hsource⟩ := taken_spec hfeed hheld 0
  obtain ⟨hfeed, hheld, -, -⟩ := taken_spec hfeed hheld 1
  exact ⟨hfirst, hsource, hfeed, hheld⟩

/-- Taking tokens leads to the end with at most one token for each character, and the tokens taken
are those of all characters. -/
theorem tokenised_chars (hfeed : s.source.feed = none) (hheld : s.held = none)
    (hpos : s.source.pos = .behind before) :
    ∃ n ≤ s.source.chars.length,
      Tokenised before s.source.chars ((List.range (n + 1)).map s.nth) := by
  -- Each token that is not the end takes a character at least.
  induction hlength : s.source.chars.length using Nat.strong_induction_on
    generalizing s before with
  | _ length ih =>
    obtain ⟨hfirst, hsource, hfeed', hheld'⟩ := next_spec hfeed hheld
    obtain ⟨gap, -, hnext⟩ := Source.scan_span hfeed
    rw [hsource, hpos, Position.advanceAll_behind, ← hfirst] at hnext
    rcases hnext with ⟨htoken, hgap, hpasses, hend⟩ |
      ⟨kind, text, span, htoken, hgap, hspan, hpasses⟩
    · refine ⟨0, Nat.zero_le _, ?_⟩
      rw [map_nth_range, htoken, hpasses.chars, hend, List.append_nil]
      exact .eof hgap
    · have hchars := congrArg List.length hpasses.chars
      have hspanned := List.length_pos_iff.mpr hspan.ne_nil
      rw [List.length_append, List.length_append] at hchars
      have hbehind : s.next.2.source.pos = .behind (before ++ gap ++ span) := by
        rw [hpasses.pos, hpos, Position.advanceAll_behind, List.append_assoc]
      obtain ⟨n, hn, hmore⟩ := ih _ (by omega) hfeed' hheld' hbehind rfl
      refine ⟨n + 1, by omega, ?_⟩
      rw [map_nth_range, htoken, hpasses.chars]
      exact .token hgap hspan hmore

end Scanner

/-- Nothing is lost and nothing is invented. A scanner of a text, from which tokens are taken
one after the other, comes to the end of the text, with at most one token for each character before
it. The tokens stand one after the other for spans of the text without carriage returns, and only
blanks, newlines and comments stand before, between and behind the spans. -/
theorem tokens_cover_text (text name log : Text) (logTokens : Bool) :
    let s : Scanner := { source := .ofText text, name := name, logTokens := logTokens, log := log }
    let cs := text.chars.filter (· ≠ '\r')
    ∃ n ≤ cs.length, Tokenised [] cs ((List.range (n + 1)).map s.nth) := by
  intro s cs
  exact Scanner.tokenised_chars (s := s) rfl rfl rfl

-- A number takes the point behind it, a backquote stands alone, and a quote is never closed.
example : (List.range 7).map (Scanner.nth { source := .ofText "2.`+x # 'y\n $'z" }) =
    [⟨.digit, "2.", ⟨1, 1⟩⟩, ⟨.operator, "`", ⟨1, 3⟩⟩, ⟨.operator, "+", ⟨1, 4⟩⟩,
      ⟨.identifier, "x", ⟨1, 5⟩⟩, ⟨.error, "unrecognized character: U+0024 '$'", ⟨2, 2⟩⟩,
      ⟨.error, "unterminated string", ⟨2, 3⟩⟩, ⟨.eof, "EOF", ⟨2, 5⟩⟩] := by
  decide +kernel

end SymCalc
