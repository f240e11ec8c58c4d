import Mathlib
import SymCalc.Proofs.LinesAsked
import SymCalc.Proofs.Conversation

/-!
# Requests for lines

After its last token a reader may look for an operator, an opening parenthesis or the end of a row,
and it does so on the line only: this is what the contract of this module asks. Main statement: when
a statement was read in a conversation, the lines asked for are those that it took to come to its
last token, so that the statement is evaluated and its value printed before a further line is asked
for.
-/

namespace SymCalc

open Scanner (Looked)

variable {M : Type} [Numeric M] {o c : Cursor} {onLine : Bool} {k : Nat}

namespace Cursor

/-- A reader has taken so many tokens since the start, none of them the end of the input, and
has gone no further than to look at the next one. -/
structure Took (o : Cursor) (onLine : Bool) (k : Nat) (c : Cursor) : Prop where
  /-- There are no quotes. -/
  tidy : o.scanner.Tidy
  /-- The tokens are counted. -/
  consumed : c.consumed = o.consumed + k
  /-- The reader has gone no further than to look at the next token. -/
  looked : Looked onLine (o.scanner.taken k) c.scanner

/-- A reader has taken some tokens since the start, and has gone no further than to look at the
next one. -/
structure Stopped (o c : Cursor) : Prop where
  /-- There are no quotes. -/
  tidy : o.scanner.Tidy
  /-- The reader has gone no further than to look at the next token. -/
  looked : ∃ k, Looked false (o.scanner.taken k) c.scanner

/-- A reader may stop wherever it is. -/
theorem Took.stopped (h : o.Took onLine k c) : o.Stopped c := ⟨h.tidy, k, h.looked.any⟩

/-- The scanners that take tokens have lines. -/
theorem lined_taken (h : o.scanner.Tidy) (k : Nat) : (o.scanner.taken k).source.Lined :=
  ((Scanner.GoesTo.taken o.scanner k).tidy h).lined

/-- A reader takes one more token. -/
theorem Took.next (h : o.Took onLine k c) :
    o.Took true (k + 1) ⟨c.scanner.next.2, c.consumed + 1⟩ := by
  refine ⟨h.tidy, by rw [h.consumed, Nat.add_assoc], ?_⟩
  rw [h.looked.next (lined_taken h.tidy k)]
  exact .here

/-- A reader looks at a token, wherever it stands. -/
theorem Took.peek (h : o.Took onLine k c) : o.Took false k ⟨c.scanner.peek.2, c.consumed⟩ := by
  refine ⟨h.tidy, h.consumed, ?_⟩
  rw [h.looked.peek (lined_taken h.tidy k)]
  exact .token fun hfalse => nomatch hfalse

/-- A reader looks for the end of the line. -/
theorem Took.atEndOfLine (h : o.Took onLine k c) :
    o.Took onLine k ⟨c.scanner.atEndOfLine.2, c.consumed⟩ :=
  ⟨h.tidy, h.consumed, (h.looked.atEndOfLine (lined_taken h.tidy k)).1⟩

/-- A reader looks at a token that stands on the line. -/
theorem Took.look (h : o.Took true k c) (hends : c.scanner.atEndOfLine.1 = false) :
    o.Took true k ⟨c.scanner.atEndOfLine.2.peek.2, c.consumed⟩ := by
  obtain ⟨hlooked, hline⟩ := h.looked.atEndOfLine (lined_taken h.tidy k)
  refine ⟨h.tidy, h.consumed, ?_⟩
  rw [hlooked.peek (lined_taken h.tidy k)]
  exact .token (hline hends)

/-- A reader that takes one more token stops behind it. -/
theorem Stopped.next (h : o.Stopped c) (n : Nat) : o.Stopped ⟨c.scanner.next.2, n⟩ := by
  obtain ⟨k, hlooked⟩ := h.looked
  refine ⟨h.tidy, k + 1, ?_⟩
  rw [hlooked.next (lined_taken h.tidy k)]
  exact .here

/-- A reader that stops has gone on from the start. -/
theorem Stopped.goesTo (h : o.Stopped c) : o.scanner.GoesTo c.scanner := by
  obtain ⟨k, hlooked⟩ := h.looked
  exact (Scanner.GoesTo.taken o.scanner k).trans hlooked.goesTo

/-- No line is asked for after the last token. -/
theorem Took.feed_eq (h : o.Took true k c) (hk : 0 < k) :
    c.scanner.source.feed = (o.scanner.taken k).source.feed := by
  cases k with
  | zero => exact absurd hk (Nat.lt_irrefl 0)
  | succ j =>
    obtain ⟨htidy, hheld, hsettled⟩ := ((Scanner.GoesTo.taken o.scanner j).tidy h.tidy).next
    exact h.looked.feed_eq htidy hheld hsettled

/-- Looking further on the line only is lawful. -/
theorem onLine_lawful (o : Cursor) : Contract.SingleLawful M 0
    (fun near taken => o.Took near taken.length) (fun _ => o.Stopped) where
  mayFail h _ _ := h.stopped
  fails_next h _ := h.stopped.next _
  next {near taken c} h _ := by
    rw [List.length_append, List.length_singleton]
    exact h.next
  fails_peek h _ := h.peek.stopped
  peek h := h.peek
  atEndOfLine h := h.atEndOfLine
  look h hends := h.look hends
  giveUp h := Parse.skipMatrixWithin_keeps (fun _ hc => hc.next _) _ _ h.stands.stopped

/-- Skipping the rest of a line goes on. -/
theorem skipLineWithin_goesTo (tokens : Nat) (c : Cursor) :
    c.scanner.GoesTo (c.skipLineWithin tokens).scanner := by
  induction tokens generalizing c with
  | zero => exact .refl c.scanner
  | succ tokens ih =>
    have hends := Scanner.GoesTo.atEndOfLine c.scanner
    rw [skipLineWithin]
    dsimp only
    split
    · exact hends
    · have hnext := Scanner.GoesTo.next c.scanner.atEndOfLine.2
      exact hends.trans (hnext.trans (ih ⟨c.scanner.atEndOfLine.2.next.2, c.consumed⟩))

/-- Getting past an error goes on. -/
theorem resync_goesTo (start : Nat) (c : Cursor) : c.scanner.GoesTo (c.resync start).scanner := by
  unfold resync
  dsimp only
  split
  · exact (Scanner.GoesTo.next c.scanner).trans
      (skipLineWithin_goesTo _ ⟨c.scanner.next.2, c.consumed⟩)
  · exact skipLineWithin_goesTo _ c

/-- Reading a statement goes on, and asks for the lines up to its last token, if it succeeds. -/
theorem statement_goesTo (settings : Settings) (h : c.scanner.Tidy) :
    let read := c.statement (M := M) settings
    c.scanner.GoesTo read.2.scanner ∧ ∀ e, read.1 = .ok e →
      ∃ k, 0 < k ∧ read.2.consumed = c.consumed + k ∧
        read.2.scanner.source.feed = (c.scanner.taken k).source.feed := by
  have hparse := (onLine_lawful c).statementWithin (M := M) (n := c.scanner.size) (Nat.succ_pos _)
    false ⟨h, rfl, .here⟩
  unfold Cursor.statement Cursor.parse
  cases hread : (Parse.statementWithin c.scanner.size false : Parse (Expr M)) c with
  | ok e d =>
    rw [hread] at hparse
    obtain ⟨taken, -, hne, htook, -⟩ := hparse
    have hpos := List.length_pos_iff.mpr hne
    have hfeed := htook.feed_eq hpos
    dsimp only
    split
    · exact ⟨htook.stopped.goesTo.trans (.withLog d.scanner _),
        fun _ _ => ⟨taken.length, hpos, htook.consumed, hfeed⟩⟩
    · exact ⟨htook.stopped.goesTo, fun _ _ => ⟨taken.length, hpos, htook.consumed, hfeed⟩⟩
  | error err d =>
    rw [hread] at hparse
    refine ⟨hparse.goesTo.trans (resync_goesTo c.consumed d), fun e he => ?_⟩
    cases he

end Cursor

namespace Progress

variable {settings : Settings} {interactive : Bool} {p q : Progress M}

omit [Numeric M] in
/-- Going on from a cursor changes the log only. -/
theorem moveTo_goesTo (p : Progress M) (c : Cursor) :
    c.scanner.GoesTo (p.moveTo c).cursor.scanner :=
  .withLog c.scanner ""

omit [Numeric M] in
/-- Taking note of an error goes on. -/
theorem reject_goesTo (settings : Settings) (interactive : Bool) (p : Progress M)
    (e : SyntaxError) :
    p.cursor.scanner.GoesTo (p.reject settings interactive e).cursor.scanner := by
  unfold reject
  split
  · exact .refl p.cursor.scanner
  · dsimp only
    split
    · exact .discard p.cursor.scanner
    · exact .refl p.cursor.scanner

/-- A round goes on. -/
theorem step_goesTo (settings : Settings) (interactive : Bool) (h : p.cursor.scanner.Tidy) :
    p.cursor.scanner.GoesTo (p.step settings interactive).cursor.scanner := by
  have hread := (p.cursor.statement_goesTo (M := M) settings h).1
  have hmoved := hread.trans (p.moveTo_goesTo (p.cursor.statement (M := M) settings).2)
  unfold step
  dsimp only
  cases (p.cursor.statement (M := M) settings).1 with
  | ok e =>
    dsimp only
    rw [cursor_evaluate]
    exact hmoved
  | error e => exact hmoved.trans (reject_goesTo settings interactive _ e)

omit [Numeric M] in
/-- Looking for the end of the input goes on. -/
theorem atEnd_goesTo (p : Progress M) :
    p.cursor.scanner.GoesTo (p.moveTo p.cursor.atEnd.2).cursor.scanner :=
  (Scanner.GoesTo.peek p.cursor.scanner).trans (p.moveTo_goesTo p.cursor.atEnd.2)

/-- A round with the look for the end before it goes on. -/
theorem round_goesTo (p : Progress M) (settings : Settings) (interactive : Bool)
    (h : p.cursor.scanner.Tidy) : p.cursor.scanner.GoesTo
      ((p.moveTo p.cursor.atEnd.2).step settings interactive).cursor.scanner :=
  p.atEnd_goesTo.trans (step_goesTo settings interactive (p.atEnd_goesTo.tidy h))

/-- A run goes on from round to round. -/
theorem Reads.goesTo (h : Reads settings interactive p q) (hp : p.cursor.scanner.Tidy) :
    p.cursor.scanner.GoesTo q.cursor.scanner := by
  induction h with
  | @now p more => exact p.atEnd_goesTo
  | @later p q more goes rest ih =>
    have hround := p.round_goesTo settings interactive hp
    exact hround.trans (ih (hround.tidy hp))

/-- A run of any number of rounds goes on. -/
theorem loopWithin_goesTo (settings : Settings) (interactive : Bool) (rounds : Nat)
    (hp : p.cursor.scanner.Tidy) :
    p.cursor.scanner.GoesTo (p.loopWithin settings interactive rounds).cursor.scanner := by
  induction rounds generalizing p with
  | zero => exact .refl p.cursor.scanner
  | succ rounds ih =>
    have hround := p.round_goesTo settings interactive hp
    rw [loopWithin]
    dsimp only
    split
    · exact p.atEnd_goesTo
    · split
      · exact hround
      · exact hround.trans (ih (hround.tidy hp))

/-- The value of a statement is printed in its round. -/
theorem out_step {e : Expr M} (hread : (p.cursor.statement settings).1 = .ok e) {v : Value M}
    {m : Machine M} (hrun : p.machine.runStatement settings.maxDepth e = (.value v, m)) :
    ∃ log, (p.step settings interactive).out = p.out ++ log ++ printed settings v := by
  have hran : (p.moveTo (p.cursor.statement (M := M) settings).2).machine.runStatement
      settings.maxDepth e = (.value v, m) := hrun
  rw [step_of_ok interactive hread, evaluate_of_runStatement hran]
  dsimp only [moveTo]
  split
  · exact ⟨_ ++ timeLine, by rw [← ByteArray.append_assoc]⟩
  · exact ⟨_, rfl⟩

end Progress

/-- A conversation asks only for lines that it needs. Where no line has a quote or a line feed
in it, whatever statement a conversation reads, the statement is evaluated and its value is printed
before a line is asked for that is not needed: when all of this is done, the lines asked for are
those asked for by a scanner that takes the tokens of the statement and does nothing else. From one
round to the next, and up to the end of the conversation, lines are asked for only when no character
is left of the line before, its line feed included. -/
theorem conversation_asks_only_for_needed_lines (settings : Settings) {lines : List Line}
    (hlines : ∀ line ∈ lines, line.Unquoted) (env : Env M) :
    (∀ p, Progress.Reads settings true (.atStart settings (.ofLines lines) env) p →
      Source.Steps (.ofLines lines) p.cursor.scanner.source ∧
      p.cursor.scanner.source.Steps (p.step settings true).cursor.scanner.source ∧
      ∀ e, (p.cursor.statement settings).1 = .ok e →
        p.step settings true =
          (p.moveTo (p.cursor.statement (M := M) settings).2).evaluate settings true e ∧
        (∀ v m, p.machine.runStatement settings.maxDepth e = (.value v, m) →
          ∃ log, (p.step settings true).out = p.out ++ log ++ printed settings v) ∧
        ∃ k, 0 < k ∧ (p.step settings true).cursor.consumed = p.cursor.consumed + k ∧
          (p.step settings true).cursor.scanner.source.feed =
            (p.cursor.scanner.taken k).source.feed) ∧
    Source.Steps (.ofLines lines) (converse settings lines env).cursor.scanner.source := by
  have hstart := Scanner.tidy_start hlines settings ""
  refine ⟨fun p hp => ?_, ?_⟩
  · have hgoes := hp.goesTo hstart
    have htidy := hgoes.tidy hstart
    refine ⟨hgoes.steps, (Progress.step_goesTo settings true htidy).steps, fun e hread => ?_⟩
    have hstep := Progress.step_of_ok true hread
    refine ⟨hstep, fun v m hrun => Progress.out_step hread hrun, ?_⟩
    rw [hstep, Progress.cursor_evaluate]
    exact (p.cursor.statement_goesTo settings htidy).2 e hread
  · let p : Progress M := .atStart settings (.ofLines lines) env
    exact (p.loopWithin_goesTo settings true p.cursor.scanner.size hstart).steps

/-- A sum that goes on over a comment takes two lines. Its value is printed when two have been asked
for, and the third is still to come. -/
theorem sum_over_two_lines_printed :
    let lines : List Line := [some "4 + # more", some "5 ", some "6"]
    (∀ line ∈ lines, line.Unquoted) ∧
      ∃ p : Progress ℚ, Progress.Reads {} true (.atStart {} (.ofLines lines) {}) p ∧
        (∃ e : Expr ℚ, (p.cursor.statement {}).1 = .ok e) ∧
        (∃ k, 0 < k ∧ (p.step {} true).cursor.consumed = p.cursor.consumed + k ∧
          (p.step {} true).cursor.scanner.source.feed =
            (p.cursor.scanner.taken k).source.feed) ∧
        (p.step {} true).cursor.scanner.source.feed.map (fun f => (f.asked, f.lines)) =
          some (2, lines.drop 2) ∧
        (p.step {} true).out = "9\n" := by
  intro lines
  have hlines : ∀ line ∈ lines, line.Unquoted := by decide +kernel
  let start : Progress ℚ := .atStart {} (.ofLines lines) {}
  let p := start.moveTo start.cursor.atEnd.2
  have hp : Progress.Reads {} true start p := .now (by decide +kernel)
  have hread : (p.cursor.statement (M := ℚ) {}).1.isOk = true := by decide +kernel
  obtain ⟨e, he⟩ : ∃ e : Expr ℚ, (p.cursor.statement {}).1 = .ok e := by
    cases hresult : (p.cursor.statement (M := ℚ) {}).1 with
    | ok e => exact ⟨e, rfl⟩
    | error err =>
      rw [hresult] at hread
      cases hread
  obtain ⟨hrounds, -⟩ := conversation_asks_only_for_needed_lines (M := ℚ) {} hlines {}
  exact ⟨hlines, p, hp, ⟨e, he⟩, ((hrounds p hp).2.2 e he).2.2, by decide +kernel,
    by decide +kernel⟩

end SymCalc
