import Mathlib
import SymCalc.Proofs.Composition
import SymCalc.Proofs.SourceOrder

/-!
# The order of what is read

The contract of this module asks that a reader goes forward in the source and stays behind the
tokens that it has taken. So a statement stands where its reading started or further on, and before
the place where its reading stopped. Main statement: a text is read to its end by finitely many
statements and errors, each of which takes tokens and stands behind the one before; nothing of the
line is left after an error.
-/

namespace SymCalc

open Cursor

namespace Cursor

variable {M : Type} [Numeric M] {c d : Cursor} {settings : Settings}

/-- A reader has gone forward from its start, and what it has taken lies between. -/
structure PassedOver (o : Cursor) (taken : List Token) (c : Cursor) : Prop where
  /-- It has gone forward. -/
  onward : o.Onward c
  /-- The tokens stand between its start and where it stands. -/
  between : ∀ t ∈ taken, o.front ≤ t.pos ∧ t.pos < c.front

/-- Tokens stay behind a reader that goes forward. -/
theorem PassedOver.trans {o : Cursor} {taken : List Token} (h : o.PassedOver taken c)
    (hd : c.Onward d) : o.PassedOver taken d :=
  ⟨h.onward.trans hd, fun t ht => ⟨(h.between t ht).1, (h.between t ht).2.trans_le hd.front⟩⟩

/-- A reader may fail where it stands, at a token that it has come to. -/
structure FailsBehind (o : Cursor) (err : SyntaxError) (c : Cursor) : Prop where
  /-- It has gone forward. -/
  onward : o.Onward c
  /-- The token does not stand before its start. -/
  front : o.front ≤ err.pos
  /-- It has come to the token. -/
  behind : Behind err.pos c

/-- Going forward is lawful. -/
theorem forward_lawful (o : Cursor) :
    Contract.SingleLawful M 0 (fun _ taken => o.PassedOver taken) o.FailsBehind where
  mayFail h hmem _ := ⟨h.onward, (h.between _ hmem).1, .inl (h.between _ hmem).2⟩
  fails_next {near taken c fault} h _ := by
    obtain ⟨honward, hfront, hbehind, -⟩ := h.onward.placed.next (c.consumed + 1)
    rw [Scanner.next_fst] at hfront hbehind
    exact ⟨h.onward.trans honward, h.onward.front.trans hfront, hbehind⟩
  next {near taken c} h hkind := by
    obtain ⟨honward, hfront, -, hpassed⟩ := h.onward.placed.next (c.consumed + 1)
    rw [Scanner.next_fst] at hfront hpassed
    exact ⟨h.onward.trans honward, List.forall_mem_append.mpr ⟨(h.trans honward).between,
      List.forall_mem_singleton.mpr ⟨h.onward.front.trans hfront, hpassed hkind⟩⟩⟩
  fails_peek {near taken c fault} h _ := by
    obtain ⟨honward, hpos⟩ := h.onward.placed.peek c.consumed
    obtain ⟨x, hx, -⟩ := c.scanner.held_peek
    have honward := h.onward.trans honward
    exact ⟨honward, hpos ▸ honward.front, .inr ⟨hpos, .inl (by rw [hx]; rfl)⟩⟩
  peek {near taken c} h := h.trans (h.onward.placed.peek c.consumed).1
  atEndOfLine {taken c} h := h.trans (h.onward.placed.atEndOfLine c.consumed)
  look {taken c} h _ := by
    have hends := h.trans (h.onward.placed.atEndOfLine c.consumed)
    exact hends.trans (hends.onward.placed.peek c.consumed).1
  giveUp {taken token fault d d'} h := by
    have hskipped : o.PassedOver taken (Parse.skipMatrixWithin d.scanner.size 1 d) :=
      Parse.skipMatrixWithin_keeps
        (fun c hc => hc.trans (hc.onward.placed.next (c.consumed + 1)).1) _ _ h.stands
    have hbetween := hskipped.between token h.mem
    exact ⟨hskipped.onward, hbetween.1, .inl hbetween.2⟩

/-- A statement stands where its reading started or further on, and before the place where its
reading stopped; an error stands at a token that the reader has come to. -/
theorem Placed.statementWithin (h : c.Placed) {depth : Nat} (hdepth : 0 < depth) (alone : Bool) :
    match (Parse.statementWithin depth alone : Parse (Expr M)) c with
    | .ok x d => c.Onward d ∧ c.front ≤ x.pos ∧ x.pos < d.front
    | .error err d => c.Onward d ∧ c.front ≤ err.pos ∧ Behind err.pos d := by
  have hread := (forward_lawful c).statementWithin (M := M) hdepth alone
    ⟨h.onward, List.forall_mem_nil _⟩
  cases hrun : (Parse.statementWithin depth alone : Parse (Expr M)) c with
  | ok x d =>
    rw [hrun] at hread
    obtain ⟨taken, -, -, hpassed, hx⟩ := hread
    obtain ⟨t, ht, hpos⟩ := hx.exists_pos
    exact ⟨hpassed.onward, hpos ▸ hpassed.between t ht⟩
  | error err d =>
    rw [hrun] at hread
    exact ⟨hread.onward, hread.front, hread.behind⟩

/-- At the end of the input nothing is left to be read. -/
theorem peek_of_rest_nil (h : c.Placed) (hheld : c.scanner.held = none)
    (hrest : c.scanner.source.rest = []) : c.scanner.peek.1.kind = .eof := by
  obtain ⟨htoken, -, -⟩ := Source.scan_of_rest_nil (Source.lined_of_feed_none h.feed) hrest
  rw [Scanner.peek_of_held_none hheld, htoken]

/-- Where nothing of a line is left, the scanner is at an end of line. -/
theorem AtLineEnd.atEndOfLine (h : c.Placed) (hend : c.AtLineEnd) :
    c.scanner.atEndOfLine.1 = true := by
  rcases hend with ⟨x, hx, hkind⟩ | ⟨hheld, hrest⟩
  · rw [Scanner.atEndOfLine, hx]
    simp [hkind]
  · rw [Scanner.atEndOfLine_of_held_none hheld, Source.lineEnd, Source.fill_of_feed_none h.feed]
    rcases hrest with hrest | ⟨x, cs, hchars, hx⟩
    · have hchars : c.scanner.source.chars = [] := (List.append_eq_nil_iff.mp hrest).1
      rw [hchars]
      rfl
    · rw [hchars]
      rcases hx with rfl | rfl <;> rfl

/-- Where nothing of a line is left, a reader has passed what it has come to, or is at the end. -/
theorem AtLineEnd.passed (h : c.Placed) (hend : c.AtLineEnd) {p : Position} (hp : Behind p c) :
    p < c.front ∨ c.scanner.peek.1.kind = .eof := by
  rcases hp with hless | ⟨-, hstands⟩
  · exact .inl hless
  · rcases hend with ⟨x, hx, hkind⟩ | ⟨hheld, -⟩
    · exact .inr (by rw [Scanner.peek_of_held hx]; exact hkind)
    · have hrest := hstands.resolve_left (by simp [hheld])
      exact .inr (peek_of_rest_nil h hheld hrest)

/-- Skipping the rest of a line goes forward. -/
theorem skipLineWithin_onward (tokens : Nat) (h : c.Placed) :
    c.Onward (c.skipLineWithin tokens) := by
  induction tokens generalizing c with
  | zero => exact h.onward
  | succ tokens ih =>
    have hends := h.atEndOfLine c.consumed
    have hnext := (hends.placed.next c.consumed).1
    rw [skipLineWithin]
    dsimp only
    split
    · exact hends
    · exact hends.trans (hnext.trans (ih hnext.placed))

/-- Getting past an error goes forward. -/
theorem resync_onward (start : Nat) (h : c.Placed) : c.Onward (c.resync start) := by
  unfold resync
  dsimp only
  split
  · have hnext := (h.next c.consumed).1
    exact hnext.trans (skipLineWithin_onward _ hnext.placed)
  · exact skipLineWithin_onward _ h

/-- Adding to the log does not move a reader. -/
theorem note_onward (h : c.Placed) (text : Text) : c.Onward (c.note text) := by
  have hplaced : (c.note text).Placed := ⟨h.feed, h.ended, h.passed⟩
  -- Both have the tokens of the reader that logs nothing.
  have htokens := h.tame.tokensWithin rfl c.scanner.size
  have htokens' := (h.tame.note rfl text).tokensWithin rfl c.scanner.size
  have hsame := htokens.symm.trans htokens'
  have hrelabel : Token.relabel (Position.down 0) = id := rfl
  change List.map (Token.relabel (Position.down 0)) _ = List.map (Token.relabel (Position.down 0)) _
    at hsame
  rw [hrelabel, List.map_id, List.map_id] at hsame
  exact ⟨hplaced, le_refl _, fun _ hp => hp, [], hsame⟩

/-- Where what was read stands: a statement at its node, an error at its token. -/
def readPos : Except SyntaxError (Expr M) → Position
  | .ok e => e.pos
  | .error err => err.pos

/-- A statement or an error stands where its reading started or further on; reading ends behind
it, or at the end of the input. Nothing of the line is left after an error. -/
theorem Placed.statement (settings : Settings) (h : c.Placed) :
    let read := c.statement (M := M) settings
    c.Onward read.2 ∧ c.front ≤ readPos read.1 ∧
      (readPos read.1 < read.2.front ∨ read.2.scanner.peek.1.kind = .eof) ∧
      (∀ err, read.1 = .error err → read.2.AtLineEnd) := by
  have hsize : 0 < c.scanner.size := Nat.succ_pos _
  have hsteady := h.statementWithin (M := M) hsize false
  have hsilent : ({} : Settings).debug.outline = false := rfl
  have hloud : true = false → settings.debug.outline = false := nofun
  obtain ⟨-, -, -, hline⟩ := h.tame.statement (M := M) rfl hloud hsilent
  unfold Cursor.statement Cursor.parse at hline ⊢
  cases hparse : (Parse.statementWithin c.scanner.size false : Parse (Expr M)) c with
  | ok x d =>
    rw [hparse] at hsteady
    obtain ⟨honward, hfront, hpassed⟩ := hsteady
    dsimp only
    refine ⟨?_, hfront, .inl ?_, nofun⟩
    · split
      · exact honward.trans (note_onward honward.placed _)
      · exact honward
    · split <;> exact hpassed
  | error err d =>
    rw [hparse] at hsteady hline
    obtain ⟨honward, hfront, hbehind⟩ := hsteady
    have hresync := resync_onward c.consumed honward.placed
    have hend := hline err rfl
    exact ⟨honward.trans hresync, hfront,
      AtLineEnd.passed hresync.placed hend (hresync.behind _ hbehind), fun _ _ => hend⟩

/-- At a token a statement or an error takes it, and more. -/
theorem Placed.statement_takes (h : c.Placed) (hheld : c.scanner.held.isSome)
    (htoken : c.scanner.peek.1.kind ≠ .eof) :
    ∃ taken, taken ≠ [] ∧ c.tokens = taken ++ (c.statement (M := M) settings).2.tokens := by
  obtain ⟨honward, hfront, hpassed, -⟩ := h.statement (M := M) settings
  obtain ⟨taken, htaken⟩ := honward.tokens
  refine ⟨taken, fun hnil => ?_, htaken⟩
  -- Otherwise the same token would come next, and reading would not have got past it.
  obtain ⟨_, hhead⟩ := h.tokens_head
  obtain ⟨_, hhead'⟩ := honward.placed.tokens_head
  rw [hnil, List.nil_append, hhead, hhead'] at htaken
  have hsame := (List.cons.inj htaken).1
  rcases hpassed with hless | hend
  · have hpos := h.pos_next (.inl hheld)
    have hfurther := (honward.placed.next 0).2.1
    rw [Scanner.next_fst] at hpos hfurther
    rw [← hsame, ← hpos] at hfurther
    exact absurd (hfront.trans_lt hless) (not_lt_of_ge hfurther)
  · exact htoken (hsame ▸ hend)

/-- All bounds that exceed the tokens to come skip as much of a matrix. -/
theorem skipMatrixWithin_eq {o : Offset} (h : o.Tame c) {n k : Nat} (depth : Nat)
    (hn : c.budget < n) (hk : c.budget < k) :
    Parse.skipMatrixWithin n depth c = Parse.skipMatrixWithin k depth c := by
  induction n generalizing c k depth with
  | zero => exact absurd hn (Nat.not_lt_zero _)
  | succ n ih =>
    cases k with
    | zero => exact absurd hk (Nat.not_lt_zero _)
    | succ k =>
      cases depth with
      | zero => rfl
      | succ depth =>
        obtain ⟨htame, -, -, hless⟩ := h.next (c.consumed + 1)
        rw [Parse.skipMatrixWithin, Parse.skipMatrixWithin]
        dsimp only
        split
        · rfl
        · rename_i hkind
          have hless := hless (by simp_all)
          have hmatch depth := ih htame depth (k := k) (by omega) (by omega)
          rw [hmatch, hmatch, hmatch]

/-- What reading came to, without the cursor. -/
def outcome {α : Type} : EStateM.Result SyntaxError Cursor α → Except SyntaxError α
  | .ok a _ => .ok a
  | .error err _ => .error err

omit [Numeric M] in
/-- Readers in step come to the same. -/
theorem outcome_of_alike {o : Offset} {r r' : EStateM.Result SyntaxError Cursor (Expr M)}
    (hmore : o.more = none) (h : o.Alike c r r') :
    outcome r' = Offset.relabelRead o.place (outcome r) := by
  cases r with
  | ok x d =>
    obtain ⟨-, e, rfl, -⟩ := h
    rfl
  | error err d =>
    obtain ⟨-, -, -, rfl⟩ := h hmore
    rfl

/-- A larger bound on the nesting reads the same statement, or the same error. -/
theorem Placed.outcome_statementWithin (h : c.Placed) {depth : Nat}
    (hdepth : c.scanner.size ≤ depth) :
    outcome ((Parse.statementWithin depth false : Parse (Expr M)) c) =
      (c.statement settings).1 := by
  have hlinked := (Offset.linked_iff rfl).mpr ⟨h.tame, rfl⟩
  have hsize := Offset.budget_lt_size c
  have hwide := outcome_of_alike rfl
    (Offset.statementWithin_alike (M := M) false hlinked (hsize.trans_le hdepth) hsize)
  have hexact := outcome_of_alike rfl
    (Offset.statementWithin_alike (M := M) false hlinked hsize hsize)
  have hsame := hwide.symm.trans hexact
  change Offset.relabelRead (Position.down 0) _ = Offset.relabelRead (Position.down 0) _ at hsame
  rw [Position.down_zero, Offset.relabelRead_id, Offset.relabelRead_id] at hsame
  rw [hsame, Cursor.statement, Cursor.parse]
  cases (Parse.statementWithin c.scanner.size false : Parse (Expr M)) c <;> rfl

/-- One turn of reading: where it started, what it gave and where it stopped. -/
structure Turn (M : Type) where
  /-- Where it started. -/
  start : Cursor
  /-- The statement, or the error. -/
  result : Except SyntaxError (Expr M)
  /-- Where it stopped. -/
  stop : Cursor

/-- The turn that starts at a cursor. -/
def turn (settings : Settings) (c : Cursor) : Turn M :=
  ⟨c, (c.statement settings).1, (c.statement (M := M) settings).2⟩

/-- Statements are read one after the other until the end of the input, however many there are. -/
inductive ReadsToEnd (settings : Settings) : Cursor → List (Turn M) → Prop
  /-- At the end nothing more is read. -/
  | done {c : Cursor} (ends : c.atEnd.1 = true) : ReadsToEnd settings c ([] : List (Turn M))
  /-- Before the end a statement is read, and then the others from where it stopped. -/
  | step {c : Cursor} {turns : List (Turn M)} (goes : c.atEnd.1 = false)
      (later : ReadsToEnd settings (turn (M := M) settings c.atEnd.2).stop turns) :
      ReadsToEnd settings c (turn settings c.atEnd.2 :: turns)

/-- A cursor that is not at the end has looked at a token. -/
theorem Placed.atEnd (h : c.Placed) (hgoes : c.atEnd.1 = false) :
    c.Onward c.atEnd.2 ∧ c.atEnd.2.scanner.held.isSome ∧
      c.atEnd.2.scanner.peek.1.kind ≠ .eof ∧ 0 < c.atEnd.2.budget ∧
        c.atEnd.2.budget ≤ c.budget := by
  obtain ⟨x, hx, htoken⟩ := c.scanner.held_peek
  have hkind : x.token.kind ≠ .eof := htoken ▸ of_decide_eq_false hgoes
  have hheld : c.atEnd.2.scanner.held = some x := hx
  have hpeek : c.atEnd.2.scanner.peek.1.kind ≠ .eof := by
    rw [Scanner.peek_of_held hheld]
    exact hkind
  refine ⟨(h.peek c.consumed).1, by rw [hheld]; rfl, hpeek, ?_, (h.tame.peek c.consumed).2⟩
  rw [budget, hheld]
  simp [hkind]

/-- Reading comes to an end, after no more statements and errors than there may be tokens. -/
theorem Placed.exists_readsToEnd (settings : Settings) (h : c.Placed) :
    ∃ turns : List (Turn M), ReadsToEnd settings c turns ∧
      turns.length ≤ c.budget := by
  have hsilent : ({} : Settings).debug.outline = false := rfl
  have hloud : true = false → settings.debug.outline = false := nofun
  -- Each statement leaves fewer tokens.
  induction hbudget : c.budget using Nat.strong_induction_on generalizing c with
  | _ b ih =>
    cases hend : c.atEnd.1 with
    | true => exact ⟨[], .done hend, Nat.zero_le _⟩
    | false =>
      obtain ⟨hlooked, -, -, hpos, hle⟩ := h.atEnd hend
      have hplaced := (hlooked.placed.statement (M := M) settings).1.placed
      obtain ⟨-, -, hless, -⟩ := hlooked.placed.tame.statement (M := M) rfl hloud hsilent
      obtain ⟨turns, hreads, hlength⟩ := ih _ (by omega) hplaced rfl
      refine ⟨_, .step hend hreads, ?_⟩
      rw [List.length_cons]
      omega

namespace ReadsToEnd

variable {turns : List (Turn M)}

/-- Each turn starts at a token. -/
theorem turn_mem (h : ReadsToEnd settings c turns) (hc : c.Placed) :
    ∀ r ∈ turns, ∃ d : Cursor, r = turn settings d ∧ d.Placed ∧ c.front ≤ d.front ∧
      d.scanner.held.isSome ∧ d.scanner.peek.1.kind ≠ .eof := by
  induction h with
  | done => exact fun r hr => absurd hr List.not_mem_nil
  | step goes later ih =>
    obtain ⟨hlooked, hheld, hkind, -, -⟩ := hc.atEnd goes
    have honward := (hlooked.placed.statement (M := M) settings).1
    refine List.forall_mem_cons.mpr ⟨⟨_, rfl, hlooked.placed, hlooked.front, hheld, hkind⟩, ?_⟩
    intro r hr
    obtain ⟨d, hrd, hplaced, hfront, hlater⟩ := ih honward.placed r hr
    exact ⟨d, hrd, hplaced, (hlooked.front.trans honward.front).trans hfront, hlater⟩

/-- Statements and errors come in source order. -/
theorem pairwise (h : ReadsToEnd settings c turns) (hc : c.Placed) :
    (turns.map fun r => readPos r.result).Pairwise (· < ·) := by
  induction h with
  | done => exact .nil
  | step goes later ih =>
    have hlooked := (hc.atEnd goes).1
    obtain ⟨honward, -, hpassed, -⟩ := hlooked.placed.statement (M := M) settings
    refine .cons (List.forall_mem_map.mpr fun r hr => ?_) (ih honward.placed)
    obtain ⟨d, rfl, hplaced, hfront, -⟩ := later.turn_mem honward.placed r hr
    have hpos := (hplaced.statement (M := M) settings).2.1
    rcases hpassed with hless | hend
    · exact hless.trans_le (hfront.trans hpos)
    · -- At the end nothing more was read.
      cases later with
      | done => cases hr
      | step goes' => exact absurd hend (of_decide_eq_false goes')

/-- All bounds that exceed the number of turns give their results. -/
theorem statementsWithin (h : ReadsToEnd settings c turns) {rounds : Nat}
    (hrounds : turns.length < rounds) :
    (c.statementsWithin settings rounds).1 = turns.map Turn.result := by
  induction h generalizing rounds with
  | @done c ends =>
    obtain ⟨rounds, rfl⟩ := Nat.exists_eq_succ_of_ne_zero (Nat.ne_of_gt hrounds)
    exact c.statementsWithin_of_end settings rounds (of_decide_eq_true ends)
  | @step c turns goes later ih =>
    obtain ⟨rounds, rfl⟩ := Nat.exists_eq_succ_of_ne_zero (Nat.ne_of_gt (Nat.zero_lt_of_lt hrounds))
    rw [c.statementsWithin_of_token settings rounds (of_decide_eq_false goes)]
    exact congrArg (_ :: ·) (ih (Nat.lt_of_succ_lt_succ hrounds))

end ReadsToEnd

end Cursor

variable {M : Type} [Numeric M]

/-- A program is what is read of it, if that has no errors, and all its errors otherwise. -/
theorem program_iff (settings : Settings) (name text : Text) :
    (∀ statements : List (Expr M),
      ((Cursor.start settings name (.ofText text)).program settings).1 = .ok statements ↔
        readText settings name text = statements.map .ok) ∧
    (∀ errors, ((Cursor.start settings name (.ofText text)).program (M := M) settings).1 =
      .error errors ↔
        errors ≠ [] ∧ syntaxErrors (readText (M := M) settings name text) = errors) :=
  ⟨fun _ => Cursor.program_eq_ok_iff, fun _ => Cursor.program_eq_error_iff⟩

/-- Every text is read to its end, in source order. Reading takes finitely many turns, and
each of them takes at least one token. The program consists of their results: all are statements,
or their errors are reported, one for each that failed. What they give stands further and further
on in the source, and nothing of its line is left after an error. No larger bound on the nesting,
or on what is skipped of a matrix, changes what is read. -/
theorem reading_finishes_in_source_order (settings : Settings) (name text : Text) :
    ∃ turns : List (Turn M),
      (Cursor.start settings name (.ofText text)).ReadsToEnd settings turns ∧
      (∀ r ∈ turns, ∃ taken, taken ≠ [] ∧ r.start.tokens = taken ++ r.stop.tokens) ∧
      (∀ statements,
        ((Cursor.start settings name (.ofText text)).program settings).1 = .ok statements ↔
          turns.map Turn.result = statements.map .ok) ∧
      (∀ errors, ((Cursor.start settings name (.ofText text)).program (M := M) settings).1 =
        .error errors ↔ errors ≠ [] ∧ syntaxErrors (turns.map Turn.result) = errors) ∧
      (turns.map fun r => readPos r.result).Pairwise (· < ·) ∧
      (∀ r ∈ turns, ∀ err, r.result = .error err → r.stop.scanner.atEndOfLine.1 = true) ∧
      (∀ r ∈ turns, ∀ depth, r.start.scanner.size ≤ depth →
        outcome ((Parse.statementWithin depth false : Parse (Expr M)) r.start) = r.result) ∧
      (∀ c : Cursor, c.Placed → ∀ tokens depth, c.scanner.size ≤ tokens →
        Parse.skipMatrixWithin tokens depth c = Parse.skipMatrixWithin c.scanner.size depth c) := by
  have hstart := placed_start settings name text
  obtain ⟨turns, hreads, hlength⟩ := hstart.exists_readsToEnd (M := M) settings
  have hmem := hreads.turn_mem hstart
  have hresults : readText settings name text = turns.map Turn.result :=
    hreads.statementsWithin (hlength.trans_lt (Offset.budget_lt_size _))
  obtain ⟨hprogram, herrors⟩ := program_iff (M := M) settings name text
  rw [hresults] at hprogram herrors
  refine ⟨turns, hreads, fun r hr => ?_, hprogram, herrors, hreads.pairwise hstart,
    fun r hr err herr => ?_, fun r hr depth hdepth => ?_, fun c hc tokens depth htokens => ?_⟩
  · obtain ⟨d, rfl, hplaced, -, hheld, hkind⟩ := hmem r hr
    exact hplaced.statement_takes hheld hkind
  · obtain ⟨d, rfl, hplaced, -⟩ := hmem r hr
    obtain ⟨honward, -, -, hend⟩ := hplaced.statement (M := M) settings
    exact AtLineEnd.atEndOfLine honward.placed (hend err herr)
  · obtain ⟨d, rfl, hplaced, -⟩ := hmem r hr
    exact hplaced.outcome_statementWithin hdepth
  · have hsize := Offset.budget_lt_size c
    exact skipMatrixWithin_eq hc.tame depth (hsize.trans_le htokens) hsize

end SymCalc
