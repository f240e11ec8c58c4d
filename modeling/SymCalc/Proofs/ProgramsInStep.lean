import Mathlib
import SymCalc.Proofs.StatementsInStep

/-!
# Programs read in step

Whole programs are read statement by statement; after an error the rest of the line is skipped.
Main statements: two readers of the same characters give the same statements and errors, one
further down than the other, and after the statements of a text without errors a reader that goes on
gives the statements and errors of the lines that follow.
-/

namespace SymCalc

namespace Cursor

/-- Nothing of the line is left: the end of the input has been looked at, or no token has been, and
the input ends, or the line feed or a comment comes next. -/
def AtLineEnd (c : Cursor) : Prop :=
  c.Finished ∨ c.scanner.held = none ∧ (c.scanner.source.rest = [] ∨
    ∃ x cs, c.scanner.source.chars = x :: cs ∧ (x = '\n' ∨ x = '#'))

/-- Where the line ends for a clean cursor, nothing of it is left. -/
theorem atLineEnd_of_atEndOfLine {c : Cursor} (hlined : c.scanner.source.Lined) (hclean : c.Clean)
    (h : c.scanner.atEndOfLine.1 = true) (n : Nat) :
    AtLineEnd ⟨c.scanner.atEndOfLine.2, n⟩ := by
  cases hheld : c.scanner.held with
  | some x =>
    have hends : c.scanner.atEndOfLine = (decide (x.token.kind = .eof) || x.newline, c.scanner) := by
      rw [Scanner.atEndOfLine, hheld]
    rw [hends] at h ⊢
    refine .inl ⟨x, hheld, ?_⟩
    rcases hclean x hheld with heof | hnewline
    · exact heof
    · simpa [hnewline] using h
  | none =>
    rw [Scanner.atEndOfLine_of_held_none hheld] at h ⊢
    exact .inr ⟨hheld, Source.chars_of_lineEnd_true hlined h⟩

end Cursor

namespace Offset

variable {M : Type} [Numeric M] {o : Offset} {c d : Cursor} {settings quiet : Settings}

/-- Without further lines, the end of the line is looked for in the second source as in the
first. -/
theorem Tame.atEndOfLine_cursor (h : o.Tame c) (hmore : o.more = none) :
    o.Tame ⟨c.scanner.atEndOfLine.2, c.consumed⟩ ∧
      (o.cursor c).scanner.atEndOfLine.1 = c.scanner.atEndOfLine.1 ∧
      (⟨(o.cursor c).scanner.atEndOfLine.2, (o.cursor c).consumed⟩ : Cursor) =
        o.cursor ⟨c.scanner.atEndOfLine.2, c.consumed⟩ ∧
      Cursor.budget ⟨c.scanner.atEndOfLine.2, c.consumed⟩ ≤ c.budget := by
  have hlinked : o.Linked c (o.cursor c) := .level h fun hsome => absurd hmore hsome
  obtain ⟨hends, hafter, hbudget⟩ := hlinked.atEndOfLine c.consumed
  obtain ⟨htame, hcursor⟩ := (linked_iff hmore).mp hafter
  exact ⟨htame, hends, hcursor, hbudget⟩

/-- Skipping the rest of a line in step. With a bound that exceeds the tokens to come nothing of
the line is left. -/
theorem Tame.skipLineWithin (hmore : o.more = none) (tokens : Nat) (h : o.Tame c) :
    o.Tame (c.skipLineWithin tokens) ∧
      (o.cursor c).skipLineWithin tokens = o.cursor (c.skipLineWithin tokens) ∧
      (c.skipLineWithin tokens).budget ≤ c.budget ∧
      (c.Clean → c.budget < tokens → (c.skipLineWithin tokens).AtLineEnd) := by
  induction tokens generalizing c with
  | zero => exact ⟨h, rfl, Nat.le_refl _, fun _ hless => absurd hless (Nat.not_lt_zero _)⟩
  | succ tokens ih =>
    obtain ⟨htame, hends, hcursor, hbudget⟩ := h.atEndOfLine_cursor hmore
    rw [Cursor.skipLineWithin, Cursor.skipLineWithin]
    dsimp only
    rw [hends]
    cases hend : c.scanner.atEndOfLine.1 with
    | true =>
      simp only [if_true]
      refine ⟨htame, hcursor, hbudget, fun hclean _ => ?_⟩
      exact Cursor.atLineEnd_of_atEndOfLine h.lined hclean hend c.consumed
    | false =>
      -- A token stands on the line, and is taken.
      obtain ⟨hnext, hheld, -, hless⟩ := htame.next c.consumed
      obtain ⟨-, hcursor'⟩ := htame.next_cursor hmore c.consumed
      have hkind : c.scanner.atEndOfLine.2.next.1.kind ≠ .eof := by
        rw [Scanner.next_fst]
        exact (Cursor.moreOnLine_of_atEndOfLine hend c.consumed).kind
      have hless := hless hkind
      obtain ⟨h1, h2, h3, h4⟩ := ih hnext
      simp only [Bool.false_eq_true, if_false]
      have hsecond : ({ o.cursor c with scanner := (o.cursor c).scanner.atEndOfLine.2.next.2 } :
          Cursor) = o.cursor ⟨c.scanner.atEndOfLine.2.next.2, c.consumed⟩ := by
        rw [← hcursor', ← hcursor]
        rfl
      rw [hsecond]
      refine ⟨h1, h2, h3.trans (hless.le.trans hbudget), fun _ htokens => ?_⟩
      have hfewer := Nat.lt_of_lt_of_le hless hbudget
      exact h4 (Cursor.clean_of_held_none hheld) (by omega)

/-- The bound on the tokens of a scanner exceeds the tokens to come. -/
theorem budget_lt_size (c : Cursor) : c.budget < c.scanner.size := by
  rw [Cursor.budget, Scanner.size, Source.size_eq]
  cases c.scanner.held with
  | none => exact Nat.lt_add_of_pos_right (Nat.succ_pos 1)
  | some x =>
    dsimp only
    split <;> omega

/-- Getting past an error in step. Nothing of the line is left then. -/
theorem Tame.resync (hmore : o.more = none) (start : Nat) (h : o.Tame c) (hclean : c.Clean) :
    o.Tame (c.resync start) ∧
      (o.cursor c).resync (start + o.tokens) = o.cursor (c.resync start) ∧
      (c.resync start).budget ≤ c.budget ∧ (c.resync start).AtLineEnd := by
  have hconsumed : (o.cursor c).consumed = start + o.tokens ↔ c.consumed = start := by
    change c.consumed + o.tokens = start + o.tokens ↔ _
    omega
  unfold Cursor.resync
  dsimp only
  by_cases hstart : c.consumed = start
  · obtain ⟨hnext, hheld, hbudget, -⟩ := h.next c.consumed
    obtain ⟨-, hcursor⟩ := h.next_cursor hmore c.consumed
    have hsecond : ({ o.cursor c with scanner := (o.cursor c).scanner.next.2 } : Cursor) =
        o.cursor ⟨c.scanner.next.2, c.consumed⟩ := hcursor
    rw [if_pos hstart, if_pos (hconsumed.mpr hstart), hsecond, size_cursor hmore]
    obtain ⟨h1, h2, h3, h4⟩ := hnext.skipLineWithin hmore c.scanner.next.2.size
    refine ⟨h1, h2, h3.trans (hbudget.trans (Nat.sub_le _ _)),
      h4 (Cursor.clean_of_held_none hheld) ?_⟩
    exact budget_lt_size ⟨c.scanner.next.2, c.consumed⟩
  · rw [if_neg hstart, if_neg (mt hconsumed.mp hstart), size_cursor hmore]
    obtain ⟨h1, h2, h3, h4⟩ := h.skipLineWithin hmore c.scanner.size
    exact ⟨h1, h2, h3, h4 hclean (budget_lt_size c)⟩

/-- What was read, with the positions changed. -/
def relabelRead (f : Position → Position) :
    Except SyntaxError (Expr M) → Except SyntaxError (Expr M)
  | .ok e => .ok (e.relabel f)
  | .error err => .error (err.relabel f)

/-- Adding to the log is no change for a cursor that may log. -/
theorem Tame.note (h : o.Tame c) (hloud : o.loud = true) (text : Text) : o.Tame (c.note text) :=
  ⟨h.lined, fun hsilent => absurd hloud (by simp [hsilent]),
    fun hsilent => absurd hloud (by simp [hsilent]), h.name, h.stop, h.ended⟩

/-- Without further lines, statements and errors are read in step, and an error leaves nothing of
its line. -/
theorem Tame.statement (hmore : o.more = none)
    (hloud : o.loud = false → settings.debug.outline = false)
    (houtline : quiet.debug.outline = false) (h : o.Tame c) :
    (o.cursor c).statement quiet =
        (relabelRead o.place (c.statement (M := M) settings).1,
          o.cursor (c.statement (M := M) settings).2) ∧
      o.Tame (c.statement (M := M) settings).2 ∧
      (c.statement (M := M) settings).2.budget ≤ c.budget - 1 ∧
      (∀ err, (c.statement (M := M) settings).1 = .error err →
        (c.statement (M := M) settings).2.AtLineEnd) := by
  have hlinked : o.Linked c (o.cursor c) := .level h fun hsome => absurd hmore hsome
  have hsize := budget_lt_size c
  have halike := statementWithin_alike (M := M) false hlinked hsize hsize
  unfold Cursor.statement Cursor.parse
  rw [size_cursor hmore]
  cases hresult : (Parse.statementWithin c.scanner.size false : Parse (Expr M)) c with
  | ok e t =>
    rw [hresult] at halike
    obtain ⟨hless, u, hsecond, hafter⟩ := halike
    have hbudget := Nat.le_sub_one_of_lt hless
    obtain ⟨htame, rfl⟩ := (linked_iff hmore).mp hafter
    rw [hsecond]
    simp only [houtline, Bool.false_eq_true, if_false]
    split
    · rename_i hnoted
      have hmay : o.loud = true := by
        cases hsilent : o.loud with
        | true => rfl
        | false => rw [hloud hsilent] at hnoted; cases hnoted
      exact ⟨rfl, htame.note hmay _, hbudget, fun err herr => nomatch herr⟩
    · exact ⟨rfl, htame, hbudget, fun err herr => nomatch herr⟩
  | error err t =>
    rw [hresult] at halike
    obtain ⟨hbudget, hclean, htame, hsecond⟩ := halike hmore
    obtain ⟨h1, h2, h3, h4⟩ := htame.resync hmore c.consumed hclean
    rw [hsecond]
    exact ⟨Prod.ext rfl h2, h1, h3.trans hbudget, fun _ _ => h4⟩

/-- Statements that are read from a first source are read from the second, in step. -/
theorem Linked.statement (houtline : settings.debug.outline = false) (h : o.Linked c d)
    {e : Expr M} {t : Cursor} (hok : c.statement settings = (.ok e, t)) :
    t.budget < c.budget ∧
      ∃ u, d.statement settings = (.ok (e.relabel o.place), u) ∧ o.Linked t u := by
  unfold Cursor.statement Cursor.parse at hok ⊢
  have hsize : c.budget < d.scanner.size := by
    cases h with
    | level =>
      have hless := budget_lt_size c
      have hsame : (o.cursor c).scanner.size = c.scanner.size + o.extra.length := by
        simp only [Scanner.size, Source.size_eq, cursor, source, Source.rest_of_feed_none,
          List.length_append]
        omega
      omega
    | past _ _ ended =>
      obtain ⟨err, u, hfails⟩ := Parse.statementWithin_fails (M := M) c.scanner.size false ended
      rw [hfails] at hok
      cases (Prod.mk.inj hok).1
  have halike := statementWithin_alike (M := M) false h (budget_lt_size c) hsize
  cases hresult : (Parse.statementWithin c.scanner.size false : Parse (Expr M)) c with
  | error err u =>
    rw [hresult] at hok
    cases (Prod.mk.inj hok).1
  | ok x u =>
    rw [hresult] at hok halike
    simp only [houtline, Bool.false_eq_true, if_false] at hok ⊢
    obtain ⟨hx, rfl⟩ := Prod.mk.inj hok
    cases hx
    obtain ⟨hless, v, hsecond, hafter⟩ := halike
    rw [hsecond]
    exact ⟨hless, v, rfl, hafter⟩

end Offset

/-- The cursor after it has looked at the next token, as if that stood on a new line. Whether it
does is not looked at when a statement starts. -/
def Cursor.ahead (c : Cursor) : Cursor :=
  ⟨{ c.scanner.peek.2 with held := some ⟨c.scanner.peek.1, true⟩ }, c.consumed⟩

/-- A statement does not depend on whether its first token stands on a new line. -/
theorem Cursor.statement_ahead {M : Type} [Numeric M] (settings : Settings) (c : Cursor) :
    c.ahead.statement settings =
      (⟨c.scanner.peek.2, c.consumed⟩ : Cursor).statement (M := M) settings := by
  obtain ⟨x, hx, htoken⟩ := c.scanner.held_peek
  have hnext : Parse.next c.ahead = Parse.next ⟨c.scanner.peek.2, c.consumed⟩ := by
    rw [Parse.next_eq, Parse.next_eq, Scanner.next_of_held hx, htoken]
    rfl
  have hparse : (c.ahead.parse : EStateM.Result SyntaxError Cursor (Expr M)) =
      (⟨c.scanner.peek.2, c.consumed⟩ : Cursor).parse := by
    change EStateM.bind Parse.next _ c.ahead = EStateM.bind Parse.next _ _
    rw [EStateM.bind, EStateM.bind, hnext]
    rfl
  rw [statement, statement, hparse]
  rfl

section

variable {M : Type} [Numeric M] (settings : Settings) (rounds : Nat) (c : Cursor)

/-- At the end no statement is read. -/
theorem Cursor.statementsWithin_of_end (h : c.scanner.peek.1.kind = .eof) :
    (c.statementsWithin (M := M) settings (rounds + 1)).1 = [] := by
  have hend : c.atEnd = (true, ⟨c.scanner.peek.2, c.consumed⟩) :=
    Prod.ext (decide_eq_true h) rfl
  rw [statementsWithin, hend]

/-- Before the end a statement is read, and then the others. -/
theorem Cursor.statementsWithin_of_token (h : c.scanner.peek.1.kind ≠ .eof) :
    (c.statementsWithin (M := M) settings (rounds + 1)).1 =
      let first := (⟨c.scanner.peek.2, c.consumed⟩ : Cursor).statement settings
      first.1 :: (first.2.statementsWithin settings rounds).1 := by
  have hend : c.atEnd = (false, ⟨c.scanner.peek.2, c.consumed⟩) :=
    Prod.ext (decide_eq_false h) rfl
  rw [statementsWithin, hend]

end

namespace Offset

variable {M : Type} [Numeric M] {o : Offset} {c d : Cursor} {settings quiet : Settings}

/-- Two cursors have the same tokens ahead. -/
structure Abreast (o : Offset) (c d : Cursor) : Prop where
  /-- The first cursor, looking ahead, is tame. -/
  tame : o.Tame c.ahead
  /-- The second cursor, looking ahead, stands on the second source where the first one stands. -/
  ahead : d.ahead = o.cursor c.ahead

omit [Numeric M] in
/-- Looking ahead keeps a cursor tame and the bound. -/
theorem Tame.ahead (h : o.Tame c) : o.Tame c.ahead ∧ c.ahead.budget ≤ c.budget := by
  obtain ⟨htame, hbudget⟩ := h.peek c.consumed
  obtain ⟨x, hx, htoken⟩ := c.scanner.held_peek
  constructor
  · refine ⟨htame.lined, htame.quiet, htame.log, htame.name, htame.stop, ?_⟩
    intro y hy hkind
    cases hy
    rw [← htoken] at hkind ⊢
    exact htame.ended x hx hkind
  · simp only [Cursor.budget, hx, htoken] at hbudget
    exact hbudget

omit [Numeric M] in
/-- A tame cursor has the same tokens ahead as the cursor on the second source. -/
theorem Tame.abreast (hmore : o.more = none) (h : o.Tame c) : o.Abreast c (o.cursor c) := by
  have hlinked : o.Linked c (o.cursor c) := .level h fun hsome => absurd hmore hsome
  refine ⟨h.ahead.1, ?_⟩
  rcases hlinked.peek c.consumed with ⟨htoken, hafter, -⟩ | ⟨hsome, -⟩ | ⟨hsome, -⟩
  · obtain ⟨-, hcursor⟩ := (linked_iff hmore).mp hafter
    have hscanner : (o.cursor c).scanner.peek.2 = _ := congrArg Cursor.scanner hcursor
    rw [Cursor.ahead, htoken, hscanner]
    rfl
  · exact absurd hmore hsome
  · exact absurd hmore hsome

omit [Numeric M] in
/-- The token ahead is the same, further down. -/
theorem Abreast.peek (h : o.Abreast c d) :
    d.scanner.peek.1 = c.scanner.peek.1.relabel o.place := by
  have hheld := congrArg (fun e => e.scanner.held) h.ahead
  exact congrArg Scanned.token (Option.some.inj hheld)

/-- One statement, or the end of the input, in step. -/
theorem Abreast.statement (hmore : o.more = none)
    (hloud : o.loud = false → settings.debug.outline = false)
    (houtline : quiet.debug.outline = false) (h : o.Abreast c d) :
    d.atEnd.1 = c.atEnd.1 ∧
      d.atEnd.2.statement quiet = (relabelRead o.place (c.atEnd.2.statement (M := M) settings).1,
        o.cursor (c.atEnd.2.statement (M := M) settings).2) ∧
      o.Tame (c.atEnd.2.statement (M := M) settings).2 ∧
      (c.atEnd.1 = false → (c.atEnd.2.statement (M := M) settings).2.budget < c.ahead.budget) ∧
      (∀ err, (c.atEnd.2.statement (M := M) settings).1 = .error err →
        (c.atEnd.2.statement (M := M) settings).2.AtLineEnd) := by
  have hfirst : c.atEnd = (decide (c.scanner.peek.1.kind = .eof), ⟨c.scanner.peek.2, c.consumed⟩) :=
    rfl
  have hsecond : d.atEnd = (decide (d.scanner.peek.1.kind = .eof), ⟨d.scanner.peek.2, d.consumed⟩) :=
    rfl
  obtain ⟨h1, h2, h3, h4⟩ := h.tame.statement (M := M) hmore hloud houtline
  rw [← h.ahead] at h1
  rw [c.statement_ahead] at h1 h2 h3 h4
  rw [d.statement_ahead] at h1
  rw [hfirst, hsecond, h.peek]
  refine ⟨rfl, h1, h2, fun hend => ?_, h4⟩
  have hkind : c.scanner.peek.1.kind ≠ .eof := of_decide_eq_false hend
  have hpositive : 0 < c.ahead.budget := by
    simp [Cursor.budget, Cursor.ahead, hkind]
  dsimp only
  omega

/-- Two readers of the same characters give the same statements and errors, with any numbers
of rounds that exceed the tokens to come. -/
theorem Abreast.statementsWithin (hmore : o.more = none)
    (hloud : o.loud = false → settings.debug.outline = false)
    (houtline : quiet.debug.outline = false) {rounds rounds' : Nat} (h : o.Abreast c d)
    (hrounds : c.ahead.budget < rounds) (hrounds' : c.ahead.budget < rounds') :
    (d.statementsWithin quiet rounds').1 =
      (c.statementsWithin (M := M) settings rounds).1.map (relabelRead o.place) := by
  induction rounds generalizing rounds' c d with
  | zero => exact absurd hrounds (Nat.not_lt_zero _)
  | succ rounds ih =>
    obtain ⟨rounds', rfl⟩ := Nat.exists_eq_succ_of_ne_zero (Nat.ne_zero_of_lt hrounds')
    obtain ⟨hend, hstatement, htame, hless, -⟩ := h.statement (M := M) hmore hloud houtline
    rw [Cursor.statementsWithin, Cursor.statementsWithin]
    generalize c.atEnd = x at hend hstatement htame hless
    generalize d.atEnd = y at hend hstatement
    obtain ⟨ends, c'⟩ := x
    obtain ⟨ends', d'⟩ := y
    dsimp only at hend hstatement htame hless
    subst hend
    cases ends' with
    | true => rfl
    | false =>
      have hless := hless rfl
      have hahead := htame.ahead.2
      have hmany : (c'.statement (M := M) settings).2.ahead.budget < rounds := by omega
      have hmany' : (c'.statement (M := M) settings).2.ahead.budget < rounds' := by omega
      simp only [hstatement, ih (htame.abreast hmore) hmany hmany', List.map_cons]

/-- The cursor at the start of the further lines, read on their own. -/
def after (o : Offset) (cs : List Char) : Cursor :=
  ⟨{ source := { chars := cs }, name := o.name }, 0⟩

/-- How the further lines in the second source differ from the further lines on their own. -/
def onward (o : Offset) (cs : List Char) (tokens : Nat) : Offset where
  lines := (o.place o.stop).line
  tokens := tokens
  stop := ({} : Position).advanceAll cs
  name := o.name

omit [Numeric M] in
/-- The cursor at the start of the further lines is tame. -/
theorem tame_after (o : Offset) (cs : List Char) (tokens : Nat) :
    (o.onward cs tokens).Tame (o.after cs) := by
  refine ⟨Source.lined_of_feed_none rfl, fun _ => rfl, fun _ => rfl, rfl, ?_,
    fun _ hx => nomatch hx⟩
  exact congrArg ({} : Position).advanceAll (Source.rest_of_feed_none rfl)

omit [Numeric M] in
/-- The further lines have at most as many tokens as characters. -/
theorem budget_after (o : Offset) (cs : List Char) : (o.after cs).ahead.budget ≤ cs.length := by
  have hbudget : (o.after cs).budget = cs.length :=
    congrArg List.length (Source.rest_of_feed_none (s := { chars := cs }) rfl)
  exact hbudget ▸ (o.tame_after cs 0).ahead.2

omit [Numeric M] in
/-- When the first of two linked cursors has looked at the end, the second one has looked at the
first token of the further lines. -/
theorem Linked.scanner_of_finished {cs : List Char} (hmore : o.more = some cs) (h : o.Linked c d)
    (hfinished : c.Finished) : d.scanner = {
      source := (o.beyond cs).2
      name := c.scanner.name
      held := some ⟨(o.beyond cs).1.token, true⟩ } := by
  cases h with
  | level _ more => exact absurd hfinished (more (by rw [hmore]; exact Option.some_ne_none cs))
  | past _ more =>
    rw [hmore] at more
    cases more
    rfl

omit [Numeric M] in
/-- When the first of two linked cursors has come to the end, the second one is at the start of the
further lines. -/
theorem Linked.abreast_after {cs : List Char} (hmore : o.more = some cs) (h : o.Linked c d)
    (hend : c.scanner.peek.1.kind = .eof) : (o.onward cs d.consumed).Abreast (o.after cs) d := by
  refine ⟨(o.tame_after cs d.consumed).ahead.1, ?_⟩
  -- The first token of the further lines is the same, further down.
  have hsource : (o.onward cs d.consumed).source { chars := cs } =
      { chars := cs, pos := (o.place o.stop).nextLine } := by
    have hpos : (⟨1 + (o.place o.stop).line, 1⟩ : Position) = (o.place o.stop).nextLine := by
      rw [Nat.add_comm]
      rfl
    rw [source, Source.rest_of_feed_none rfl, ← hpos]
    exact congrArg (fun ds => (⟨ds, _, none⟩ : Source)) (List.append_nil cs)
  have hscan : o.beyond cs = ((Source.scan { chars := cs }).1.relabel (o.onward cs d.consumed).place,
      (o.onward cs d.consumed).source (Source.scan { chars := cs }).2) := by
    rw [beyond, ← hsource]
    rcases (o.onward cs d.consumed).scan_source (s := { chars := cs })
      (Source.lined_of_feed_none rfl) with ⟨hsame, -⟩ | ⟨hsome, -⟩ | ⟨_, hsome, -⟩
    · exact hsame
    · exact absurd rfl hsome
    · cases hsome
  rcases h.peek c.consumed with ⟨-, -, hkind⟩ | ⟨-, hkind⟩ | ⟨-, -, hafter⟩
  · exact absurd hend (hkind (by rw [hmore]; exact Option.some_ne_none cs))
  · rw [hend] at hkind
    cases hkind
  · obtain ⟨x, hx, htoken⟩ := c.scanner.held_peek
    have hfinished : Cursor.Finished ⟨c.scanner.peek.2, c.consumed⟩ := ⟨x, hx, by rw [htoken, hend]⟩
    have hscanner : d.scanner.peek.2 = _ := hafter.scanner_of_finished hmore hfinished
    obtain ⟨y, hy, htoken'⟩ := d.scanner.held_peek
    rw [hscanner] at hy
    cases hy
    obtain ⟨htame', -⟩ := h.tame.peek c.consumed
    have hstart : (o.after cs).ahead = ⟨{
        source := (Source.scan { chars := cs }).2
        name := o.name
        held := some ⟨(Source.scan { chars := cs }).1.token, true⟩ }, 0⟩ := by
      have hlog : (o.after cs).scanner.scan.2.log = "" := (o.after cs).scanner.scan_eq.2 rfl
      rw [Cursor.ahead, Scanner.peek_of_held_none rfl, hlog]
      rfl
    rw [hstart, Cursor.ahead, ← htoken', hscanner, hscan]
    have hname : c.scanner.peek.2.name = o.name := htame'.name
    simp only [hname, cursor, Nat.zero_add]
    rfl

/-- No statement starts with a token that is none. -/
theorem statement_ne_ok_of_error {n : Nat} (hkind : c.scanner.peek.1.kind = .error) (e : Expr M)
    (t : Cursor) : (⟨c.scanner.peek.2, n⟩ : Cursor).statement settings ≠ (.ok e, t) := by
  obtain ⟨x, hx, htoken⟩ := c.scanner.held_peek
  have hnext : Parse.next ⟨c.scanner.peek.2, n⟩ = _ := Parse.next_eq _
  rw [Scanner.next_of_held hx, htoken, if_pos hkind] at hnext
  have hparse : Parse.Fails ((⟨c.scanner.peek.2, n⟩ : Cursor).parse (M := M)) :=
    Parse.Fails.bind (q := _) ⟨_, _, hnext⟩
  obtain ⟨err, u, hparse⟩ := hparse
  rw [Cursor.statement, hparse]
  exact fun h => nomatch (Prod.mk.inj h).1

/-- A text without errors and further lines: the second reader gives the statements of the
first, and then the statements and errors of the further lines, further down. -/
theorem Linked.statementsWithin {cs : List Char} (hmore : o.more = some cs)
    (houtline : settings.debug.outline = false) {rounds rounds' rounds'' : Nat}
    (h : o.Linked c d) (hrounds : c.budget < rounds) (hrounds' : c.budget + cs.length < rounds')
    (hrounds'' : cs.length < rounds'')
    (hok : ∀ result ∈ (c.statementsWithin (M := M) settings rounds).1, ∃ e, result = .ok e) :
    (d.statementsWithin settings rounds').1 =
      (c.statementsWithin (M := M) settings rounds).1.map (relabelRead o.place) ++
      ((o.after cs).statementsWithin settings rounds'').1.map
        (relabelRead (Position.down (o.place o.stop).line)) := by
  induction rounds generalizing rounds' c d with
  | zero => exact absurd hrounds (Nat.not_lt_zero _)
  | succ rounds ih =>
    obtain ⟨rounds', rfl⟩ := Nat.exists_eq_succ_of_ne_zero (Nat.ne_zero_of_lt hrounds')
    by_cases hend : c.scanner.peek.1.kind = .eof
    · -- The first text has ended.
      have hbudget := o.budget_after cs
      have hmany : (o.after cs).ahead.budget < rounds'' := by omega
      have hmany' : (o.after cs).ahead.budget < rounds' + 1 := by omega
      have hrest := (h.abreast_after hmore hend).statementsWithin (M := M) rfl (fun _ => houtline)
        houtline hmany hmany'
      rw [c.statementsWithin_of_end settings rounds hend, List.map_nil, List.nil_append]
      exact hrest
    · rw [c.statementsWithin_of_token settings rounds hend] at hok ⊢
      obtain ⟨⟨e, he⟩, hothers⟩ := List.forall_mem_cons.mp hok
      have hstatement : (⟨c.scanner.peek.2, c.consumed⟩ : Cursor).statement settings = (.ok e, _) :=
        Prod.ext he rfl
      rcases h.peek c.consumed with ⟨htoken, hpeeked, -⟩ | ⟨-, hkind⟩ | ⟨-, hkind, -⟩
      · obtain ⟨hless, u, hsecond, hlinked⟩ := hpeeked.statement houtline hstatement
        have hpeek := (h.tame.peek c.consumed).2
        rw [← h.consumed] at hsecond
        have hrest : (u.statementsWithin settings rounds').1 = _ :=
          ih hlinked (by omega) (by omega) hothers
        rw [d.statementsWithin_of_token settings rounds' (by rw [htoken]; exact hend), hsecond]
        dsimp only
        rw [hrest, he]
        rfl
      · exact absurd hstatement (statement_ne_ok_of_error hkind e _)
      · exact absurd hkind hend

end Offset

end SymCalc
