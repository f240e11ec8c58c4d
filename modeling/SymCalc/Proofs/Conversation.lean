import Mathlib
import SymCalc.Proofs.Magnitude
import SymCalc.Proofs.ProgramsInStep
import SymCalc.Run

/-!
# Conversations

A conversation asks for its lines one by one, and after a syntax error drops what is left of the
line. Main statement: it writes what a run over all the lines in one text writes, and comes to the
same bindings.
-/

namespace SymCalc

namespace Line

/-- A line of characters in UTF-8, none of them a line feed. -/
def Plain (line : Line) : Prop :=
  ∃ cs : List Char, '\n' ∉ cs ∧ line.bytes = (Text.ofChars cs).bytes

/-- The text of lines, each followed by a line feed. -/
def joined (lines : List Line) : Text :=
  Text.ofBytes (lines.flatMap fun line => line.bytes ++ [Text.newline])

/-- The characters of a plain line. -/
theorem Plain.chars {line : Line} (h : line.Plain) :
    ∃ cs : List Char, '\n' ∉ cs ∧ line.bytes = (Text.ofChars cs).bytes ∧
      line.chars = cs.filter (· ≠ '\r') ++ ['\n'] := by
  obtain ⟨cs, hcs, hbytes⟩ := h
  refine ⟨cs, hcs, hbytes, ?_⟩
  have hdecode : Text.decode (Text.ofChars (cs.filter (· ≠ '\r'))).bytes = cs.filter (· ≠ '\r') :=
    Text.chars_ofChars _
  rw [Line.chars, hbytes, Text.filter_bytes_ofChars, hdecode]

/-- The text of plain lines has the characters of the lines. -/
theorem chars_joined {lines : List Line} (h : ∀ line ∈ lines, line.Plain) :
    (joined lines).chars.filter (· ≠ '\r') = lines.flatMap Line.chars := by
  induction lines with
  | nil => rfl
  | cons line lines ih =>
    obtain ⟨hline, hlines⟩ := List.forall_mem_cons.mp h
    obtain ⟨cs, -, hbytes, hchars⟩ := hline.chars
    have hjoined : (joined (line :: lines)).chars = cs ++ '\n' :: (joined lines).chars := by
      rw [joined, Text.chars, Text.bytes_ofBytes, List.flatMap_cons, hbytes, List.append_assoc,
        List.singleton_append, Text.decode_append_newline]
      rw [show Text.decode (Text.ofChars cs).bytes = cs from Text.chars_ofChars cs]
      rfl
    rw [hjoined, List.flatMap_cons, hchars, ← ih hlines, List.filter_append, List.append_assoc]
    rfl

end Line

/-- Where no character is left, the end is read again and again. -/
theorem Source.scan_of_rest_nil {s : Source} (hs : s.Lined) (hrest : s.rest = []) :
    s.scan.1.token = ⟨.eof, "EOF", s.pos⟩ ∧ s.scan.2.rest = [] ∧ s.scan.2.pos = s.pos := by
  obtain ⟨taken, htaken, hpos, hne, hend⟩ := scan_split hs
  obtain ⟨rfl, hnil⟩ := List.append_eq_nil_iff.mp (htaken.symm.trans hrest)
  have hkind : s.scan.1.token.kind = .eof := Decidable.by_contra fun hkind => hne hkind rfl
  have hpos : s.scan.2.pos = s.pos := hpos
  exact ⟨hpos ▸ (hend hkind).2, hnil, hpos⟩

/-- Where no character is left, there is nothing to drop. -/
theorem Source.discard_of_rest_nil {s : Source} (hrest : s.rest = []) : s.discard = s := by
  have hchars : s.chars = [] := (List.append_eq_nil_iff.mp hrest).1
  rw [discard, hchars, List.isEmpty_nil, Bool.not_true, Bool.and_false]
  rfl

/-- A cursor that has looked at no token drops what its source drops. -/
theorem Cursor.discard_of_held_none {c : Cursor} (hheld : c.scanner.held = none)
    (hsource : c.scanner.source.discard = c.scanner.source) : c.discard = c := by
  obtain ⟨⟨source, name, logTokens, held, log⟩, consumed⟩ := c
  subst hheld
  simp only [discard, Scanner.discard]
  rw [hsource]

/-- Looking at the next token does not change what is ahead. -/
theorem Cursor.ahead_peek (c : Cursor) : Cursor.ahead ⟨c.scanner.peek.2, c.consumed⟩ = c.ahead := by
  obtain ⟨x, hx, htoken⟩ := c.scanner.held_peek
  rw [Cursor.ahead, Scanner.peek_of_held hx, htoken]
  rfl

/-- The token ahead is the one taken next. -/
theorem Cursor.next_ahead (c : Cursor) : c.ahead.scanner.next = c.scanner.next := by
  have hnext : c.scanner.next.2 = { c.scanner.peek.2 with held := none } := by
    cases hheld : c.scanner.held with
    | some x => rw [Scanner.next_of_held hheld, Scanner.peek_of_held hheld]
    | none =>
      have hscan : c.scanner.scan.2.held = none := c.scanner.scan_sound.2.trans hheld
      simp only [Scanner.next, Scanner.peek, hheld]
      rw [← hscan]
  exact Prod.ext c.scanner.next_fst.symm hnext.symm

namespace Offset

variable {o : Offset} {c d : Cursor}

/-- Looking ahead from a cursor that has not looked at a token. -/
theorem Tame.cursor_ahead (h : o.Tame c) (hheld : c.scanner.held = none) :
    o.cursor c.ahead = ⟨{
      source := o.source c.scanner.source.flat.scan.2
      name := c.scanner.name
      held := some ⟨c.scanner.source.flat.scan.1.token.relabel o.place, true⟩ },
      c.consumed + o.tokens⟩ := by
  rw [(Source.scan_flat h.lined).1, source_flat, Cursor.ahead,
    Scanner.peek_of_held_none hheld]
  rfl

/-- A cursor that has looked at the end has the end ahead again after it dropped the line. -/
theorem Tame.discard_of_finished (hmore : o.more = none) (h : o.Tame c) (hfinished : c.Finished) :
    o.Abreast c.discard (o.cursor c) := by
  obtain ⟨x, hx, hkind⟩ := hfinished
  obtain ⟨hrest, htoken⟩ := h.ended x hx hkind
  obtain ⟨hscan, hnil, hpos⟩ := Source.scan_of_rest_nil h.lined hrest
  have hdiscard : c.discard = ⟨{ c.scanner with held := none }, c.consumed⟩ := by
    rw [Cursor.discard, Scanner.discard, Source.discard_of_rest_nil hrest]
  have htame : o.Tame c.discard := by
    rw [hdiscard]
    exact ⟨h.lined, h.quiet, h.log, h.name, h.stop, fun _ hy => nomatch hy⟩
  have hsource : o.source c.scanner.source.scan.2 = o.source c.scanner.source := by
    rw [source, hnil, hpos, source, hrest]
  have hfirst : c.ahead = ⟨{ c.scanner with held := some ⟨x.token, true⟩ }, c.consumed⟩ := by
    rw [Cursor.ahead, Scanner.peek_of_held hx]
  refine ⟨(htame.abreast hmore).tame, (h.abreast hmore).ahead.trans ?_⟩
  rw [hfirst, hdiscard, Cursor.ahead,
    Scanner.peek_of_held_none (s := { c.scanner with held := none }) rfl]
  simp only [cursor, hsource, hscan, htoken]

/-- Nothing is lost: where nothing of a line is left, the cursor that drops the line has the
same tokens ahead as the one that reads on. -/
theorem Tame.discard (hmore : o.more = none) (h : o.Tame c) (hend : c.AtLineEnd) :
    o.Abreast c.discard (o.cursor c) := by
  rcases hend with hfinished | ⟨hheld, hrest | ⟨x, cs, hchars, hx⟩⟩
  · exact h.discard_of_finished hmore hfinished
  · rw [Cursor.discard_of_held_none hheld (Source.discard_of_rest_nil hrest)]
    exact h.abreast hmore
  · by_cases hinteractive : c.scanner.source.isInteractive = true
    · -- The next line starts where the line feed leads.
      obtain ⟨hlined, hstop, hscan⟩ := Source.scan_discard h.lined hinteractive hchars hx
      have htame : o.Tame c.discard :=
        ⟨hlined, h.quiet, h.log, h.name, hstop.trans h.stop, fun _ hy => nomatch hy⟩
      refine ⟨(htame.abreast hmore).tame, (h.abreast hmore).ahead.trans ?_⟩
      rw [h.cursor_ahead hheld, htame.cursor_ahead rfl, hscan]
      rfl
    · have hsource : c.scanner.source.discard = c.scanner.source := by
        rw [Source.discard, Bool.eq_false_iff.mpr hinteractive, Bool.false_and]
        rfl
      rw [Cursor.discard_of_held_none hheld hsource]
      exact h.abreast hmore

/-- Looking for the end of the input side by side. -/
theorem Abreast.atEnd (hloud : o.loud = false) (h : o.Abreast c d) :
    d.atEnd.1 = c.atEnd.1 ∧ c.atEnd.2.scanner.log = "" ∧ d.atEnd.2.scanner.log = "" ∧
      o.Abreast c.atEnd.2 d.atEnd.2 := by
  have hends : decide (d.scanner.peek.1.kind = .eof) = decide (c.scanner.peek.1.kind = .eof) := by
    rw [h.peek]
    rfl
  have hlog : d.ahead.scanner.log = "" := by
    rw [h.ahead]
    rfl
  refine ⟨hends, h.tame.log hloud, hlog, ?_, ?_⟩
  · exact c.ahead_peek ▸ h.tame
  · exact (d.ahead_peek.trans h.ahead).trans (congrArg o.cursor c.ahead_peek.symm)

/-- The tokens of the second source are those of the first. -/
theorem Tame.tokensWithin (hmore : o.more = none) (rounds : Nat) (h : o.Tame c) :
    ((o.cursor c).scanner.tokensWithin rounds).1 =
      (c.scanner.tokensWithin rounds).1.map (Token.relabel o.place) := by
  induction rounds generalizing c with
  | zero => rfl
  | succ rounds ih =>
    obtain ⟨hnext, -, -, -⟩ := h.next c.consumed
    obtain ⟨htoken, hcursor⟩ := h.next_cursor hmore c.consumed
    have hscanner : (o.cursor c).scanner.next.2 = _ := congrArg Cursor.scanner hcursor
    have hrest := ih hnext
    rw [Scanner.tokensWithin, Scanner.tokensWithin]
    dsimp only
    have hsame : (c.scanner.next.1.relabel o.place).kind = c.scanner.next.1.kind := rfl
    rw [htoken, hscanner, hsame]
    by_cases hkind : c.scanner.next.1.kind = .eof
    · rw [if_pos hkind, if_pos hkind]
      rfl
    · rw [if_neg hkind, if_neg hkind, List.map_cons, hrest]

/-- The tokens ahead are the tokens to come. -/
theorem Abreast.tokensWithin (hmore : o.more = none) (rounds : Nat) (h : o.Abreast c d) :
    (d.scanner.tokensWithin rounds).1 =
      (c.scanner.tokensWithin rounds).1.map (Token.relabel o.place) := by
  have hahead : ∀ e : Cursor, e.scanner.tokensWithin rounds = e.ahead.scanner.tokensWithin rounds ∨
      rounds = 0 := by
    intro e
    cases rounds with
    | zero => exact .inr rfl
    | succ rounds =>
      refine .inl ?_
      rw [Scanner.tokensWithin, Scanner.tokensWithin, e.next_ahead]
  rcases hahead c with hc | rfl
  · rcases hahead d with hd | rfl
    · rw [hc, hd, h.ahead]
      exact h.tame.tokensWithin hmore rounds
    · rfl
  · rfl

end Offset

namespace Progress

variable {M : Type} [Numeric M] {settings : Settings} {interactive : Bool} {p : Progress M}
  {e : Expr M}

/-- A run comes to a state in which a statement is about to be read. -/
inductive Reads (settings : Settings) (interactive : Bool) : Progress M → Progress M → Prop where
  /-- In the first round. -/
  | now {p : Progress M} (more : p.cursor.atEnd.1 = false) :
    Reads settings interactive p (p.moveTo p.cursor.atEnd.2)
  /-- In a later round. -/
  | later {p q : Progress M} (more : p.cursor.atEnd.1 = false)
    (goes : ((p.moveTo p.cursor.atEnd.2).step settings interactive).interrupt = none)
    (rest : Reads settings interactive ((p.moveTo p.cursor.atEnd.2).step settings interactive) q) :
    Reads settings interactive p q

/-- A statement that was read is evaluated. -/
theorem step_of_ok (interactive : Bool) (h : (p.cursor.statement settings).1 = .ok e) :
    p.step settings interactive =
      (p.moveTo (p.cursor.statement (M := M) settings).2).evaluate settings interactive e := by
  unfold step
  generalize p.cursor.statement (M := M) settings = read at h
  obtain ⟨result, c⟩ := read
  obtain rfl : result = .ok e := h
  rfl

/-- A statement with a value prints it. -/
theorem evaluate_of_runStatement {v : Value M} {m : Machine M}
    (h : p.machine.runStatement settings.maxDepth e = (.value v, m)) :
    p.evaluate settings interactive e = { p with
      machine := m
      out := (if interactive && settings.debug.cpu then p.out ++ timeLine else p.out) ++
        printed settings v } := by
  rw [evaluate, h]
  dsimp only
  split <;> rfl

/-- Evaluating a statement reads nothing. -/
theorem cursor_evaluate (settings : Settings) (interactive : Bool) (p : Progress M) (e : Expr M) :
    (p.evaluate settings interactive e).cursor = p.cursor := by
  unfold evaluate
  obtain ⟨outcome, m⟩ := p.machine.runStatement settings.maxDepth e
  generalize (interactive && settings.debug.cpu) = timed
  cases outcome with
  | value v => cases timed <;> rfl
  | failure x => cases settings.debug.stop <;> cases timed <;> rfl
  | stray op => cases timed <;> rfl

end Progress

section

variable {M : Type} {o : Offset} {settings : Settings}

/-- Positions that stay are no change. -/
@[simp] theorem SyntaxError.relabel_id (e : SyntaxError) : e.relabel id = e := by
  obtain ⟨file, pos, fault⟩ := e
  cases fault <;> rfl

/-- Positions that stay are no change. -/
@[simp] theorem Offset.relabelRead_id (r : Except SyntaxError (Expr M)) : relabelRead id r = r := by
  cases r with
  | ok e => rw [relabelRead, Expr.relabel_id]
  | error e => rw [relabelRead, SyntaxError.relabel_id]

/-- Positions that stay are no change in what was read. -/
theorem Offset.map_relabelRead_id (results : List (Except SyntaxError (Expr M))) :
    results.map (relabelRead id) = results :=
  (List.map_congr_left fun result _ => relabelRead_id result).trans (List.map_id _)

namespace Progress

/-- Two runs have come to the same and have the same tokens ahead. -/
structure Agree (o : Offset) (p q : Progress M) : Prop where
  /-- The same has been written. -/
  out : p.out = q.out
  /-- The same errors have been written. -/
  err : p.err = q.err
  /-- Both have succeeded so far, or none has. -/
  ok : p.ok = q.ok
  /-- The machines are in the same state. -/
  machine : p.machine = q.machine
  /-- Both were stopped by the same, or none was. -/
  interrupt : p.interrupt = q.interrupt
  /-- The same tokens are ahead. -/
  abreast : o.Abreast p.cursor q.cursor

variable {p q : Progress M} {c d : Cursor}

/-- Going on from a cursor that has logged nothing writes nothing. -/
theorem moveTo_of_log (p : Progress M) (h : c.scanner.log = "") :
    p.moveTo c = { p with cursor := c } := by
  obtain ⟨⟨source, name, logTokens, held, log⟩, consumed⟩ := c
  obtain rfl : log = "" := h
  simp only [moveTo]
  rw [Text.append_nil]

/-- Two runs go on from cursors that have logged nothing and have the same tokens ahead. -/
theorem Agree.moveTo (h : Agree o p q) (hc : c.scanner.log = "") (hd : d.scanner.log = "")
    (habreast : o.Abreast c d) : Agree o (p.moveTo c) (q.moveTo d) := by
  rw [moveTo_of_log p hc, moveTo_of_log q hd]
  exact ⟨h.out, h.err, h.ok, h.machine, h.interrupt, habreast⟩

/-- The two runs write the same. -/
theorem Agree.print (h : Agree o p q) (text : Text) : Agree o (p.print text) (q.print text) :=
  ⟨congrArg (· ++ text) h.out, h.err, h.ok, h.machine, h.interrupt, h.abreast⟩

/-- The two runs report the same error. -/
theorem Agree.complain (h : Agree o p q) (report : Text) :
    Agree o (p.complain report) (q.complain report) :=
  ⟨h.out, congrArg (· ++ report ++ "\n") h.err, rfl, h.machine, h.interrupt, h.abreast⟩

/-- The two runs are stopped by the same. -/
theorem Agree.stop (h : Agree o p q) (interrupt : Interrupt) :
    Agree o (p.stop interrupt) (q.stop interrupt) :=
  ⟨h.out, h.err, rfl, h.machine, rfl, h.abreast⟩

/-- A run over a source without a name before its first statement. -/
def atStart (settings : Settings) (source : Source) (env : Env M) : Progress M :=
  { cursor := Cursor.start settings "" source, machine := { env := env } }

/-- A conversation over plain lines starts side by side with the run over their text. -/
theorem agree_start (hdebug : settings.debug = {}) {lines : List Line}
    (hlines : ∀ line ∈ lines, line.Plain) (env : Env M) :
    Agree { stop := ({} : Position).advanceAll (lines.flatMap Line.chars) }
      (atStart settings (.ofLines lines) env)
      (atStart settings (.ofText (Line.joined lines)) env) := by
  refine ⟨rfl, rfl, rfl, rfl, rfl, ?_⟩
  have htokens : settings.debug.tokens = false := by rw [hdebug]
  have htame : Offset.Tame { stop := ({} : Position).advanceAll (lines.flatMap Line.chars) }
      (Cursor.start settings "" (.ofLines lines)) := by
    refine ⟨?_, fun _ => htokens, fun _ => rfl, rfl, rfl, fun _ hx => nomatch hx⟩
    rintro f ⟨⟩
    refine ⟨.inl rfl, fun line hline => ?_⟩
    obtain ⟨cs, hcs, -, hchars⟩ := (hlines line hline).chars
    exact .inr ⟨cs.filter (· ≠ '\r'), fun hmem => hcs (List.mem_filter.mp hmem).1, hchars⟩
  have hcursor : Offset.cursor { stop := ({} : Position).advanceAll (lines.flatMap Line.chars) }
      (Cursor.start settings "" (.ofLines lines)) =
        Cursor.start settings "" (.ofText (Line.joined lines)) := by
    have hchars : (Source.ofLines lines).rest ++ [] = (Line.joined lines).chars.filter (· ≠ '\r') := by
      rw [List.append_nil, Line.chars_joined hlines]
      rfl
    have hsource : (Offset.source { stop := ({} : Position).advanceAll (lines.flatMap Line.chars) }
        (.ofLines lines)) = .ofText (Line.joined lines) :=
      congrArg (fun cs => (⟨cs, {}, none⟩ : Source)) hchars
    simp only [Offset.cursor, Cursor.start, hsource, htokens]
    rfl
  have habreast := htame.abreast rfl
  rw [hcursor] at habreast
  exact habreast

variable [Numeric M]

/-- Without debug flags a statement is evaluated in a conversation as it is elsewhere. -/
theorem Agree.evaluate (hdebug : settings.debug = {}) (h : Agree o p q) (e : Expr M) :
    Agree o (p.evaluate settings true e) (q.evaluate settings false e) := by
  unfold Progress.evaluate
  rw [h.machine, hdebug]
  generalize q.machine.runStatement settings.maxDepth e = ran
  obtain ⟨outcome, machine⟩ := ran
  have hran : Agree o { p with machine := machine } { q with machine := machine } :=
    ⟨h.out, h.err, h.ok, rfl, h.interrupt, h.abreast⟩
  cases outcome with
  | value v => exact hran.print _
  | failure f => exact hran.complain _
  | stray op => exact hran.stop _

/-- One statement side by side: a conversation that drops the rest of a line after an error goes
on as the run that reads through. -/
theorem Agree.step (hplace : o.place = id) (hmore : o.more = none) (hloud : o.loud = false)
    (hdebug : settings.debug = {}) (h : Agree o p q) :
    Agree o ((p.moveTo p.cursor.atEnd.2).step settings true)
      ((q.moveTo q.cursor.atEnd.2).step settings false) := by
  have houtline : settings.debug.outline = false := by rw [hdebug]
  obtain ⟨-, hstatement, htame, -, herror⟩ :=
    h.abreast.statement (M := M) hmore (fun _ => houtline) houtline
  obtain ⟨-, hlog, hlog', -⟩ := h.abreast.atEnd hloud
  rw [hplace, Offset.relabelRead_id] at hstatement
  rw [moveTo_of_log p hlog, moveTo_of_log q hlog', Progress.step, Progress.step]
  dsimp only
  rw [hstatement]
  generalize p.cursor.atEnd.2.statement (M := M) settings = read at htame herror
  obtain ⟨result, c⟩ := read
  dsimp only at htame herror ⊢
  have hsecond : (o.cursor c).scanner.log = "" := rfl
  rw [moveTo_of_log _ (htame.log hloud), moveTo_of_log _ hsecond]
  cases result with
  | ok e =>
    refine Agree.evaluate hdebug ?_ e
    exact ⟨h.out, h.err, h.ok, h.machine, h.interrupt, htame.abreast hmore⟩
  | error e =>
    have hdiscard := htame.discard hmore (herror e rfl)
    simp only [reject, hdebug, Bool.false_eq_true, if_false, if_true]
    exact ⟨h.out, congrArg (· ++ e.report ++ "\n") h.err, rfl, h.machine, h.interrupt, hdiscard⟩

/-- The two runs agree after every number of rounds. -/
theorem Agree.loopWithin (hplace : o.place = id) (hmore : o.more = none) (hloud : o.loud = false)
    (hdebug : settings.debug = {}) (rounds : Nat) (h : Agree o p q) :
    Agree o (p.loopWithin settings true rounds) (q.loopWithin settings false rounds) := by
  induction rounds generalizing p q with
  | zero => exact h
  | succ rounds ih =>
    have hstep := h.step hplace hmore hloud hdebug
    obtain ⟨hends, hlog, hlog', habreast⟩ := h.abreast.atEnd hloud
    rw [Progress.loopWithin, Progress.loopWithin]
    dsimp only
    rw [hends, hstep.interrupt]
    split
    · exact h.moveTo hlog hlog' habreast
    · split
      · exact hstep
      · exact ih hstep

end Progress

/-- A conversation is a run over its text. Over lines without line feeds, a conversation writes
the output and the errors that a run over the lines in one text writes, and comes to the same
bindings. After every number of statements both have written the same so far, the same tokens are
still to come, at the same positions, and where a statement fails nothing but the line feed or a
comment is left of its line. -/
theorem conversation_agrees_with_text [Numeric M] (hdebug : settings.debug = {})
    {lines : List Line} (hlines : ∀ line ∈ lines, line.Plain) (env : Env M) :
    ((converse settings lines env).out =
        (runSource settings "" (.ofText (Line.joined lines)) env false).out ∧
      (converse settings lines env).err =
        (runSource settings "" (.ofText (Line.joined lines)) env false).err ∧
      (converse settings lines env).machine.env =
        (runSource settings "" (.ofText (Line.joined lines)) env false).machine.env ∧
      (converse settings lines env).ok =
        (runSource settings "" (.ofText (Line.joined lines)) env false).ok ∧
      (converse settings lines env).interrupt =
        (runSource settings "" (.ofText (Line.joined lines)) env false).interrupt) ∧
    ∀ rounds,
      let talk := (Progress.atStart settings (.ofLines lines) env).loopWithin settings true rounds
      let read := (Progress.atStart settings (.ofText (Line.joined lines)) env).loopWithin settings
        false rounds
      talk.out = read.out ∧ talk.err = read.err ∧ talk.machine = read.machine ∧
      (∀ n, (talk.cursor.scanner.tokensWithin n).1 = (read.cursor.scanner.tokensWithin n).1) ∧
      ∀ err, (talk.cursor.atEnd.2.statement (M := M) settings).1 = .error err →
        (talk.cursor.atEnd.2.statement (M := M) settings).2.AtLineEnd := by
  have hplace : Offset.place { stop := ({} : Position).advanceAll (lines.flatMap Line.chars) } = id :=
    Position.down_zero
  have houtline : settings.debug.outline = false := by rw [hdebug]
  have hrounds := fun rounds =>
    (Progress.agree_start (M := M) hdebug hlines env).loopWithin hplace rfl rfl hdebug rounds
  constructor
  · -- Both runs have the same number of rounds.
    have hsize : (Source.ofText (Line.joined lines)).size = (Source.ofLines lines).size := by
      rw [Source.size_eq, Source.size_eq, Source.rest_of_feed_none (s := .ofText _) rfl]
      exact congrArg List.length (Line.chars_joined hlines)
    have htalk : converse settings lines env = (Progress.atStart settings (.ofLines lines)
        env).loopWithin settings true ((Source.ofLines lines).size + 2) := rfl
    have hread : runSource settings "" (.ofText (Line.joined lines)) env false =
        (Progress.atStart settings (.ofText (Line.joined lines)) env).loopWithin settings false
          ((Source.ofLines lines).size + 2) := by
      rw [← hsize]
      rfl
    have hends := hrounds ((Source.ofLines lines).size + 2)
    rw [htalk, hread]
    exact ⟨hends.out, hends.err, congrArg Machine.env hends.machine, hends.ok, hends.interrupt⟩
  · intro rounds
    have hstate := hrounds rounds
    refine ⟨hstate.out, hstate.err, hstate.machine, fun n => ?_, ?_⟩
    · have htokens := hstate.abreast.tokensWithin rfl n
      rw [hplace] at htokens
      exact (htokens.trans (List.map_id _)).symm
    · exact (hstate.abreast.statement (M := M) rfl (fun _ => houtline) houtline).2.2.2.2

/-- A conversation with lines that fail in the middle, a line given up, and a statement that goes
on over a comment, side by side with the run over its text. -/
theorem conversation_past_failed_lines :
    let lines : List Line := [some "2 + ) 3", none, some "x = 4 + # more", some "5", some "x y )",
      some "x * x"]
    (∀ line ∈ lines, line.Plain) ∧
      (converse (M := ℚ) {} lines {}).out =
        (runSource (M := ℚ) {} "" (.ofText (Line.joined lines)) {} false).out ∧
      (converse (M := ℚ) {} lines {}).err =
        (runSource (M := ℚ) {} "" (.ofText (Line.joined lines)) {} false).err ∧
      (converse (M := ℚ) {} lines {}).err = "1:5: unexpected Punctuation: \")\"\n" ++
        "5:3: y is not defined\n" ++ "5:5: unexpected Punctuation: \")\"\n" := by
  intro lines
  have hlines : ∀ line ∈ lines, line.Plain := by
    have hplain : ∀ s : String, '\n' ∉ s.toList → Line.Plain (some (Text.ofString s)) :=
      fun s hs => ⟨s.toList, hs, congrArg Text.bytes (Text.ofString_eq_ofChars s)⟩
    simp only [lines, List.forall_mem_cons]
    exact ⟨hplain _ (by decide), ⟨[], by decide, rfl⟩, hplain _ (by decide), hplain _ (by decide),
      hplain _ (by decide), hplain _ (by decide), fun _ h => nomatch h⟩
  have hdebug : ({} : Settings).debug = {} := rfl
  obtain ⟨⟨hout, herr, -⟩, -⟩ := conversation_agrees_with_text (M := ℚ) hdebug hlines {}
  exact ⟨hlines, hout, herr, by decide +kernel⟩

end

end SymCalc
