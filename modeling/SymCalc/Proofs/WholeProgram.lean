import Mathlib
import SymCalc.Proofs.Composition

/-!
# Whole programs

A program is run as a whole, in one machine from the first statement to the last, or statement by
statement as it is read, where every statement that fails leaves the bindings as they were. Main
statement: unless the program comes to a return statement outside the bodies of functions, both runs
succeed or fail together, with the same bindings and the same last value, or with the same first
failure.
-/

namespace SymCalc

variable {M : Type} [Numeric M]

/-- The answers to statements that have come to values. -/
def Answer.values (vs : List (Value M)) : List (Answer M) := vs.map fun v => .ok (.value v)

namespace Machine

variable (limit : Nat) {m t : Machine M} {e : Expr M}

/-- Statements come to a return statement outside the bodies of functions. -/
def Returns (statements : List (Expr M)) (m : Machine M) : Prop :=
  ∃ v t, Eval.block .standard (limit - m.stack.length) statements m = .error (.returned v) t

instance (statements : List (Expr M)) (m : Machine M) : Decidable (m.Returns limit statements) :=
  match h : Eval.block .standard (limit - m.stack.length) statements m with
  | .error (.returned v) t => .isTrue ⟨v, t, h⟩
  | .ok _ _ => .isFalse (by rintro ⟨_, _, hreturn⟩; cases h.symm.trans hreturn)
  | .error (.fault _) _ => .isFalse (by rintro ⟨_, _, hreturn⟩; cases h.symm.trans hreturn)
  | .error (.stray _) _ => .isFalse (by rintro ⟨_, _, hreturn⟩; cases h.symm.trans hreturn)

/-- Where no call is in progress, all levels of calls are left for a statement. -/
theorem run_singleton (hm : m.stack = []) : m.run limit [e] =
    match e.evalWith .standard (Calls.left limit) m with
    | .ok v t => (.value v, t)
    | .error (.returned v) t => (.value v, { t with stack := [] })
    | .error (.fault cause) t => (.failure ⟨t.pos, cause, t.stack⟩, { t with stack := [] })
    | .error (.stray op) t => (.stray op, { t with stack := [] }) := by
  have hblock : e.evalWith .standard (Calls.left limit) m =
      Eval.block .standard (limit - m.stack.length) [e] m := by
    rw [hm, List.length_nil, Nat.sub_zero, Eval.block_singleton]
  unfold run runUsing
  generalize Eval.block .standard (limit - m.stack.length) [e] m = result at hblock
  subst hblock
  cases e.evalWith .standard (Calls.left limit) m with
  | ok v t => rfl
  | error x t => cases x <;> rfl

/-- A statement with a value is answered by it. -/
theorem answer_of_ok {v : Value M} (hm : m.stack = [])
    (h : e.evalWith .standard (Calls.left limit) m = .ok v t) :
    m.answer limit (.ok e) = (.ok (.value v), t) := by
  rw [answer, runStatement, run_singleton limit hm, h]

/-- A statement with a fault is answered by the failure. -/
theorem answer_of_fault {cause : Fault} (hm : m.stack = [])
    (h : e.evalWith .standard (Calls.left limit) m = .error (.fault cause) t) :
    (m.answer limit (.ok e)).1 = .ok (.failure ⟨t.pos, cause, t.stack⟩) := by
  rw [answer, runStatement, run_singleton limit hm, h]

/-- A statement that meets an operator out of place is answered by it. -/
theorem answer_of_stray {op : Operator} (hm : m.stack = [])
    (h : e.evalWith .standard (Calls.left limit) m = .error (.stray op) t) :
    (m.answer limit (.ok e)).1 = .ok (.stray op) := by
  rw [answer, runStatement, run_singleton limit hm, h]

/-- Statements evaluated in one go have the values that they have one by one, up to the first
one that has none. -/
theorem evalBlockWith_replay (statements : List (Expr M)) (last : Value M) (hm : m.stack = []) :
    match Expr.evalBlockWith .standard (Calls.left limit) last statements m with
    | .ok v t => ∃ vs, m.replay limit (statements.map .ok) = (Answer.values vs, t) ∧
        vs.getLastD last = v
    | .error (.returned _) _ => True
    | .error (.fault cause) t => ∃ vs later, (m.replay limit (statements.map .ok)).1 =
        Answer.values vs ++ .ok (.failure ⟨t.pos, cause, t.stack⟩) :: later
    | .error (.stray op) _ => ∃ vs later, (m.replay limit (statements.map .ok)).1 =
        Answer.values vs ++ .ok (.stray op) :: later := by
  induction statements generalizing m last with
  | nil => exact ⟨[], rfl, rfl⟩
  | cons e es ih =>
    have hkeeps := e.evalWith_left_keepsStack limit m
    rw [Expr.evalBlockWith_cons]
    cases he : e.evalWith .standard (Calls.left limit) m with
    | error x t =>
      cases x with
      | returned v => trivial
      | fault cause => exact ⟨[], _, congrArg (· :: _) (answer_of_fault limit hm he)⟩
      | stray op => exact ⟨[], _, congrArg (· :: _) (answer_of_stray limit hm he)⟩
    | ok v t =>
      -- The others go on in the machine that the first one leaves.
      rw [he] at hkeeps
      have hothers := ih v (Eq.trans hkeeps hm)
      have hreplay : m.replay limit ((e :: es).map .ok) =
          (.ok (.value v) :: (t.replay limit (es.map .ok)).1, (t.replay limit (es.map .ok)).2) := by
        rw [List.map_cons, replay, answer_of_ok limit hm he]
      rw [hreplay]
      dsimp only
      generalize Expr.evalBlockWith .standard (Calls.left limit) v es t = result at hothers
      cases result with
      | ok w u =>
        obtain ⟨vs, hvs, hlast⟩ := hothers
        exact ⟨v :: vs, by rw [hvs]; rfl, by rw [List.getLastD_cons]; exact hlast⟩
      | error x u =>
        cases x with
        | returned w => trivial
        | fault cause =>
          obtain ⟨vs, later, hvs⟩ := hothers
          exact ⟨v :: vs, later, by rw [hvs]; rfl⟩
        | stray op =>
          obtain ⟨vs, later, hvs⟩ := hothers
          exact ⟨v :: vs, later, by rw [hvs]; rfl⟩

/-- Statements that come to no return statement and no operator out of place are run in one go to
the value of the last one, or to the first failure. -/
theorem run_replay {statements : List (Expr M)} (hm : m.stack = [])
    (hreturn : ¬ Returns limit statements m)
    (hsettled : ∀ answer ∈ (m.replay limit (statements.map .ok)).1, Answer.Settled answer) :
    (∃ vs t, m.replay limit (statements.map .ok) = (Answer.values vs, t) ∧
      m.run limit statements = (.value (vs.getLastD .unit), t)) ∨
    ∃ vs x later, (m.replay limit (statements.map .ok)).1 =
        Answer.values vs ++ .ok (.failure x) :: later ∧
      (m.run limit statements).1 = .failure x := by
  have hreplay := evalBlockWith_replay limit statements .unit hm
  rw [Returns, hm, List.length_nil, Nat.sub_zero, Eval.block_eq] at hreturn
  rw [run, runUsing, hm, List.length_nil, Nat.sub_zero, Eval.block_eq]
  cases hblock : Expr.evalBlockWith .standard (Calls.left limit) .unit statements m with
  | ok v t =>
    rw [hblock] at hreplay
    obtain ⟨vs, hvs, rfl⟩ := hreplay
    exact .inl ⟨vs, t, hvs, rfl⟩
  | error x t =>
    rw [hblock] at hreplay
    cases x with
    | returned v => exact absurd ⟨v, t, hblock⟩ hreturn
    | fault cause =>
      obtain ⟨vs, later, hvs⟩ := hreplay
      exact .inr ⟨vs, _, later, hvs, rfl⟩
    | stray op =>
      obtain ⟨vs, later, hvs⟩ := hreplay
      have hmem : .ok (.stray op) ∈ (m.replay limit (statements.map .ok)).1 := by
        rw [hvs]
        exact List.mem_append_right _ List.mem_cons_self
      exact (hsettled _ hmem).elim

end Machine

namespace Progress

variable {settings : Settings} {interactive : Bool} {o : Offset} {p : Progress M} {e : Expr M}

/-- A statement with a value prints it and fails nothing. -/
theorem evaluate_of_value {v : Value M} {m : Machine M}
    (h : p.machine.answer settings.maxDepth (.ok e) = (.ok (.value v), m)) :
    p.evaluate settings interactive e = { p with
      machine := m
      out := (if interactive && settings.debug.cpu then p.out ++ timeLine else p.out) ++
        printed settings v } := by
  obtain ⟨houtcome, hmachine⟩ := Prod.mk.inj h
  have hran : p.machine.runStatement settings.maxDepth e = (.value v, m) :=
    Prod.ext (Except.ok.inj houtcome) hmachine
  exact evaluate_of_runStatement hran

/-- A statement with a failure reports it, or is stopped by it. -/
theorem evaluate_of_failure (interactive : Bool) {x : Failure M}
    (h : (p.machine.answer settings.maxDepth (.ok e)).1 = .ok (.failure x)) :
    (p.evaluate settings interactive e).ok = false ∧
      (settings.debug.stop = true →
        (p.evaluate settings interactive e).interrupt = some (.fault x.fault)) ∧
      (settings.debug.stop = false →
        (p.evaluate settings interactive e).interrupt = p.interrupt ∧
          (p.evaluate settings interactive e).err = p.err ++ (x.report ++ "\n")) := by
  have hran : (p.machine.runStatement settings.maxDepth e).1 = .failure x := Except.ok.inj h
  have hreport : p.err ++ x.report ++ "\n" = p.err ++ (x.report ++ Text.ofString "\n") :=
    ByteArray.append_assoc
  unfold evaluate
  generalize p.machine.runStatement settings.maxDepth e = ran at hran
  generalize (interactive && settings.debug.cpu) = timed
  obtain ⟨outcome, m⟩ := ran
  obtain rfl : outcome = .failure x := hran
  cases hstop : settings.debug.stop with
  | true => cases timed <;> exact ⟨rfl, fun _ => rfl, nofun⟩
  | false => cases timed <;> exact ⟨rfl, nofun, fun _ => ⟨rfl, hreport⟩⟩

/-- What has been reported stays, and so does the memory that something failed. -/
def Extends (p q : Progress M) : Prop :=
  (∃ rest, q.err = p.err ++ rest) ∧ (p.ok = false → q.ok = false)

omit [Numeric M] in
/-- Nothing has been reported. -/
theorem Extends.of_eq {p q : Progress M} (herr : q.err = p.err)
    (hok : p.ok = false → q.ok = false) :
    Extends p q :=
  ⟨⟨"", herr.trans (Text.append_nil _).symm⟩, hok⟩

omit [Numeric M] in
/-- What stays twice stays. -/
theorem Extends.trans {p q r : Progress M} (h : Extends p q) (h' : Extends q r) : Extends p r := by
  obtain ⟨⟨first, hfirst⟩, hok⟩ := h
  obtain ⟨⟨later, hlater⟩, hok'⟩ := h'
  exact ⟨⟨first ++ later, by rw [hlater, hfirst, ByteArray.append_assoc]⟩, hok' ∘ hok⟩

omit [Numeric M] in
/-- A report is added to what has been reported. -/
theorem extends_complain (p : Progress M) (report : Text) : Extends p (p.complain report) :=
  ⟨⟨report ++ "\n", ByteArray.append_assoc⟩, fun _ => rfl⟩

omit [Numeric M] in
/-- A syntax error adds to what has been reported. -/
theorem extends_reject (p : Progress M) (err : SyntaxError) :
    Extends p (p.reject settings interactive err) := by
  unfold reject
  cases settings.debug.stop with
  | true => exact .of_eq rfl fun _ => rfl
  | false =>
    cases interactive with
    | true => exact (extends_complain p err.report).trans (.of_eq rfl id)
    | false => exact extends_complain p err.report

/-- An evaluation adds to what has been reported. -/
theorem extends_evaluate (p : Progress M) (e : Expr M) :
    Extends p (p.evaluate settings interactive e) := by
  unfold evaluate
  obtain ⟨outcome, m⟩ := p.machine.runStatement settings.maxDepth e
  dsimp only
  have hprinted : Extends p
      (if (interactive && settings.debug.cpu) = true then
        ({ p with machine := m } : Progress M).print timeLine
      else { p with machine := m }) := by
    split <;> exact .of_eq rfl id
  refine hprinted.trans ?_
  cases outcome with
  | value v => exact .of_eq rfl id
  | failure x =>
    cases settings.debug.stop with
    | true => exact .of_eq rfl fun _ => rfl
    | false => exact extends_complain _ x.report
  | stray op => exact .of_eq rfl fun _ => rfl

/-- One statement adds to what has been reported. -/
theorem extends_step (p : Progress M) : Extends p (p.step settings interactive) := by
  unfold step
  generalize p.cursor.statement (M := M) settings = read
  obtain ⟨result, c⟩ := read
  have hmoved : Extends p (p.moveTo c) := .of_eq rfl id
  cases result with
  | error err => exact hmoved.trans (extends_reject _ err)
  | ok e => exact hmoved.trans (extends_evaluate _ e)

/-- A run adds to what has been reported. -/
theorem extends_loopWithin (rounds : Nat) (p : Progress M) :
    Extends p (p.loopWithin settings interactive rounds) := by
  induction rounds generalizing p with
  | zero => exact .of_eq rfl id
  | succ rounds ih =>
    rw [loopWithin]
    have hmoved : Extends p (p.moveTo p.cursor.atEnd.2) := .of_eq rfl id
    dsimp only
    split
    · exact hmoved
    · split
      · exact hmoved.trans (extends_step _)
      · exact hmoved.trans ((extends_step _).trans (ih _))

/-- At the end of the input a run ends. -/
theorem loopWithin_of_end (rounds : Nat) (h : p.cursor.scanner.peek.1.kind = .eof) :
    p.loopWithin settings interactive (rounds + 1) = p.moveTo p.cursor.atEnd.2 := by
  have hend : p.cursor.atEnd = (true, ⟨p.cursor.scanner.peek.2, p.cursor.consumed⟩) :=
    Prod.ext (decide_eq_true h) rfl
  rw [loopWithin, hend]
  rfl

/-- Before the end of the input a run goes on with a statement, and then with the others unless it
was stopped. -/
theorem loopWithin_of_token (rounds : Nat) (h : p.cursor.scanner.peek.1.kind ≠ .eof) :
    p.loopWithin settings interactive (rounds + 1) =
      let q := (p.moveTo p.cursor.atEnd.2).step settings interactive
      if q.interrupt.isSome then q else q.loopWithin settings interactive rounds := by
  have hend : p.cursor.atEnd = (false, ⟨p.cursor.scanner.peek.2, p.cursor.consumed⟩) :=
    Prod.ext (decide_eq_false h) rfl
  rw [loopWithin, hend]
  rfl

omit [Numeric M] in
/-- Writing what a cursor has logged changes nothing in where it stands. -/
theorem tame_moveTo (p : Progress M) {c : Cursor} (h : o.Tame c) : o.Tame (p.moveTo c).cursor :=
  ⟨h.lined, h.quiet, fun _ => rfl, h.name, h.stop, h.ended⟩

/-- A round of a run reads the statement that a reader which logs nothing reads. -/
theorem round_reads (hmore : o.more = none)
    (hloud : o.loud = false → settings.debug.outline = false) (rounds : Nat)
    (h : o.Tame p.cursor) (hkind : p.cursor.scanner.peek.1.kind ≠ .eof) :
    let c := (p.moveTo p.cursor.atEnd.2).cursor
    ((o.cursor p.cursor).statementsWithin (M := M) {} (rounds + 1)).1 =
        Offset.relabelRead o.place (c.statement settings).1 ::
          ((o.cursor (c.statement (M := M) settings).2).statementsWithin {} rounds).1 ∧
      o.Tame (c.statement (M := M) settings).2 := by
  intro c
  have hlinked : o.Linked p.cursor (o.cursor p.cursor) := .level h fun hsome => absurd hmore hsome
  have htame : o.Tame c := tame_moveTo p (h.peek p.cursor.consumed).1
  have hsilent : ({} : Settings).debug.outline = false := rfl
  obtain ⟨hstatement, hafter, -⟩ := htame.statement (M := M) hmore hloud hsilent
  refine ⟨?_, hafter⟩
  rcases hlinked.peek p.cursor.consumed with ⟨htoken, hpeeked, -⟩ | ⟨hsome, -⟩ | ⟨hsome, -⟩
  · obtain ⟨-, hcursor⟩ := (Offset.linked_iff hmore).mp hpeeked
    have hsecond : (⟨(o.cursor p.cursor).scanner.peek.2, (o.cursor p.cursor).consumed⟩ : Cursor) =
        o.cursor c := hcursor
    rw [Cursor.statementsWithin_of_token {} rounds _ (by rw [htoken]; exact hkind), hsecond,
      hstatement]
  · exact absurd hmore hsome
  · exact absurd hmore hsome

omit [Numeric M] in
/-- A reader that logs nothing comes to the end where a run does. -/
theorem peek_cursor (hmore : o.more = none) (h : o.Tame p.cursor) :
    (o.cursor p.cursor).scanner.peek.1.kind = p.cursor.scanner.peek.1.kind := by
  have hlinked : o.Linked p.cursor (o.cursor p.cursor) := .level h fun hsome => absurd hmore hsome
  rcases hlinked.peek p.cursor.consumed with ⟨htoken, -, -⟩ | ⟨hsome, -⟩ | ⟨hsome, -⟩
  · rw [htoken]
    rfl
  · exact absurd hmore hsome
  · exact absurd hmore hsome

/-- The first statement that a run reads, and what it leaves for the other rounds. -/
theorem exists_statement (hmore : o.more = none) (hplace : o.place = id)
    (hloud : o.loud = false → settings.debug.outline = false) {rounds : Nat}
    (h : o.Tame p.cursor) (hkind : p.cursor.scanner.peek.1.kind ≠ .eof)
    {statements : List (Expr M)}
    (hread : ((o.cursor p.cursor).statementsWithin {} (rounds + 1)).1 = statements.map .ok) :
    ∃ e es c, statements = e :: es ∧
      (p.moveTo p.cursor.atEnd.2).cursor.statement settings = (.ok e, c) ∧ o.Tame c ∧
      ((o.cursor c).statementsWithin {} rounds).1 = es.map .ok := by
  obtain ⟨hround, htame⟩ := round_reads (M := M) hmore hloud rounds h hkind
  rw [hplace, Offset.relabelRead_id, hread] at hround
  cases statements with
  | nil => cases hround
  | cons e es =>
    obtain ⟨hfirst, hothers⟩ := List.cons.inj hround
    exact ⟨e, es, _, rfl, Prod.ext hfirst.symm rfl, htame, hothers.symm⟩

/-- A run has gone through statements that all have values. -/
structure Completed (settings : Settings) (silent : Prop) (vs : List (Value M)) (m : Machine M)
    (p q : Progress M) : Prop where
  /-- The machine is the one that the statements leave. -/
  machine : q.machine = m
  /-- Nothing has failed. -/
  ok : q.ok = p.ok
  /-- Nothing has been reported. -/
  err : q.err = p.err
  /-- Nothing has stopped the run. -/
  interrupt : q.interrupt = none
  /-- The values have been printed. -/
  out : silent → q.out = p.out ++ Text.join "" (vs.map (printed settings))

variable {silent : Prop} {statements : List (Expr M)} {vs ws : List (Value M)} {m n : Machine M}

/-- A run that goes on is completed by the statements that it goes on with. -/
theorem Completed.trans {q r : Progress M} (hfirst : Completed settings silent vs n p q)
    (hlater : Completed settings silent ws m q r) : Completed settings silent (vs ++ ws) m p r where
  machine := hlater.machine
  ok := hlater.ok.trans hfirst.ok
  err := hlater.err.trans hfirst.err
  interrupt := hlater.interrupt
  out h := by
    rw [hlater.out h, hfirst.out h, List.map_append, Text.join_nil_append, ByteArray.append_assoc]

/-- Writing what a cursor has logged completes nothing. -/
theorem completed_moveTo {c : Cursor} (hinterrupt : p.interrupt = none)
    (hlog : silent → c.scanner.log = "") :
    Completed settings silent [] p.machine p (p.moveTo c) :=
  ⟨rfl, rfl, rfl, hinterrupt, fun h => congrArg (p.out ++ ·) (hlog h)⟩

/-- A statement with a value is completed by printing it. -/
theorem completed_evaluate {v : Value M} (hinterrupt : p.interrupt = none)
    (htimeless : silent → (interactive && settings.debug.cpu) = false)
    (hanswer : p.machine.answer settings.maxDepth (.ok e) = (.ok (.value v), m)) :
    Completed settings silent [v] m p (p.evaluate settings interactive e) := by
  rw [evaluate_of_value hanswer]
  refine ⟨rfl, rfl, rfl, hinterrupt, fun h => ?_⟩
  rw [htimeless h]
  rfl

/-- A round whose statement has a value prints it, and goes on behind the statement. -/
theorem step_completed (silent : Prop) (interactive : Bool) (hquiet : silent → o.loud = false)
    (htimeless : silent → (interactive && settings.debug.cpu) = false) (htame : o.Tame p.cursor)
    (hinterrupt : p.interrupt = none) {v : Value M} {c : Cursor}
    (hstatement : (p.moveTo p.cursor.atEnd.2).cursor.statement settings = (.ok e, c))
    (hafter : o.Tame c)
    (hanswer : p.machine.answer settings.maxDepth (.ok e) = (.ok (.value v), m)) :
    let q := (p.moveTo p.cursor.atEnd.2).step settings interactive
    Completed settings silent [v] m p q ∧ o.Tame q.cursor ∧ o.cursor q.cursor = o.cursor c := by
  intro q
  have hq : q = ((p.moveTo p.cursor.atEnd.2).moveTo c).evaluate settings interactive e := by
    have hstep := step_of_ok interactive (congrArg Prod.fst hstatement)
    rwa [hstatement] at hstep
  have hpeeked : Completed settings silent [] p.machine p (p.moveTo p.cursor.atEnd.2) :=
    completed_moveTo hinterrupt fun h => (htame.peek p.cursor.consumed).1.log (hquiet h)
  have hread : Completed settings silent [] p.machine (p.moveTo p.cursor.atEnd.2)
      ((p.moveTo p.cursor.atEnd.2).moveTo c) :=
    completed_moveTo (p := p.moveTo p.cursor.atEnd.2) hinterrupt fun h => hafter.log (hquiet h)
  have hanswer' : ((p.moveTo p.cursor.atEnd.2).moveTo c).machine.answer settings.maxDepth (.ok e) =
      (.ok (.value v), m) := hanswer
  have hcursor : q.cursor = ((p.moveTo p.cursor.atEnd.2).moveTo c).cursor := by
    rw [hq, evaluate_of_value hanswer']
  refine ⟨?_, ?_, ?_⟩
  · rw [hq]
    exact (hpeeked.trans hread).trans (completed_evaluate hinterrupt htimeless hanswer')
  · rw [hcursor]
    exact tame_moveTo _ hafter
  · rw [hcursor]
    rfl

/-- A run whose statements all have values comes to the machine that they leave, reports nothing
and prints the values. -/
theorem loopWithin_values (hmore : o.more = none) (hplace : o.place = id)
    (hloud : o.loud = false → settings.debug.outline = false) (hquiet : silent → o.loud = false)
    (htimeless : silent → (interactive && settings.debug.cpu) = false) (rounds : Nat)
    (htame : o.Tame p.cursor) (hinterrupt : p.interrupt = none)
    (hread : ((o.cursor p.cursor).statementsWithin {} rounds).1 = statements.map .ok)
    (hreplay : p.machine.replay settings.maxDepth (statements.map .ok) = (Answer.values vs, m)) :
    Completed settings silent vs m p (p.loopWithin settings interactive rounds) := by
  -- What there is to complete when nothing is left to read.
  have hdone {p : Progress M} {vs : List (Value M)} {m : Machine M}
      (h : p.machine.replay settings.maxDepth ([].map .ok) = (Answer.values vs, m)) :
      vs = [] ∧ m = p.machine := by
    obtain ⟨hvs, hm⟩ := Prod.mk.inj h
    exact ⟨List.map_eq_nil_iff.mp hvs.symm, hm.symm⟩
  induction rounds generalizing p statements vs with
  | zero =>
    obtain rfl : statements = [] := List.map_eq_nil_iff.mp hread.symm
    obtain ⟨rfl, rfl⟩ := hdone hreplay
    exact ⟨rfl, rfl, rfl, hinterrupt, fun _ => (Text.append_nil _).symm⟩
  | succ rounds ih =>
    by_cases hkind : p.cursor.scanner.peek.1.kind = .eof
    · rw [Cursor.statementsWithin_of_end {} rounds _
        ((peek_cursor hmore htame).trans hkind)] at hread
      obtain rfl : statements = [] := List.map_eq_nil_iff.mp hread.symm
      obtain ⟨rfl, rfl⟩ := hdone hreplay
      rw [loopWithin_of_end rounds hkind]
      exact completed_moveTo hinterrupt fun h => (htame.peek p.cursor.consumed).1.log (hquiet h)
    · obtain ⟨e, es, c, rfl, hstatement, hafter, hothers⟩ :=
        exists_statement (p := p) hmore hplace hloud htame hkind hread
      -- The first answer is a value, and the others are those of the machine after it.
      obtain ⟨hanswers, hend⟩ := Prod.mk.inj hreplay
      cases vs with
      | nil => cases hanswers
      | cons v vs =>
        obtain ⟨hvalue, hvalues⟩ := List.cons.inj hanswers
        obtain ⟨hstep, htame', hcursor⟩ :=
          step_completed silent interactive hquiet htimeless htame hinterrupt
          hstatement hafter (Prod.ext hvalue rfl)
        rw [loopWithin_of_token rounds hkind]
        dsimp only
        rw [hstep.interrupt]
        rw [← hcursor] at hothers
        refine hstep.trans (ih htame' hstep.interrupt hothers ?_)
        rw [hstep.machine]
        exact Prod.ext hvalues hend

/-- A run one of whose statements fails fails, and reports the first failure first or is stopped
by it. -/
theorem loopWithin_fails (interactive : Bool) (hmore : o.more = none) (hplace : o.place = id)
    (hloud : o.loud = false → settings.debug.outline = false) (rounds : Nat)
    (htame : o.Tame p.cursor) (hinterrupt : p.interrupt = none)
    (hread : ((o.cursor p.cursor).statementsWithin {} rounds).1 = statements.map .ok)
    {x : Failure M} {later : List (Answer M)}
    (hreplay : (p.machine.replay settings.maxDepth (statements.map .ok)).1 =
      Answer.values vs ++ .ok (.failure x) :: later) :
    let q := p.loopWithin settings interactive rounds
    q.ok = false ∧ (settings.debug.stop = true → q.interrupt = some (.fault x.fault)) ∧
      (settings.debug.stop = false → ∃ rest, q.err = p.err ++ (x.report ++ "\n" ++ rest)) := by
  intro q
  have hsome : statements ≠ [] := by
    rintro rfl
    exact (List.append_ne_nil_of_right_ne_nil _ (List.cons_ne_nil _ _)) hreplay.symm
  induction rounds generalizing p statements vs with
  | zero => exact absurd (List.map_eq_nil_iff.mp hread.symm) hsome
  | succ rounds ih =>
    have hkind : p.cursor.scanner.peek.1.kind ≠ .eof := by
      intro hkind
      rw [Cursor.statementsWithin_of_end {} rounds _
        ((peek_cursor hmore htame).trans hkind)] at hread
      exact hsome (List.map_eq_nil_iff.mp hread.symm)
    obtain ⟨e, es, c, rfl, hstatement, hafter, hothers⟩ :=
      exists_statement (p := p) hmore hplace hloud htame hkind hread
    have hq : q = let r := (p.moveTo p.cursor.atEnd.2).step settings interactive
        if r.interrupt.isSome then r else r.loopWithin settings interactive rounds :=
      loopWithin_of_token rounds hkind
    cases vs with
    | nil =>
      -- Whatever comes after the failure is reported after it.
      have hstep := step_of_ok interactive (congrArg Prod.fst hstatement)
      obtain ⟨hok, hstopped, hreported⟩ := evaluate_of_failure interactive
        (p := (p.moveTo p.cursor.atEnd.2).moveTo c) (List.cons.inj hreplay).1
      rw [hstatement] at hstep
      rw [hstep] at hq
      generalize ((p.moveTo p.cursor.atEnd.2).moveTo c).evaluate settings interactive e = r
        at hq hok hstopped hreported
      have hextends : Extends r q := by
        rw [hq]
        dsimp only
        split
        · exact .of_eq rfl id
        · exact extends_loopWithin rounds r
      refine ⟨hextends.2 hok, fun hstop => ?_, fun hstop => ?_⟩
      · rw [hq]
        dsimp only
        rw [hstopped hstop]
        exact hstopped hstop
      · obtain ⟨rest, hrest⟩ := hextends.1
        refine ⟨rest, ?_⟩
        rw [hrest, (hreported hstop).2, ByteArray.append_assoc]
        rfl
    | cons v vs =>
      obtain ⟨hvalue, hvalues⟩ := List.cons.inj hreplay
      obtain ⟨hstep, htame', hcursor⟩ := step_completed False interactive
        nofun nofun htame hinterrupt hstatement hafter (Prod.ext hvalue rfl)
      generalize (p.moveTo p.cursor.atEnd.2).step settings interactive = r
        at hq hstep htame' hcursor
      dsimp only at hq
      rw [hstep.interrupt] at hq
      have hes : es ≠ [] := by
        rintro rfl
        exact List.append_ne_nil_of_right_ne_nil _ (List.cons_ne_nil _ _) hvalues.symm
      rw [← hcursor] at hothers
      have hlater := ih htame' hstep.interrupt hothers (by rw [hstep.machine]; exact hvalues) hes
      rw [hstep.err] at hlater
      rw [hq]
      exact hlater

end Progress

namespace Offset

variable {settings : Settings} {c : Cursor}

/-- Reading statements in silence logs nothing. -/
theorem Tame.statementsWithin {o : Offset} (hmore : o.more = none)
    (hloud : o.loud = false → settings.debug.outline = false) (rounds : Nat) (h : o.Tame c) :
    o.Tame (c.statementsWithin (M := M) settings rounds).2 := by
  have hsilent : ({} : Settings).debug.outline = false := rfl
  induction rounds generalizing c with
  | zero => exact h
  | succ rounds ih =>
    have hpeeked := (h.peek c.consumed).1
    have hend : c.atEnd = (decide (c.scanner.peek.1.kind = .eof), ⟨c.scanner.peek.2, c.consumed⟩) :=
      rfl
    rw [Cursor.statementsWithin, hend]
    cases decide (c.scanner.peek.1.kind = .eof) with
    | true => exact hpeeked
    | false => exact ih (hpeeked.statement (M := M) hmore hloud hsilent).2.1

end Offset

section

variable {settings : Settings} {name text : Text} {statements : List (Expr M)}

/-- A program without syntax errors is run in an empty machine. -/
theorem runFile_of_program
    (h : ((Cursor.start settings name (.ofText text)).program settings).1 = .ok statements) :
    runFile settings name text =
      let out :=
        ((Cursor.start settings name (.ofText text)).program (M := M) settings).2.scanner.log
      match Machine.run settings.maxDepth statements {} with
      | (.value v, m) => ⟨some m.env, out ++ printed settings v, "", none⟩
      | (.failure f, _) =>
        if settings.debug.stop then ⟨none, out, "", some (.fault f.fault)⟩
        else ⟨none, out, name ++ ":" ++ f.report ++ "\n", none⟩
      | (.stray op, _) => ⟨none, out, "", some (.stray op)⟩ := by
  unfold runFile
  generalize (Cursor.start settings name (.ofText text)).program (M := M) settings = read at h
  obtain ⟨result, c⟩ := read
  obtain rfl : result = .ok statements := h
  rfl

/-- Reading a program in silence logs nothing. -/
theorem log_program (htokens : settings.debug.tokens = false)
    (houtline : settings.debug.outline = false) :
    ((Cursor.start settings name (.ofText text)).program (M := M) settings).2.scanner.log = "" := by
  have hstart : (Offset.alongside name text false).Tame _ :=
    (Offset.alongside_start fun _ => htokens).1
  have hend := hstart.statementsWithin (M := M) rfl (fun _ => houtline)
    (Cursor.start settings name (.ofText text)).scanner.size
  have hlog := hend.log rfl
  unfold Cursor.program Cursor.statements
  generalize (Cursor.start settings name (.ofText text)).statementsWithin (M := M) settings
    (Cursor.start settings name (.ofText text)).scanner.size = read at hlog
  obtain ⟨results, c⟩ := read
  dsimp only
  cases syntaxErrors results <;> exact hlog

/-- The last of the values is printed last. -/
theorem getLastD_printed (vs : List (Value M)) :
    ((Answer.values vs).map (Answer.printed settings)).getLastD "" =
      printed settings (vs.getLastD .unit) := by
  have hprinted : (Answer.values vs).map (Answer.printed settings) = vs.map (printed settings) :=
    List.map_map
  rw [hprinted, List.getLastD_eq_getLast?, List.getLastD_eq_getLast?, List.getLast?_map]
  exact Option.getD_map (printed settings) .unit vs.getLast?

end

/-- A program that fails in the body of a function, and has a statement after the failure. -/
def failingProgram : Text :=
  "x = 3\nf = lambda (n) \x7b return n / (x - 3) \x7d\nx * x\nf(x)\nx"

end SymCalc
