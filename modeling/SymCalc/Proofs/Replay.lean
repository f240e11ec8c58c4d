import Mathlib
import SymCalc.Proofs.CallStack
import SymCalc.Proofs.Conversation
import SymCalc.Proofs.Safety

/-!
# Runs as replays

What a run writes and binds is determined by the statements and errors that are read, replayed one
after the other on a machine. Main statements: a run is the replay of what it reads; a replay goes
alike wherever the statements stand; and it depends on the bindings it starts with only.
-/

namespace SymCalc

variable {M : Type}

/-- What comes of a statement: its error if it cannot be read, and how its evaluation ends. -/
abbrev Answer (M : Type) := Except SyntaxError (Outcome M)

namespace Answer

/-- An answer with every position changed. -/
def relabel (f : Position → Position) : Answer M → Answer M
  | .error e => .error (e.relabel f)
  | .ok outcome => .ok (outcome.relabel f)

/-- What an answer reports: the error or the failure, on a line of its own. -/
def reported [Numeric M] : Answer M → Text
  | .error e => e.report ++ "\n"
  | .ok (.failure x) => x.report ++ "\n"
  | .ok _ => ""

/-- What an answer prints. -/
def printed [Numeric M] (settings : Settings) : Answer M → Text
  | .ok (.value v) => SymCalc.printed settings v
  | _ => ""

/-- What is printed does not depend on positions. -/
@[simp] theorem printed_relabel [Numeric M] (settings : Settings) (f : Position → Position)
    (answer : Answer M) : printed settings (relabel f answer) = printed settings answer := by
  cases answer with
  | error e => rfl
  | ok outcome =>
    cases outcome with
    | value v =>
      change SymCalc.printed settings (v.relabel f) = SymCalc.printed settings v
      rw [SymCalc.printed, SymCalc.printed, Value.isUnit_relabel, Value.render_relabel]
    | failure x => rfl
    | stray op => rfl

/-- An answer without an operator out of place. -/
def Settled : Answer M → Prop
  | .ok (.stray _) => False
  | _ => True

end Answer

namespace Machine

variable [Numeric M] {m n : Machine M} (limit : Nat)

/-- The answer to what was read, and the machine after it. -/
def answer (m : Machine M) : Except SyntaxError (Expr M) → Answer M × Machine M
  | .error e => (.error e, m)
  | .ok e => (.ok (m.runStatement limit e).1, (m.runStatement limit e).2)

/-- The answers to what was read, one after the other. -/
def replay : List (Except SyntaxError (Expr M)) → Machine M → List (Answer M) × Machine M
  | [], m => ([], m)
  | result :: results, m =>
    let first := m.answer limit result
    let later := replay results first.2
    (first.1 :: later.1, later.2)

/-- A replay of what was read first and what was read later. -/
theorem replay_append (first later : List (Except SyntaxError (Expr M))) (m : Machine M) :
    m.replay limit (first ++ later) =
      ((m.replay limit first).1 ++ ((m.replay limit first).2.replay limit later).1,
        ((m.replay limit first).2.replay limit later).2) := by
  induction first generalizing m with
  | nil => rfl
  | cons result first ih => simp only [List.cons_append, replay, ih]

variable {result : Except SyntaxError (Expr M)} {results : List (Except SyntaxError (Expr M))}

/-- A well-formed statement is settled on a sound machine, which stays sound. -/
theorem answer_sound (h : ∀ e, result = .ok e → e.WellFormed) (hm : m.env.Sound) :
    (m.answer limit result).1.Settled ∧ (m.answer limit result).2.env.Sound := by
  cases result with
  | error e => exact ⟨trivial, hm⟩
  | ok e =>
    obtain ⟨hsound, henv⟩ := runStatement_sound limit (h e rfl) hm
    refine ⟨?_, henv⟩
    change Answer.Settled (.ok (m.runStatement limit e).1)
    generalize (m.runStatement limit e).1 = outcome at hsound
    cases outcome with
    | value v => trivial
    | failure x => trivial
    | stray op => exact hsound

/-- Well-formed statements are settled on a sound machine, which stays sound. -/
theorem replay_sound (h : ∀ e, .ok e ∈ results → e.WellFormed) (hm : m.env.Sound) :
    (∀ answer ∈ (m.replay limit results).1, Answer.Settled answer) ∧
      (m.replay limit results).2.env.Sound := by
  induction results generalizing m with
  | nil => exact ⟨List.forall_mem_nil _, hm⟩
  | cons result results ih =>
    have hresult : ∀ e, result = .ok e → e.WellFormed :=
      fun e he => h e (he ▸ List.mem_cons_self)
    obtain ⟨hsettled, hsound⟩ := answer_sound limit hresult hm
    obtain ⟨hothers, hend⟩ := ih (fun e he => h e (List.mem_cons_of_mem _ he)) hsound
    exact ⟨List.forall_mem_cons.mpr ⟨hsettled, hothers⟩, hend⟩

/-- The answer to a well-formed statement is the same wherever the statement stands. -/
theorem answer_relabel (f : Position → Position) (h : ∀ e, result = .ok e → e.WellFormed)
    (hm : m.env.Sound) : (m.relabel f).answer limit (Offset.relabelRead f result) =
      (Answer.relabel f (m.answer limit result).1, (m.answer limit result).2.relabel f) := by
  cases result with
  | error e => rfl
  | ok e =>
    have hrun := runStatement_relabel f limit (h e rfl) hm
    simp only [Offset.relabelRead, answer, hrun]
    rfl

/-- A replay goes alike wherever the statements stand. -/
theorem replay_relabel (f : Position → Position) (h : ∀ e, .ok e ∈ results → e.WellFormed)
    (hm : m.env.Sound) : (m.relabel f).replay limit (results.map (Offset.relabelRead f)) =
      ((m.replay limit results).1.map (Answer.relabel f), (m.replay limit results).2.relabel f) := by
  induction results generalizing m with
  | nil => rfl
  | cons result results ih =>
    have hresult : ∀ e, result = .ok e → e.WellFormed :=
      fun e he => h e (he ▸ List.mem_cons_self)
    have hsound := (answer_sound limit hresult hm).2
    have hothers := ih (fun e he => h e (List.mem_cons_of_mem _ he)) hsound
    simp only [List.map_cons, replay, answer_relabel limit f hresult hm, hothers]

/-- After an answer no call is in progress. -/
theorem stack_answer (h : m.stack = []) : (m.answer limit result).2.stack = [] := by
  cases result with
  | error e => exact h
  | ok e => exact stack_runStatement limit e h

/-- After a replay no call is in progress. -/
theorem stack_replay (h : m.stack = []) : (m.replay limit results).2.stack = [] := by
  induction results generalizing m with
  | nil => exact h
  | cons result results ih => exact ih (stack_answer limit h)

/-- A replay depends on the bindings only, where no call is in progress. -/
theorem replay_of_env (hm : m.stack = []) (hn : n.stack = []) (henv : m.env = n.env) :
    (m.replay limit results).1 = (n.replay limit results).1 ∧
      (m.replay limit results).2.env = (n.replay limit results).2.env := by
  induction results generalizing m n with
  | nil => exact ⟨rfl, henv⟩
  | cons result results ih =>
    have hanswer : (m.answer limit result).1 = (n.answer limit result).1 ∧
        (m.answer limit result).2.env = (n.answer limit result).2.env := by
      cases result with
      | error e => exact ⟨rfl, henv⟩
      | ok e =>
        have hsame := runStatement_of_env limit e hm hn henv
        exact ⟨by rw [answer, answer, hsame], by rw [answer, answer, hsame]⟩
    obtain ⟨hothers, hend⟩ := ih (stack_answer limit hm) (stack_answer limit hn) hanswer.2
    exact ⟨by rw [replay, replay, hanswer.1, hothers], hend⟩

end Machine

/-- Texts put together without anything between them. -/
theorem Text.join_nil_cons (t : Text) (ts : List Text) : join "" (t :: ts) = t ++ join "" ts := by
  cases ts with
  | nil => exact (append_nil t).symm
  | cons u ts => rw [join_cons "" t (List.cons_ne_nil u ts), append_nil]

/-- Texts put together in two parts. -/
theorem Text.join_nil_append (ts us : List Text) : join "" (ts ++ us) = join "" ts ++ join "" us := by
  induction ts with
  | nil => exact (nil_append _).symm
  | cons t ts ih => rw [List.cons_append, join_nil_cons, join_nil_cons, ih, ByteArray.append_assoc]

namespace Progress

variable [Numeric M] {settings : Settings} {o : Offset}

/-- From one state to another a run has written answers, and was not stopped. -/
structure Wrote (settings : Settings) (p q : Progress M) (answers : List (Answer M)) : Prop where
  /-- The answers were printed. -/
  out : q.out = p.out ++ Text.join "" (answers.map (Answer.printed settings))
  /-- Errors and failures were reported. -/
  err : q.err = p.err ++ Text.join "" (answers.map Answer.reported)
  /-- The run was not stopped. -/
  interrupt : q.interrupt = none

variable {p q r : Progress M} {xs ys : List (Answer M)}

/-- Nothing has been written. -/
theorem Wrote.nil (hout : q.out = p.out) (herr : q.err = p.err) (hinterrupt : q.interrupt = none) :
    Wrote settings p q [] :=
  ⟨hout.trans (Text.append_nil _).symm, herr.trans (Text.append_nil _).symm, hinterrupt⟩

/-- Answers are written after others. -/
theorem Wrote.trans (hfirst : Wrote settings p q xs) (hlater : Wrote settings q r ys) :
    Wrote settings p r (xs ++ ys) := by
  refine ⟨?_, ?_, hlater.interrupt⟩
  · rw [hlater.out, hfirst.out, List.map_append, Text.join_nil_append, ByteArray.append_assoc]
  · rw [hlater.err, hfirst.err, List.map_append, Text.join_nil_append, ByteArray.append_assoc]

/-- Without debug flags, a run over a text writes the answer to what it reads. -/
theorem step_wrote (hdebug : settings.debug = {}) (hinterrupt : p.interrupt = none)
    (hlog : (p.cursor.statement (M := M) settings).2.scanner.log = "")
    (hsettled : (p.machine.answer settings.maxDepth (p.cursor.statement settings).1).1.Settled) :
    Wrote settings p (p.step settings false)
        [(p.machine.answer settings.maxDepth (p.cursor.statement settings).1).1] ∧
      (p.step settings false).machine =
        (p.machine.answer settings.maxDepth (p.cursor.statement settings).1).2 ∧
      (p.step settings false).cursor = (p.cursor.statement (M := M) settings).2 := by
  unfold Progress.step
  generalize p.cursor.statement (M := M) settings = read at hlog hsettled
  obtain ⟨result, c⟩ := read
  dsimp only at hlog hsettled ⊢
  rw [moveTo_of_log p hlog]
  cases result with
  | error e =>
    have hreport : p.err ++ e.report ++ "\n" = p.err ++ (e.report ++ Text.ofString "\n") :=
      ByteArray.append_assoc
    simp only [reject, hdebug, Bool.false_eq_true, if_false]
    exact ⟨⟨(Text.append_nil _).symm, hreport, hinterrupt⟩, rfl, rfl⟩
  | ok e =>
    simp only [evaluate, hdebug, Bool.and_false, Bool.false_eq_true, if_false, Machine.answer]
      at hsettled ⊢
    generalize p.machine.runStatement settings.maxDepth e = ran at hsettled
    obtain ⟨outcome, machine⟩ := ran
    cases outcome with
    | value v => exact ⟨⟨rfl, (Text.append_nil _).symm, hinterrupt⟩, rfl, rfl⟩
    | failure x =>
      have hreport : p.err ++ x.report ++ "\n" = p.err ++ (x.report ++ Text.ofString "\n") :=
        ByteArray.append_assoc
      exact ⟨⟨(Text.append_nil _).symm, hreport, hinterrupt⟩, rfl, rfl⟩
    | stray op => exact hsettled.elim

/-- A run is the replay of what it reads. -/
theorem loopWithin_wrote (hmore : o.more = none) (hloud : o.loud = false)
    (hdebug : settings.debug = {}) (rounds : Nat) (htame : o.Tame p.cursor)
    (hinterrupt : p.interrupt = none)
    (hwell : ∀ e : Expr M, .ok e ∈ (p.cursor.statementsWithin settings rounds).1 → e.WellFormed)
    (hsound : p.machine.env.Sound) :
    Wrote settings p (p.loopWithin settings false rounds)
        (p.machine.replay settings.maxDepth (p.cursor.statementsWithin settings rounds).1).1 ∧
      (p.loopWithin settings false rounds).machine =
        (p.machine.replay settings.maxDepth (p.cursor.statementsWithin settings rounds).1).2 := by
  have houtline : settings.debug.outline = false := by rw [hdebug]
  induction rounds generalizing p with
  | zero => exact ⟨.nil rfl rfl hinterrupt, rfl⟩
  | succ rounds ih =>
    obtain ⟨hpeek, -⟩ := htame.peek p.cursor.consumed
    have hend : p.cursor.atEnd = (decide (p.cursor.scanner.peek.1.kind = .eof),
        ⟨p.cursor.scanner.peek.2, p.cursor.consumed⟩) := rfl
    rw [loopWithin, hend]
    dsimp only
    rw [moveTo_of_log p (hpeek.log hloud)]
    by_cases hkind : p.cursor.scanner.peek.1.kind = .eof
    · rw [p.cursor.statementsWithin_of_end settings rounds hkind, decide_eq_true hkind]
      exact ⟨.nil rfl rfl hinterrupt, rfl⟩
    · rw [p.cursor.statementsWithin_of_token settings rounds hkind] at hwell ⊢
      rw [decide_eq_false hkind]
      dsimp only at hwell ⊢
      obtain ⟨-, hafter, -, -⟩ := hpeek.statement (M := M) hmore (fun _ => houtline) houtline
      have hresult := fun e he => hwell e (List.mem_cons.mpr (.inl (Eq.symm he)))
      obtain ⟨hsettled, hsound'⟩ := Machine.answer_sound settings.maxDepth hresult hsound
      obtain ⟨hwrote, hmachine, hcursor⟩ := step_wrote
        (p := { p with cursor := ⟨p.cursor.scanner.peek.2, p.cursor.consumed⟩ }) hdebug hinterrupt
        (hafter.log hloud) hsettled
      generalize ({ p with cursor := ⟨p.cursor.scanner.peek.2, p.cursor.consumed⟩ } :
        Progress M).step settings false = stepped at hwrote hmachine hcursor ⊢
      have hothers := ih (p := stepped) (hcursor ▸ hafter) hwrote.interrupt
        (fun e he => hwell e (List.mem_cons_of_mem _ (hcursor ▸ he))) (hmachine ▸ hsound')
      rw [hmachine, hcursor] at hothers
      simp only [hwrote.interrupt, Bool.false_eq_true, if_false, Option.isSome_none]
      have hstart : Wrote settings p stepped _ := ⟨hwrote.out, hwrote.err, hwrote.interrupt⟩
      exact ⟨hstart.trans hothers.1, hothers.2⟩

end Progress

end SymCalc
