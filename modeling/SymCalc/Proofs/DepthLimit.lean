import Mathlib
import SymCalc.Proofs.Conversation
import SymCalc.Proofs.StackDiscipline

/-!
# The depth limit

The limit of calls in progress is looked at in one place, when a call is made. So processes with
two limits take the same steps until the lower one refuses a call. Main statement: a run, of
statements, of a whole program or of a source, that makes no call beyond the limit comes to the
same with every higher limit.
-/

namespace SymCalc

variable {M : Type}

/-- Whether a run ended with a call beyond the limit. -/
def Outcome.isOverflow : Outcome M → Bool
  | .failure f => f.fault.isOverflow
  | _ => false

namespace Process

variable [Numeric M] {limit higher : Nat} {p q : Process M}

/-- A process that has halted stays as it is. -/
theorem after_of_halted (hhalt : p.step limit = none) (n : Nat) : p.after limit n = p := by
  cases n with
  | zero => rfl
  | succ n => rw [after, hhalt]

/-- Steps after steps. -/
theorem after_add (limit i j : Nat) (p : Process M) :
    p.after limit (i + j) = (p.after limit i).after limit j := by
  induction i generalizing p with
  | zero => rw [Nat.zero_add, after]
  | succ i ih =>
    rw [Nat.succ_add, after, after]
    cases hstep : p.step limit with
    | none => exact (after_of_halted hstep j).symm
    | some q => exact ih q

/-- A process halts in one state only. -/
theorem after_unique {i j : Nat} (hi : (p.after limit i).step limit = none)
    (hj : (p.after limit j).step limit = none) : p.after limit i = p.after limit j :=
  calc p.after limit i
    _ = (p.after limit i).after limit j := (after_of_halted hi j).symm
    _ = p.after limit (j + i) := by rw [← after_add, Nat.add_comm]
    _ = p.after limit j := by rw [after_add, after_of_halted hj]

omit [Numeric M] in
/-- A process that has come to something has made a call beyond the limit if that says so. -/
theorem isOverflow_of_outcome {result : Outcome M × Machine M} (h : p.outcome = some result) :
    p.focus.isOverflow = result.1.isOverflow := by
  unfold outcome at h
  split at h <;> cases h <;> rfl

/-- A process that has come to something has halted. -/
theorem step_of_outcome {result : Outcome M × Machine M} (h : p.outcome = some result) :
    p.step limit = none := by
  unfold outcome at h
  split at h <;> cases h <;> rfl

/-- The limit is looked at when a call is made. With a higher limit a step is the same, unless
it is a call beyond the lower one. -/
theorem step_of_le (hle : limit ≤ higher) (p : Process M) :
    p.step higher = p.step limit ∨
      ∃ q, p.step limit = some q ∧ q.focus.isOverflow = true := by
  obtain ⟨focus, ws, m⟩ := p
  cases focus with
  | gather use values later =>
    cases later with
    | cons e es => exact .inl rfl
    | nil =>
      cases use with
      | tuple => exact .inl rfl
      | call pos name c =>
        by_cases hroom : m.stack.length < limit
        · left
          simp only [step, apply, hroom, hroom.trans_le hle, if_true]
        · right
          simp only [step, apply, hroom, if_false]
          exact ⟨_, rfl, rfl⟩
  | eval e => exact .inl rfl
  | rows pos done later => cases later <;> exact .inl rfl
  | cells pos done cells later rows => cases later <;> exact .inl rfl
  | block last later => cases later <;> exact .inl rfl
  | value v => cases ws <;> exact .inl rfl
  | exit x => cases ws <;> exact .inl rfl

/-- After a call beyond the limit a process only gives up what waits. -/
theorem isOverflow_of_step (hover : p.focus.isOverflow = true) (hstep : p.step limit = some q) :
    q.focus.isOverflow = true := by
  have hfailed := isAlive_of_isOverflow hover
  cases stackStep hstep with
  | stays alive | enters alive | leaves alive =>
    rw [hfailed] at alive
    cases alive
  | refused overflow => exact overflow
  | fails failed focus => rwa [focus]

/-- A call beyond the limit is what the process comes to. -/
theorem isOverflow_after (hover : p.focus.isOverflow = true) (n : Nat) :
    (p.after limit n).focus.isOverflow = true := by
  induction n generalizing p with
  | zero => exact hover
  | succ n ih =>
    rw [after]
    split
    · exact hover
    · rename_i q hstep
      exact ih (isOverflow_of_step hover hstep)

/-- Processes with two limits take the same steps, unless the lower one has refused a call. -/
theorem after_of_le (hle : limit ≤ higher) {n : Nat}
    (hmild : (p.after limit n).focus.isOverflow = false) :
    p.after higher n = p.after limit n := by
  induction n generalizing p with
  | zero => rfl
  | succ n ih =>
    rcases step_of_le hle p with hsame | ⟨q, hstep, hover⟩
    · rw [after, after, hsame]
      rw [after] at hmild
      cases hstep : p.step limit with
      | none => rfl
      | some q =>
        rw [hstep] at hmild
        exact ih hmild
    · rw [after, hstep] at hmild
      exact absurd (isOverflow_after hover n) (by rw [hmild]; exact Bool.false_ne_true)

end Process

namespace Machine

variable [Numeric M] {limit higher : Nat}

/-- A run that makes no call beyond the limit comes to the same with a higher one. -/
theorem run_of_le (hle : limit ≤ higher) {statements : List (Expr M)} {m : Machine M}
    (hmild : (m.run limit statements).1.isOverflow = false) :
    m.run higher statements = m.run limit statements := by
  obtain ⟨i, -, hlow⟩ := Process.haltsWith_run limit statements m
  obtain ⟨j, hhalt, hhigh⟩ := Process.haltsWith_run higher statements m
  rw [← Process.isOverflow_of_outcome hlow] at hmild
  have hsame := Process.after_of_le hle hmild
  rw [← hsame] at hlow
  rw [Process.after_unique hhalt (Process.step_of_outcome hlow), hlow] at hhigh
  exact (Option.some.inj hhigh).symm

/-- A statement that makes no call beyond the limit comes to the same with a higher one. -/
theorem runStatement_of_le (hle : limit ≤ higher) {e : Expr M} {m : Machine M}
    (hmild : (m.runStatement limit e).1.isOverflow = false) :
    m.runStatement higher e = m.runStatement limit e := by
  rw [(m.runStatement_eq limit e).1] at hmild
  rw [runStatement, runStatement, run_of_le hle hmild]

end Machine

namespace Settings

/-- The settings with another depth. -/
abbrev withDepth (settings : Settings) (depth : Nat) : Settings := { settings with depth := depth }

end Settings

section

variable [Numeric M] {settings : Settings} {depth : Nat}

/-- Reading does not depend on the depth. -/
theorem Cursor.statementsWithin_withDepth (settings : Settings) (depth rounds : Nat) (c : Cursor) :
    c.statementsWithin (M := M) (settings.withDepth depth) rounds =
      c.statementsWithin settings rounds := by
  induction rounds generalizing c with
  | zero => rfl
  | succ rounds ih =>
    rw [statementsWithin, statementsWithin]
    simp only [ih]
    rfl

/-- A program is read alike with another depth. -/
theorem Cursor.program_withDepth (settings : Settings) (depth : Nat) (c : Cursor) :
    c.program (M := M) (settings.withDepth depth) = c.program settings := by
  rw [program, program, statements, statements, statementsWithin_withDepth]

namespace Progress

variable {interactive : Bool} {p : Progress M}

/-- The statement that is read next makes no call beyond the limit. -/
def Shallow (settings : Settings) (p : Progress M) : Prop :=
  ∀ e, (p.cursor.statement settings).1 = .ok e →
    (p.machine.runStatement settings.maxDepth e).1.isOverflow = false

/-- A round is the same with a higher limit if its statement makes no call beyond the lower one. -/
theorem step_withDepth (hle : settings.maxDepth ≤ (settings.withDepth depth).maxDepth)
    (h : p.Shallow settings) :
    p.step (settings.withDepth depth) interactive = p.step settings interactive := by
  have hread : p.cursor.statement (M := M) (settings.withDepth depth) =
      p.cursor.statement settings := rfl
  unfold step
  rw [hread]
  unfold Shallow at h
  generalize p.cursor.statement (M := M) settings = read at h
  obtain ⟨result, c⟩ := read
  cases result with
  | error e => rfl
  | ok e =>
    have hrun := Machine.runStatement_of_le hle (h e rfl)
    simp only [evaluate, moveTo, hrun]
    rfl

/-- Rounds are the same with a higher limit. -/
theorem loopWithin_withDepth (hle : settings.maxDepth ≤ (settings.withDepth depth).maxDepth)
    (rounds : Nat) (h : ∀ q, Reads settings interactive p q → q.Shallow settings) :
    p.loopWithin (settings.withDepth depth) interactive rounds =
      p.loopWithin settings interactive rounds := by
  induction rounds generalizing p with
  | zero => rfl
  | succ rounds ih =>
    rw [loopWithin, loopWithin]
    dsimp only
    by_cases hend : p.cursor.atEnd.1 = true
    · rw [if_pos hend, if_pos hend]
    · have hmore : p.cursor.atEnd.1 = false := Bool.not_eq_true _ ▸ hend
      rw [if_neg hend, if_neg hend, step_withDepth hle (h _ (.now hmore))]
      split
      · rfl
      · rename_i hgoes
        have hgoes := Option.not_isSome_iff_eq_none.mp hgoes
        exact ih fun q hq => h q (.later hmore hgoes hq)

end Progress

/-- A whole program comes to the same with a higher limit. -/
theorem runFile_withDepth (hle : settings.maxDepth ≤ (settings.withDepth depth).maxDepth)
    {name text : Text}
    (h : ∀ statements : List (Expr M),
      ((Cursor.start settings name (.ofText text)).program settings).1 = .ok statements →
        (Machine.run settings.maxDepth statements {}).1.isOverflow = false) :
    runFile (M := M) (settings.withDepth depth) name text = runFile settings name text := by
  have hstart : Cursor.start (settings.withDepth depth) name (.ofText text) =
      Cursor.start settings name (.ofText text) := rfl
  unfold runFile
  rw [Cursor.program_withDepth, hstart]
  generalize (Cursor.start settings name (.ofText text)).program (M := M) settings = read at h
  obtain ⟨result, c⟩ := read
  cases result with
  | error errors => rfl
  | ok statements =>
    have hrun := Machine.run_of_le hle (h statements rfl)
    simp only [hrun]
    rfl

/-- Raising the depth limit is conservative. If the run of statements, on any machine, ends
otherwise than with a call beyond the limit, it comes with a higher limit to the same outcome, value
or failure with position and stack, and leaves the same machine; and so for a single statement. With
the depth set higher, a whole program whose run makes no such call gives the same report, bindings,
output and errors; and a run over a source, statement by statement, in which no statement that is
read makes such a call, comes to the same state. -/
theorem raising_depth_limit_conservative :
    (∀ (limit higher : Nat) (statements : List (Expr M)) (m : Machine M), limit ≤ higher →
      (m.run limit statements).1.isOverflow = false →
        m.run higher statements = m.run limit statements) ∧
    (∀ (limit higher : Nat) (e : Expr M) (m : Machine M), limit ≤ higher →
      (m.runStatement limit e).1.isOverflow = false →
        m.runStatement higher e = m.runStatement limit e) ∧
    ∀ (settings : Settings) (depth : Nat),
      settings.maxDepth ≤ (settings.withDepth depth).maxDepth →
      (∀ name text : Text,
        (∀ statements : List (Expr M),
          ((Cursor.start settings name (.ofText text)).program settings).1 = .ok statements →
            (Machine.run settings.maxDepth statements {}).1.isOverflow = false) →
        runFile (M := M) (settings.withDepth depth) name text = runFile settings name text) ∧
      ∀ (name : Text) (source : Source) (env : Env M) (interactive : Bool),
        (∀ p, Progress.Reads settings interactive
          { cursor := Cursor.start settings name source, machine := { env := env } } p →
            p.Shallow settings) →
        runSource (settings.withDepth depth) name source env interactive =
          runSource settings name source env interactive := by
  refine ⟨fun limit higher statements m hle hmild => Machine.run_of_le hle hmild,
    fun limit higher e m hle hmild => Machine.runStatement_of_le hle hmild,
    fun settings depth hle => ⟨fun name text h => runFile_withDepth hle h, ?_⟩⟩
  intro name source env interactive h
  exact Progress.loopWithin_withDepth hle _ h

end

/-- A function whose body calls another one, where a name is missing. -/
def missingName : Text :=
  "f = lambda (x) \x7b x + y \x7d\ng = lambda (x) \x7b f(x) \x7d\ng(1)\n"

/-- With two calls allowed the program fails at the missing name, with the two calls in progress. So
it does with five. -/
theorem missing_name_with_higher_limit :
    (∃ statements : List (Expr ℚ),
      ((Cursor.start { depth := 2 } "" (.ofText missingName)).program { depth := 2 }).1 =
          .ok statements ∧
        (∃ f, (Machine.run 2 statements {}).1 = .failure f ∧ f.fault = .undefined "y" ∧
          f.stack.length = 2) ∧
        Machine.run 5 statements {} = Machine.run 2 statements {}) ∧
      runFile (M := ℚ) { depth := 5 } "" missingName = runFile { depth := 2 } "" missingName := by
  have hruns : (match ((Cursor.start { depth := 2 } "" (.ofText missingName)).program
        (M := ℚ) { depth := 2 }).1 with
      | .ok statements =>
        match (Machine.run 2 statements {}).1 with
        | .failure f => decide (f.fault = .undefined "y") && decide (f.stack.length = 2)
        | _ => false
      | .error _ => false) = true := by
    decide +kernel
  cases hread : ((Cursor.start { depth := 2 } "" (.ofText missingName)).program
      (M := ℚ) { depth := 2 }).1 with
  | error errors =>
    rw [hread] at hruns
    cases hruns
  | ok statements =>
  rw [hread] at hruns
  dsimp only at hruns
  cases hrun : (Machine.run 2 statements {}).1 with
  | value v =>
    rw [hrun] at hruns
    cases hruns
  | stray op =>
    rw [hrun] at hruns
    cases hruns
  | failure f =>
  rw [hrun] at hruns
  obtain ⟨hfault, hstack⟩ := Bool.and_eq_true_iff.mp hruns
  have hfault : f.fault = .undefined "y" := of_decide_eq_true hfault
  have hmild : (Machine.run 2 statements {}).1.isOverflow = false := by
    rw [hrun, Outcome.isOverflow, hfault]
    rfl
  obtain ⟨hsame, -, hsettings⟩ := raising_depth_limit_conservative (M := ℚ)
  refine ⟨⟨statements, rfl, ⟨f, hrun, hfault, of_decide_eq_true hstack⟩,
    hsame 2 5 statements {} (by decide) hmild⟩, ?_⟩
  refine (hsettings { depth := 2 } 5 (by decide)).1 "" missingName fun other hother => ?_
  rw [hread] at hother
  cases hother
  exact hmild

end SymCalc
