import Mathlib
import SymCalc.Proofs.Magnitude
import SymCalc.Proofs.SoundEval
import SymCalc.Proofs.WellFormedPrograms

/-!
# What was read can be evaluated

Statements are read at any place that reading comes to, and evaluated in any environment whose
values come from earlier statements. Main statement: such an evaluation ends with a value, by a
return statement or by an ordinary fault. It never meets an operator where a value is needed and
never reads a cell that a matrix does not have. Operands of a kind that the arithmetic does not
know, and trees with a part missing, cannot even be written down.
-/

namespace SymCalc

variable {M : Type} [Numeric M]

/-- The places that the reading of statements comes to. -/
inductive Cursor.Reached (M : Type) [Numeric M] (settings : Settings) : Cursor → Prop where
  | start (name : Text) (source : Source) : Reached M settings (.start settings name source)
  | atEnd {c : Cursor} (before : Reached M settings c) : Reached M settings c.atEnd.2
  | statement {c : Cursor} (before : Reached M settings c) :
      Reached M settings (c.statement (M := M) settings).2
  | discard {c : Cursor} (before : Reached M settings c) : Reached M settings c.discard
  | written {c : Cursor} (before : Reached M settings c) :
      Reached M settings { c with scanner := { c.scanner with log := "" } }

/-- Wherever reading comes to, the token looked at is sound. -/
theorem Cursor.Reached.sound {settings : Settings} {c : Cursor} (h : Reached M settings c) :
    c.Sound := by
  induction h with
  | start name source => exact start_sound settings name source
  | atEnd _ ih => exact atEnd_sound ih
  | statement _ ih => exact (statement_wellFormed settings ih).2
  | discard _ _ => exact discard_sound _
  | written _ ih => exact ih

/-- A statement that was read somewhere. -/
def Expr.Read (e : Expr M) : Prop :=
  ∃ (settings : Settings) (c : Cursor),
    Cursor.Reached M settings c ∧ (c.statement settings).1 = .ok e

/-- A statement that was read is well formed. -/
theorem Expr.Read.wellFormed {e : Expr M} (h : e.Read) : e.WellFormed := by
  obtain ⟨settings, c, hc, he⟩ := h
  exact (Cursor.statement_wellFormed settings hc.sound).1 e he

namespace Cursor

/-- The statements read one after the other were each read somewhere. -/
theorem statementsWithin_read {settings : Settings} (rounds : Nat) {c : Cursor}
    (hc : Reached M settings c) :
    ∀ e : Expr M, .ok e ∈ (c.statementsWithin settings rounds).1 → e.Read := by
  induction rounds generalizing c with
  | zero => exact fun _ h => nomatch h
  | succ rounds ih =>
    intro e h
    have hend := hc.atEnd
    rw [statementsWithin] at h
    split at h
    · cases h
    · rename_i d heq
      rw [heq] at hend
      rcases List.mem_cons.mp h with h | h
      · exact ⟨settings, d, hend, h.symm⟩
      · exact ih hend.statement e h

/-- The statements of a program that was read were each read somewhere. -/
theorem program_read {settings : Settings} {c : Cursor} (hc : Reached M settings c)
    {es : List (Expr M)} (h : (c.program settings).1 = .ok es) : ∀ e ∈ es, e.Read := by
  intro e he
  have hmem : .ok e ∈ (c.statements (M := M) settings).1 := by
    rw [program_eq_ok_iff.mp h]
    exact List.mem_map_of_mem he
  exact statementsWithin_read _ hc e hmem

end Cursor

/-- A value that statements have come to: the value of a run of statements that were read, or
one bound after such a run, on a machine whose values were computed before. -/
inductive Value.Produced : Value M → Prop where
  | result {limit : Nat} {statements : List (Expr M)} {m : Machine M} {v : Value M}
      (before : ∀ b ∈ m.env.bindings, Produced b.2) (read : ∀ e ∈ statements, e.Read)
      (ends : (m.run limit statements).1 = .value v) : Produced v
  | bound {limit : Nat} {statements : List (Expr M)} {m : Machine M} {name : Text} {v : Value M}
      (before : ∀ b ∈ m.env.bindings, Produced b.2) (read : ∀ e ∈ statements, e.Read)
      (mem : (name, v) ∈ (m.run limit statements).2.env.bindings) : Produced v

/-- The run of statements that were read, on a machine whose values are sound, ends soundly. -/
theorem Machine.run_sound {m : Machine M} (limit : Nat) {statements : List (Expr M)}
    (hread : ∀ e ∈ statements, e.Read) (hm : m.env.Sound) :
    (m.run limit statements).1.Sound ∧ (m.run limit statements).2.env.Sound :=
  (run_follows id Operators.standard_agree limit (fun e he => (hread e he).wellFormed) hm).2

/-- What statements have come to is sound. -/
theorem Value.Produced.sound {v : Value M} (h : v.Produced) : v.Sound := by
  induction h with
  | @result limit _ _ _ _ read ends ih =>
    have hrun := (Machine.run_sound limit read ih).1
    rw [ends] at hrun
    exact hrun
  | bound _ read mem ih => exact (Machine.run_sound _ read ih).2 _ mem

/-- Evaluation meets no internal failure. The statements of a program are statements that
were read. A run of statements that were read, on a machine whose bindings hold values that
earlier statements have come to, ends with a value or with a failure, never at an operator where
a value is needed; and it is the same run when the operators stop at a cell that does not exist,
so no such cell is read. No failure is an empty or a ragged matrix or an unknown prefix operator,
and an unknown binary operator is one of those reserved. -/
theorem evaluation_never_fails_internally :
    (∀ (settings : Settings) (name : Text) (source : Source) (statements : List (Expr M)),
      ((Cursor.start settings name source).program settings).1 = .ok statements →
        ∀ e ∈ statements, e.Read) ∧
    ∀ (limit : Nat) (statements : List (Expr M)) (m : Machine M),
      (∀ e ∈ statements, e.Read) → (∀ b ∈ m.env.bindings, b.2.Produced) →
      m.runUsing .checked limit statements = m.run limit statements ∧
      ((∃ v, (m.run limit statements).1 = .value v) ∨
        ∃ x, (m.run limit statements).1 = .failure x ∧
          x.fault ≠ .emptyMatrix ∧ (∀ row got want, x.fault ≠ .raggedMatrix row got want) ∧
          (∀ symbol, x.fault ≠ .unknownUnary symbol) ∧
          ∀ symbol, x.fault = .unknownBinary symbol →
            symbol ∈ ([">*<", "<*>", "*.", "*+"] : List Text)) := by
  refine ⟨fun settings name source statements h => ?_, ?_⟩
  · exact Cursor.program_read (.start name source) h
  intro limit statements m hread hvalues
  have hsound : m.env.Sound := fun b hb => (hvalues b hb).sound
  have hwell : ∀ e ∈ statements, e.WellFormed := fun e he => (hread e he).wellFormed
  have hchecked := Machine.runUsing_eq_run Operators.checked_agree limit hwell hsound
  have hends := (Machine.run_sound limit hread hsound).1
  refine ⟨hchecked, ?_⟩
  cases houtcome : (m.run limit statements).1 with
  | value v => exact .inl ⟨v, rfl⟩
  | failure x =>
    rw [houtcome] at hends
    exact .inr ⟨x, rfl, hends.ne_empty, hends.ne_ragged, hends.ne_unary, hends.reserved⟩
  | stray op =>
    rw [houtcome] at hends
    exact hends.elim

/-- Statements that bind a matrix and a function that uses it. -/
def matrixProgram : Text := "m = [1, `x\n3, 4]\nf = lambda (n) \x7b return ~m * n \x7d"

/-- Statements that call the function, and end with a reserved operator. -/
def callProgram : Text := "f([1\n2]) *! m\nm <*> m"

/-- After the first program, which binds two names, the second ends at its reserved operator. -/
theorem matrix_programs_never_fail_internally :
    ∃ es ds : List (Expr ℚ),
      ((Cursor.start {} "" (.ofText matrixProgram)).program {}).1 = .ok es ∧
      ((Cursor.start {} "" (.ofText callProgram)).program {}).1 = .ok ds ∧
      let m := (Machine.run 10 es {}).2
      m.env.bindings.length = 2 ∧ m.runUsing .checked 10 ds = m.run 10 ds ∧
        ∃ x, (m.run 10 ds).1 = .failure x ∧ x.fault = .unknownBinary "<*>" := by
  have hruns : (match ((Cursor.start {} "" (.ofText matrixProgram)).program (M := ℚ) {}).1,
        ((Cursor.start {} "" (.ofText callProgram)).program (M := ℚ) {}).1 with
      | .ok es, .ok ds =>
        let m := (Machine.run 10 es {}).2
        decide (m.env.bindings.length = 2) &&
          match (m.run 10 ds).1 with
          | .failure x => decide (x.fault = .unknownBinary "<*>")
          | _ => false
      | _, _ => false) = true := by
    decide +kernel
  cases hes : ((Cursor.start {} "" (.ofText matrixProgram)).program (M := ℚ) {}).1 with
  | error errors =>
    rw [hes] at hruns
    cases hruns
  | ok es =>
  cases hds : ((Cursor.start {} "" (.ofText callProgram)).program (M := ℚ) {}).1 with
  | error errors =>
    rw [hes, hds] at hruns
    cases hruns
  | ok ds =>
  rw [hes, hds] at hruns
  obtain ⟨hlength, hfault⟩ := Bool.and_eq_true_iff.mp hruns
  obtain ⟨hreads, hsafe⟩ := evaluation_never_fails_internally (M := ℚ)
  have hread := hreads _ _ _ es hes
  have hnone : ∀ b ∈ ({} : Machine ℚ).env.bindings, b.2.Produced := fun _ h => nomatch h
  have hvalues : ∀ b ∈ (Machine.run 10 es {}).2.env.bindings, b.2.Produced :=
    fun _ hb => .bound hnone hread hb
  obtain ⟨hchecked, hends⟩ := hsafe 10 ds _ (hreads _ _ _ ds hds) hvalues
  refine ⟨es, ds, rfl, rfl, of_decide_eq_true hlength, hchecked, ?_⟩
  rcases hends with ⟨v, hv⟩ | ⟨x, hx, -⟩
  · simp [hv] at hfault
  · simp only [hx] at hfault
    exact ⟨x, hx, of_decide_eq_true hfault⟩

end SymCalc
