import Mathlib
import SymCalc.Proofs.CanonicalEval
import SymCalc.Proofs.WellFormedPrograms
import SymCalc.Run

/-!
# Canonical values in every run

The constants that stand in programs are canonical, so the evaluation of what was read keeps
values canonical. Main statement: every operator gives canonical values for canonical values,
and every value that is bound, returned, printed or shown in a trace in any run is canonical.
-/

namespace SymCalc

variable {M : Type} [Numeric M]

/-- A constant that stands in a program is canonical. -/
theorem Constant.Written.canonical (hone : Magnitude.isZero (1 : M) = false) {c : Constant M}
    (hc : c.Written) : c.Canonical := by
  cases hc with
  | number => exact .scalar (Scalar.number_canonical _)
  | boolean b => exact .boolean b
  | imaginaryUnit => exact .scalar (Poly.Canonical.term (.of_powers_nil rfl))
  | named isName notUnit => exact .scalar (Poly.Canonical.term (Term.named_canonical hone _))

/-- The constants of a well-formed tree are canonical. -/
theorem Expr.WellFormed.canonical (hone : Magnitude.isZero (1 : M) = false) {e : Expr M}
    (he : e.WellFormed) : e.Everywhere CanonicalLiteral := by
  refine he.mono fun e hnode => ?_
  cases e with
  | literal pos c => exact Constant.Written.canonical hone hnode
  | _ => exact trivial

namespace Progress

variable [LawfulMagnitude M] {p : Progress M}

/-- The machine is canonical, and what was read ahead is sound. -/
structure Canonical (p : Progress M) : Prop where
  /-- The token looked at is sound. -/
  cursor : p.cursor.Sound
  /-- The machine is canonical. -/
  machine : p.machine.Canonical

omit [LawfulMagnitude M] in
/-- Going on from a sound cursor changes no value. -/
theorem Canonical.moveTo (hp : p.Canonical) {c : Cursor} (hc : c.Sound) :
    (p.moveTo c).Canonical :=
  ⟨hc, hp.machine⟩

omit [LawfulMagnitude M] in
/-- Taking note of a syntax error changes no value. -/
theorem Canonical.reject (hp : p.Canonical) (settings : Settings) (interactive : Bool)
    (e : SyntaxError) : (p.reject settings interactive e).Canonical := by
  unfold Progress.reject
  split
  · exact ⟨hp.cursor, hp.machine⟩
  · dsimp only
    split
    · exact ⟨Cursor.discard_sound _, hp.machine⟩
    · exact ⟨hp.cursor, hp.machine⟩

/-- Evaluating a statement with canonical constants keeps a run canonical. -/
theorem Canonical.evaluate (hp : p.Canonical) (settings : Settings) (interactive : Bool)
    {e : Expr M} (he : e.Everywhere Expr.CanonicalLiteral) :
    (p.evaluate settings interactive e).Canonical := by
  have hrun := (Machine.runStatement_canonical settings.maxDepth he hp.machine).2
  unfold Progress.evaluate
  dsimp only
  generalize hq : (if interactive && settings.debug.cpu then
    Progress.print { p with machine := (p.machine.runStatement settings.maxDepth e).2 } timeLine
    else { p with machine := (p.machine.runStatement settings.maxDepth e).2 }) = q
  have hcanonical : q.Canonical := by
    rw [← hq]
    split
    · exact ⟨hp.cursor, hrun⟩
    · exact ⟨hp.cursor, hrun⟩
  -- Whatever is printed or complained about, the cursor and the machine are those of `q`.
  split
  · exact ⟨hcanonical.cursor, hcanonical.machine⟩
  · split
    · exact ⟨hcanonical.cursor, hcanonical.machine⟩
    · exact ⟨hcanonical.cursor, hcanonical.machine⟩
  · exact ⟨hcanonical.cursor, hcanonical.machine⟩

/-- A statement that is read is well formed, and one round of a run keeps it canonical. -/
theorem Canonical.step (hone : Magnitude.isZero (1 : M) = false) (hp : p.Canonical)
    (settings : Settings) (interactive : Bool) : (p.step settings interactive).Canonical := by
  obtain ⟨hread, hcursor⟩ := Cursor.statement_wellFormed (M := M) settings hp.cursor
  have hmoved := hp.moveTo hcursor
  unfold Progress.step
  dsimp only
  split
  · exact hmoved.reject settings interactive _
  · rename_i e he
    exact hmoved.evaluate settings interactive ((hread e he).canonical hone)

/-- Any number of rounds keeps a run canonical. -/
theorem Canonical.loopWithin (hone : Magnitude.isZero (1 : M) = false) (hp : p.Canonical)
    (settings : Settings) (interactive : Bool) (rounds : Nat) :
    (p.loopWithin settings interactive rounds).Canonical := by
  induction rounds generalizing p with
  | zero => exact hp
  | succ rounds ih =>
    have hmoved := hp.moveTo (Cursor.atEnd_sound hp.cursor)
    rw [Progress.loopWithin]
    dsimp only
    split
    · exact hmoved
    · split
      · exact hmoved.step hone settings interactive
      · exact ih (hmoved.step hone settings interactive)

end Progress

/-- A machine without calls in progress is canonical if its bindings are. -/
theorem Machine.canonical_of_env {env : Env M} (henv : env.bindings.Canonical) :
    ({ env := env } : Machine M).Canonical :=
  ⟨henv, fun _ hf => nomatch hf⟩

/-- Values stay canonical. Binary and unary operators give canonical values for canonical
values. An expression with canonical constants leaves a canonical machine canonical however it
ends, with calls nested to any depth. In a run from canonical bindings, so also from none, over
any source, the bindings are canonical after every round, and so is the outcome of the statement
that is read next: its value or the arguments that its trace shows. The same holds of a program
that is run as a whole. -/
theorem canonical_throughout [LawfulMagnitude M] :
    (∀ (u v w : Value M) (symbol : Text),
      u.Canonical → v.Canonical → u.binary symbol v = .ok w → w.Canonical) ∧
    (∀ (v w : Value M) (symbol : Text),
      v.Canonical → Value.unary symbol v = .ok w → w.Canonical) ∧
    (∀ (levels : Nat) (e : Expr M), e.Everywhere Expr.CanonicalLiteral →
      Eval.Stays Value.Canonical (e.evalWith .standard (some (Eval.block .standard levels)))) ∧
    (Magnitude.isZero (1 : M) = false →
      (∀ (settings : Settings) (name : Text) (source : Source) (interactive : Bool) (env : Env M)
        (rounds : Nat), env.bindings.Canonical →
        let p := Progress.loopWithin settings interactive rounds
          { cursor := .start settings name source, machine := { env := env } }
        p.machine.Canonical ∧
          ∀ e, ((p.moveTo p.cursor.atEnd.2).cursor.statement settings).1 = .ok e →
            (p.machine.runStatement settings.maxDepth e).1.Canonical) ∧
      (∀ (settings : Settings) (name text : Text) (statements : List (Expr M)),
        ((Cursor.start settings name (.ofText text)).program settings).1 = .ok statements →
        (Machine.run settings.maxDepth statements {}).1.Canonical ∧
          (Machine.run settings.maxDepth statements {}).2.Canonical)) := by
  refine ⟨fun _ _ _ _ => Value.binary_canonical, fun _ _ _ => Value.unary_canonical,
    fun levels _ he => Expr.evalWith_stays levels he, fun hone => ⟨?_, ?_⟩⟩
  · intro settings name source interactive env rounds henv p
    have hstart : Progress.Canonical
        { cursor := .start settings name source, machine := { env := env } } :=
      ⟨Cursor.start_sound settings name source, Machine.canonical_of_env henv⟩
    have hp : p.Canonical := hstart.loopWithin hone settings interactive rounds
    refine ⟨hp.machine, fun e he => ?_⟩
    have hcursor := Cursor.atEnd_sound hp.cursor
    have hread := (Cursor.statement_wellFormed settings (hp.moveTo hcursor).cursor).1 e he
    exact (Machine.runStatement_canonical settings.maxDepth (hread.canonical hone) hp.machine).1
  · intro settings name text statements hread
    have hwell := Cursor.program_wellFormed settings (Cursor.start_sound settings name _) hread
    exact Machine.run_canonical settings.maxDepth (fun e he => (hwell e he).canonical hone)
      (Machine.canonical_of_env fun _ hb => nomatch hb)

/-- The product of `x` and an imaginary term with `x` to the power `n`, and the bindings after
two rounds of a program. -/
theorem canonical_throughout_sample :
    (∃ w : Value ℚ, w.Canonical ∧
      Value.binary (.scalar (.poly (.term (.named "x")))) "*"
        (.scalar (.poly (.term ⟨2, true, [⟨"x", .term (.named "n")⟩]⟩))) = .ok w) ∧
    Machine.Canonical (Progress.loopWithin (M := ℚ) {} false 2
      { cursor := .start {} "" (.ofText "y = `x * (`x + 1)\ny - y / `x\n") }).machine := by
  have hone : Magnitude.isZero (1 : ℚ) = false := by simp
  have hx : (Value.scalar (.poly (.term (.named "x"))) : Value ℚ).Canonical :=
    .scalar (Poly.Canonical.term (Term.named_canonical hone _))
  have hpower : (Value.scalar (.poly (.term ⟨2, true, [⟨"x", .term (.named "n")⟩]⟩)) :
      Value ℚ).Canonical :=
    .scalar (Poly.Canonical.term (Term.single_canonical _ _ _ (Term.named_canonical hone _) hone))
  refine ⟨⟨_, canonical_throughout.1 _ _ _ "*" hx hpower rfl, rfl⟩, ?_⟩
  exact ((canonical_throughout.2.2.2 hone).1 _ _ _ _ {} _ fun _ hb => nomatch hb).1

end SymCalc
