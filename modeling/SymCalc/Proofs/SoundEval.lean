import Mathlib
import SymCalc.Proofs.CheckedOperators
import SymCalc.Proofs.Simulation

/-!
# Evaluation of well-formed statements

Among the operators that an evaluation may be given are those that stop at a cell that does not
exist. Main statement: well-formed statements on a machine whose values are sound are
evaluated alike with all operators that agree on sound values, and alike wherever the statements
stand in a text; they leave a machine whose values are sound, and end with a sound value, by a
return statement or by an ordinary fault.
-/

namespace SymCalc

variable {M : Type} [Numeric M]

/-- The result of an operator, or its fault; an operator that stops is out of place. -/
def Eval.perform (op : Operator) : Option (Except Fault (Value M)) → Eval M (Value M)
  | some result => lift result
  | none => throw (.stray op)

namespace Operators

/-- The operators that stop at a cell that does not exist. -/
def checked : Operators M where
  unary op v := Eval.perform op (Value.unary? op.symbol v)
  binary u op v := Eval.perform op (u.binary? op.symbol v)

/-- On sound values, and with symbols that a text can lead to, the operators are those that the
symbols stand for. -/
structure Agree (ops : Operators M) : Prop where
  /-- The prefix operators agree. -/
  unary : ∀ {op : Operator} {v : Value M}, isUnaryOperator op.symbol = true → v.Sound →
    ops.unary op v = standard.unary op v
  /-- The binary operators agree. -/
  binary : ∀ {op : Operator} {u v : Value M}, (priority? op.symbol).isSome = true → u.Sound →
    v.Sound → ops.binary u op v = standard.binary u op v

/-- The operators that the symbols stand for agree with themselves. -/
theorem standard_agree : (standard : Operators M).Agree := ⟨fun _ _ => rfl, fun _ _ _ => rfl⟩

/-- No operator on sound values stops at a cell that does not exist. -/
theorem checked_agree : (checked : Operators M).Agree where
  unary {op _} h hv := congrArg (Eval.perform op) (hv.unary h).1
  binary {op _ _} h hu hv := congrArg (Eval.perform op) (hu.binary h hv).1

end Operators

/-- Every name is bound to a sound value. -/
def Env.Sound (env : Env M) : Prop := ∀ b ∈ env.bindings, b.2.Sound

/-- A sound value is sound wherever the functions in it stand. -/
theorem Value.Sound.relabel (f : Position → Position) {v : Value M} (hv : v.Sound) :
    (v.relabel f).Sound := by
  induction hv with
  | scalar s => exact .scalar s
  | matrix full => exact .matrix full
  | boolean b => exact .boolean b
  | tuple _ ih =>
    rw [Value.relabel_tuple]
    exact .tuple (List.forall_mem_map.mpr ih)
  | @closure c _ body ih =>
    refine .closure ?_ ?_
    · rw [Closure.captured_relabel, Bindings.relabel_eq_map]
      exact List.forall_mem_map.mpr ih
    · rw [Closure.body_relabel]
      exact List.forall_mem_map.mpr fun e he => (body e he).relabel f
  | unit => exact .unit

/-- A sound environment is sound wherever the functions in it stand. -/
theorem Env.Sound.relabel (f : Position → Position) {env : Env M} (henv : env.Sound) :
    (env.relabel f).Sound := by
  intro b hb
  rw [Env.relabel, Bindings.relabel_eq_map] at hb
  obtain ⟨a, ha, rfl⟩ := List.mem_map.mp hb
  exact (henv a ha).relabel f

/-- A value found in sound bindings is sound. -/
theorem Bindings.find?_sound {bs : Bindings M} {name : Text} {v : Value M}
    (hbs : ∀ b ∈ bs, b.2.Sound) (h : bs.find? name = some v) : v.Sound :=
  hbs _ (Bindings.mem_of_find? h)

/-- Binding a name to a sound value keeps bindings sound. -/
theorem Bindings.insert_sound {bs : Bindings M} (name : Text) {v : Value M}
    (hbs : ∀ b ∈ bs, b.2.Sound) (hv : v.Sound) : ∀ b ∈ bs.insert name v, b.2.Sound := by
  intro b hb
  rcases Bindings.mem_insert hb with rfl | hb
  · exact hv
  · exact hbs b hb

/-- Binding parameters to sound arguments keeps bindings sound. -/
theorem Closure.bindArgs_sound (params : List Text) {args : List (Value M)} {bs : Bindings M}
    (hbs : ∀ b ∈ bs, b.2.Sound) (hargs : ∀ v ∈ args, v.Sound) :
    ∀ b ∈ bindArgs params args bs, b.2.Sound := by
  intro b hb
  rcases mem_bindArgs hb with hb | hb
  · exact hargs b.2 hb
  · exact hbs b hb

/-- A constant that stands in a program is a sound value without positions. -/
theorem Constant.Written.value {c : Constant M} (hc : c.Written) (f : Position → Position) :
    c.value.Sound ∧ c.value = c.value.relabel f := by
  cases hc with
  | boolean b => exact ⟨.boolean b, rfl⟩
  | _ => exact ⟨.scalar _, rfl⟩

/-- The faults of evaluation itself are ordinary. -/
theorem Fault.OfEvaluation.ordinary {cause : Fault} (h : cause.OfEvaluation) : cause.Ordinary := by
  cases h <;> constructor <;> simp

/-- Sound machines, the second one with other operators and with every position changed. -/
def soundSimulation (f : Position → Position) (ops : Operators M) : Simulation Unit M where
  move := f
  ops := ops
  Node _ := Expr.WellFormedNode
  Values u v := u.Sound ∧ v = u.relabel f
  Faults := Fault.Ordinary
  Strays _ := False
  States _ m m' := m.env.Sound ∧ m' = m.relabel f

section Laws

variable {f : Position → Position} {ops : Operators M}

/-- An operation with a sound result, or an ordinary fault, and the same one where every position is
changed. -/
theorem SoundResult.relates {x : Except Fault (Value M)} (hx : SoundResult x) :
    (soundSimulation f ops).Relates () (soundSimulation f ops).Values (Eval.lift x)
      (Eval.lift (x.map (Value.relabel f))) := by
  refine .lift _ (fun v hv => ⟨?_, rfl⟩) fun cause hcause => ?_
  · subst hv
    exact hx
  · subst hcause
    exact hx

/-- Operators that agree on sound values keep machines sound, wherever the statements stand. -/
theorem soundSimulation_lawful (hops : ops.Agree) : (soundSimulation f ops).Lawful where
  kind {u v} h := by
    rw [h.2, Value.kind_relabel]
  boolean {a b} h := by
    cases h.2
    rfl
  params {c d} h := by
    cases h.2
    rw [Closure.params_relabel]
  unit := ⟨.unit, rfl⟩
  tuple {us vs} h := by
    obtain ⟨hus, rfl⟩ := eq_map_of_forall₂ h
    exact ⟨.tuple hus, (Value.relabel_tuple f us).symm⟩
  constant h := h.value f
  fault h := h.ordinary
  stray h := h
  moveTo {_ m m'} pos h := by
    obtain ⟨hm, rfl⟩ := h
    exact ⟨hm, rfl⟩
  found {_ e name m m'} _ _ h := by
    obtain ⟨hm, rfl⟩ := h
    have hfound : (m.relabel f).env.bindings.find? name =
        (m.env.bindings.find? name).map (Value.relabel f) :=
      Bindings.find?_relabel f m.env.bindings name
    rw [hfound]
    cases hv : m.env.bindings.find? name with
    | none => exact .none
    | some v => exact .some ⟨Bindings.find?_sound hm hv, rfl⟩
  insert {_ u v m m'} name huv h := by
    obtain ⟨hm, rfl⟩ := h
    obtain ⟨hu, rfl⟩ := huv
    refine ⟨Bindings.insert_sound name hm hu, ?_⟩
    have hinsert := Bindings.insert_relabel f m.env.bindings name u
    simp only [Machine.relabel, Env.relabel, hinsert]
  unary {_ pos op right u v} here huv := by
    obtain ⟨hu, rfl⟩ := huv
    have hknown : isUnaryOperator (op.relabel f).symbol = true := here
    have hsame : ops.unary (op.relabel f) (u.relabel f) =
        Eval.lift ((Value.unary op.symbol u).map (Value.relabel f)) := by
      rw [hops.unary hknown (hu.relabel f), ← Value.unary_relabel]
      rfl
    exact hsame ▸ (hu.unary here).2.relates
  binary {_ pos left op right u u' v v'} here huu hvv := by
    obtain ⟨hu, rfl⟩ := huu
    obtain ⟨hv, rfl⟩ := hvv
    have hknown : (priority? (op.relabel f).symbol).isSome = true := here.2.1
    have hsame : ops.binary (u.relabel f) (op.relabel f) (v.relabel f) =
        Eval.lift ((u.binary op.symbol v).map (Value.relabel f)) := by
      rw [hops.binary hknown (hu.relabel f) (hv.relabel f), ← Value.binary_relabel]
      rfl
    exact hsame ▸ (hu.binary here.2.1 hv).2.relates
  matrix {_ pos rows cells cells'} here hlengths hcells := by
    obtain ⟨hmade, hfull⟩ := Matrix.ofRows_eq_ok_of_lengths here.1 here.2 hlengths
    have hscalar (s t : Scalar M) (hst : (soundSimulation f ops).Scalars s t) : s = t :=
      (Value.scalar.inj hst.2).symm
    rw [← Simulation.cells_eq hscalar hcells, hmade]
    exact .pure ⟨.matrix hfull, rfl⟩
  close {_ pos start params body} _ hbody := by
    rintro m _ ⟨hm, rfl⟩
    exact .ok ⟨.closure hm hbody, rfl⟩ ⟨hm, rfl⟩
  enter {_ c d us vs m m'} pos name hcd huvs h := by
    obtain ⟨hm, rfl⟩ := h
    obtain ⟨hus, rfl⟩ := eq_map_of_forall₂ huvs
    obtain ⟨hc, hd⟩ := hcd
    cases hd
    cases hc with
    | closure captured body =>
      refine ⟨(), body, Closure.body_relabel f c, Closure.bindArgs_sound _ captured hus, ?_⟩
      have hlocals := Closure.locals_relabel f c us
      simp only [Machine.relabel, Env.relabel, hlocals, List.map_cons]
      rfl
  resume {_ _ m m' t t'} h ht := by
    obtain ⟨hm, rfl⟩ := h
    obtain ⟨_, rfl⟩ := ht
    exact ⟨hm, rfl⟩
  pop {_ m m'} h := by
    obtain ⟨hm, rfl⟩ := h
    refine ⟨hm, ?_⟩
    simp only [Machine.relabel, List.map_tail]

end Laws

/-- A run ends with a sound value or with an ordinary fault. -/
def Outcome.Sound : Outcome M → Prop
  | .value v => v.Sound
  | .failure x => x.fault.Ordinary
  | .stray _ => False

namespace Machine

variable {m : Machine M} {ops : Operators M}

/-- A run of well-formed statements on a sound machine ends soundly, alike with all operators
that agree and wherever the statements stand. -/
theorem run_follows (f : Position → Position) (hops : ops.Agree) (limit : Nat)
    {statements : List (Expr M)} (h : ∀ e ∈ statements, e.WellFormed) (hm : m.env.Sound) :
    (m.relabel f).runUsing ops limit (statements.map (Expr.relabel f)) =
      ((m.run limit statements).1.relabel f, (m.run limit statements).2.relabel f) ∧
    (m.run limit statements).1.Sound ∧ (m.run limit statements).2.env.Sound := by
  have hran : (soundSimulation f ops).Results () _
      (Eval.block .standard (limit - m.stack.length) statements m)
      (Eval.block ops (limit - m.stack.length) (statements.map (Expr.relabel f)) (m.relabel f)) :=
    (soundSimulation_lawful hops).block _ h m _ ⟨hm, rfl⟩
  have hlevels : limit - (m.relabel f).stack.length = limit - m.stack.length := by
    rw [relabel, List.length_map]
  rw [run, runUsing, runUsing, hlevels]
  generalize Eval.block .standard (limit - m.stack.length) statements m = r,
    Eval.block ops (limit - m.stack.length) (statements.map (Expr.relabel f)) (m.relabel f) = r'
    at hran
  cases hran with
  | ok results states =>
    obtain ⟨hv, rfl⟩ := results
    obtain ⟨hn, rfl⟩ := states
    exact ⟨rfl, hv, hn⟩
  | error exits states =>
    obtain ⟨hn, rfl⟩ := states
    cases exits with
    | returned values =>
      obtain ⟨hv, rfl⟩ := values
      exact ⟨rfl, hv, hn⟩
    | fault happens => exact ⟨rfl, happens, hn⟩
    | stray met => exact met.elim

/-- Well-formed statements on a sound machine are run alike with all operators that agree. -/
theorem runUsing_eq_run (hops : ops.Agree) (limit : Nat) {statements : List (Expr M)}
    (h : ∀ e ∈ statements, e.WellFormed) (hm : m.env.Sound) :
    m.runUsing ops limit statements = m.run limit statements := by
  have hsame := (run_follows id hops limit h hm).1
  rw [Expr.map_relabel_id, relabel_id, relabel_id, Outcome.relabel_id] at hsame
  exact hsame

/-- A run of well-formed statements on a sound machine goes alike wherever the statements
stand. -/
theorem run_relabel (f : Position → Position) (limit : Nat) {statements : List (Expr M)}
    (h : ∀ e ∈ statements, e.WellFormed) (hm : m.env.Sound) :
    (m.relabel f).run limit (statements.map (Expr.relabel f)) =
      ((m.run limit statements).1.relabel f, (m.run limit statements).2.relabel f) := by
  have hwell : ∀ e ∈ statements.map (Expr.relabel f), e.WellFormed :=
    List.forall_mem_map.mpr fun e he => (h e he).relabel f
  have hsound : (m.relabel f).env.Sound := hm.relabel f
  have hplain := runUsing_eq_run Operators.standard_agree limit hwell hsound
  rw [← hplain]
  exact (run_follows f Operators.standard_agree limit h hm).1

/-- A statement that is well formed ends soundly on a sound machine. -/
theorem runStatement_sound (limit : Nat) {e : Expr M} (he : e.WellFormed) (hm : m.env.Sound) :
    (m.runStatement limit e).1.Sound ∧ (m.runStatement limit e).2.env.Sound := by
  obtain ⟨houtcome, hafter⟩ := (run_follows id Operators.standard_agree limit
    (List.forall_mem_singleton.mpr he) hm).2
  rcases m.runStatement_cases limit e with h | h
  · rw [h]
    exact ⟨houtcome, hafter⟩
  · rw [h]
    exact ⟨houtcome, hm⟩

/-- A statement that is well formed goes alike on a sound machine wherever it stands. -/
theorem runStatement_relabel (f : Position → Position) (limit : Nat) {e : Expr M}
    (he : e.WellFormed) (hm : m.env.Sound) :
    (m.relabel f).runStatement limit (e.relabel f) =
      ((m.runStatement limit e).1.relabel f, (m.runStatement limit e).2.relabel f) := by
  have hrun := run_relabel f limit (List.forall_mem_singleton.mpr he) hm
  rw [List.map_singleton] at hrun
  rw [runStatement, runStatement, hrun]
  rcases m.run limit [e] with ⟨outcome, n⟩
  cases outcome <;> rfl

end Machine

end SymCalc
