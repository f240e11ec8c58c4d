import Mathlib
import SymCalc.Proofs.CanonicalValues
import SymCalc.Proofs.Invariant
import SymCalc.Proofs.Simulation

/-!
# Evaluation keeps values canonical

A machine is canonical when the values bound and the arguments of the calls in progress are.
Main statement: statements whose constants are canonical, run on a canonical machine to any
depth of calls, leave a canonical machine, whether they end with a value, by a return statement
or by a fault; and the value is canonical.
-/

namespace SymCalc

variable {M : Type}

/-- The values bound and the arguments of the calls in progress are canonical. -/
structure Machine.Canonical [Magnitude M] (m : Machine M) : Prop where
  /-- Every name is bound to a canonical value. -/
  bindings : m.env.bindings.Canonical
  /-- Every call in progress has canonical arguments. -/
  stack : ∀ f ∈ m.stack, ∀ v ∈ f.args, v.Canonical

/-- The value of a return statement is canonical. -/
def Exit.Canonical [Magnitude M] : Exit M → Prop
  | .returned v => v.Canonical
  | .fault _ | .stray _ => True

section Bindings

variable [Magnitude M] {bs : Bindings M} {v : Value M}

/-- A value found in canonical bindings is canonical. -/
theorem Bindings.Canonical.find? {name : Text} (hbs : bs.Canonical)
    (h : bs.find? name = some v) : v.Canonical :=
  hbs _ (Bindings.mem_of_find? h)

/-- Binding a name to a canonical value keeps bindings canonical. -/
theorem Bindings.insert_canonical (name : Text) (hbs : bs.Canonical) (hv : v.Canonical) :
    (bs.insert name v).Canonical := by
  intro b hb
  rcases Bindings.mem_insert hb with rfl | hb
  · exact hv
  · exact hbs b hb

/-- Binding parameters to canonical arguments keeps bindings canonical. -/
theorem Closure.bindArgs_canonical (params : List Text) {args : List (Value M)}
    (hbs : bs.Canonical) (hargs : ∀ v ∈ args, v.Canonical) :
    (bindArgs params args bs).Canonical := by
  intro b hb
  rcases mem_bindArgs hb with hb | hb
  · exact hargs b.2 hb
  · exact hbs b hb

end Bindings

/-- A canonical machine is left canonical by an evaluation, whose result has a property. -/
abbrev Eval.Stays [Magnitude M] {α : Type} (Q : α → Prop) (p : Eval M α) : Prop :=
  Keeps Machine.Canonical Exit.Canonical Q p

variable [Numeric M]

variable (M) in
/-- A machine beside itself, as long as it is canonical. -/
def canonicalSimulation : Simulation Unit M where
  move := id
  ops := .standard
  Node _ := Expr.CanonicalLiteral
  Values u v := u.Canonical ∧ v = u
  Faults _ := True
  Strays _ := True
  States _ m m' := m.Canonical ∧ m' = m

/-- An evaluation beside itself leaves a canonical machine canonical. -/
theorem Eval.stays_of_relates {p : Eval M (Value M)}
    (h : (canonicalSimulation M).Relates () (canonicalSimulation M).Values p p) :
    Stays Value.Canonical p := by
  intro m hm
  have hends := h m m ⟨hm, rfl⟩
  cases hp : p m with
  | ok v t =>
    rw [hp] at hends
    cases hends with
    | ok results states => exact ⟨states.1, results.1⟩
  | error x t =>
    rw [hp] at hends
    cases hends with
    | error exits states =>
      cases exits with
      | returned values => exact ⟨states.1, values.1⟩
      | fault | stray => exact ⟨states.1, trivial⟩

variable [LawfulMagnitude M]

/-- Operations of a machine keep it canonical. -/
theorem canonicalSimulation_lawful : (canonicalSimulation M).Lawful where
  kind {u v} h := by rw [h.2]
  boolean {a b} h := by
    cases h.2
    rfl
  params {c d} h := by
    cases h.2
    rfl
  unit := ⟨.unit, rfl⟩
  tuple {us vs} h := by
    obtain ⟨hus, rfl⟩ := eq_map_of_forall₂ h
    rw [List.map_id']
    exact ⟨.tuple hus, rfl⟩
  constant h := ⟨Constant.value_canonical h, rfl⟩
  fault _ := trivial
  stray _ := trivial
  moveTo {_ m m'} pos h := by
    obtain ⟨hm, rfl⟩ := h
    exact ⟨⟨hm.bindings, hm.stack⟩, rfl⟩
  found {_ e name m m'} _ _ h := by
    obtain ⟨hm, rfl⟩ := h
    cases hv : m'.env.bindings.find? name with
    | none => exact .none
    | some v => exact .some ⟨hm.bindings.find? hv, rfl⟩
  insert {_ u v m m'} name huv h := by
    obtain ⟨hm, rfl⟩ := h
    obtain ⟨hu, rfl⟩ := huv
    exact ⟨⟨Bindings.insert_canonical name hm.bindings hu, hm.stack⟩, rfl⟩
  unary {_ pos op right u v} _ huv := by
    obtain ⟨hu, rfl⟩ := huv
    exact .lift_same (fun w hw => ⟨Value.unary_canonical hu hw, rfl⟩) fun _ _ => trivial
  binary {_ pos left op right u u' v v'} _ huu hvv := by
    obtain ⟨hu, rfl⟩ := huu
    obtain ⟨hv, rfl⟩ := hvv
    exact .lift_same (fun w hw => ⟨Value.binary_canonical hu hv hw, rfl⟩) fun _ _ => trivial
  matrix {_ pos rows cells cells'} _ _ hcells := by
    have hscalar (s t : Scalar M) (hst : (canonicalSimulation M).Scalars s t) : s = t :=
      (Value.scalar.inj hst.2).symm
    obtain rfl := Simulation.cells_eq hscalar hcells
    have hcanonical : ∀ row ∈ cells, ∀ s ∈ row, s.Canonical := fun row hrow s hs =>
      (List.forall₂_same.mp (List.forall₂_same.mp hcells row hrow) s hs).1.of_scalar
    exact .lift_same (fun m hm => ⟨.matrix (Matrix.ofRows_canonical hcanonical hm), rfl⟩)
      fun _ _ => trivial
  close {_ pos start params body} _ hbody := by
    rintro m _ ⟨hm, rfl⟩
    rw [Simulation.map_relabel_of_move_id _ rfl]
    exact .ok ⟨.closure hm.bindings hbody, rfl⟩ ⟨⟨hm.bindings, hm.stack⟩, rfl⟩
  enter {_ c d us vs m m'} pos name hcd huvs h := by
    obtain ⟨hm, rfl⟩ := h
    obtain ⟨hus, rfl⟩ := eq_map_of_forall₂ huvs
    obtain ⟨hc, hd⟩ := hcd
    cases hd
    cases hc with
    | closure captured body =>
      refine ⟨(), body, (Expr.map_relabel_id c.body).symm, ⟨?_, ?_⟩, ?_⟩
      · exact Closure.bindArgs_canonical _ captured hus
      · exact List.forall_mem_cons.mpr ⟨hus, hm.stack⟩
      · rw [List.map_id']
        rfl
  resume {_ _ m m' t t'} h ht := by
    obtain ⟨hm, rfl⟩ := h
    obtain ⟨ht, rfl⟩ := ht
    exact ⟨⟨hm.bindings, ht.stack⟩, rfl⟩
  pop {_ m m'} h := by
    obtain ⟨hm, rfl⟩ := h
    exact ⟨⟨hm.bindings, fun f hf => hm.stack f (List.mem_of_mem_tail hf)⟩, rfl⟩

/-- Statements with canonical constants, with any number of levels of calls left, keep the
machine canonical and end with a canonical value. -/
theorem Eval.block_stays (levels : Nat) {statements : List (Expr M)}
    (h : ∀ e ∈ statements, e.Everywhere Expr.CanonicalLiteral) :
    Stays Value.Canonical (Eval.block .standard levels statements) := by
  have hblock := canonicalSimulation_lawful.block (w := ()) levels h
  rw [Simulation.map_relabel_of_move_id _ rfl] at hblock
  exact stays_of_relates hblock

/-- An expression with canonical constants, with calls nested to any depth, keeps the machine
canonical and has a canonical value. -/
theorem Expr.evalWith_stays (levels : Nat) {e : Expr M} (he : e.Everywhere CanonicalLiteral) :
    Eval.Stays Value.Canonical (e.evalWith .standard (some (Eval.block .standard levels))) := by
  have htree := canonicalSimulation_lawful.evalWith (w := ())
    (.some fun _ _ => canonicalSimulation_lawful.block levels) he
  have hsame : e.relabel (canonicalSimulation M).move = e := e.relabel_id
  rw [Simulation.TreeAlike, hsame] at htree
  exact Eval.stays_of_relates htree

/-- The value of a run, or the arguments that its failure shows, are canonical. -/
def Outcome.Canonical : Outcome M → Prop
  | .value v => v.Canonical
  | .failure f => ∀ frame ∈ f.stack, ∀ v ∈ frame.args, v.Canonical
  | .stray _ => True

namespace Machine

variable {m : Machine M}

/-- A run of statements with canonical constants keeps the machine canonical. -/
theorem run_canonical (limit : Nat) {statements : List (Expr M)}
    (h : ∀ e ∈ statements, e.Everywhere Expr.CanonicalLiteral) (hm : m.Canonical) :
    (m.run limit statements).1.Canonical ∧ (m.run limit statements).2.Canonical := by
  have hkept := Eval.block_stays (limit - m.stack.length) h m hm
  have hempty : ∀ f ∈ ([] : List (Frame M)), ∀ v ∈ f.args, v.Canonical := fun _ hf => nomatch hf
  rw [run, runUsing]
  generalize Eval.block .standard (limit - m.stack.length) statements m = result at hkept ⊢
  cases result with
  | ok v n => exact ⟨hkept.2, hkept.1⟩
  | error exit n =>
    cases exit with
    | returned v => exact ⟨hkept.2, hkept.1.bindings, hempty⟩
    | fault fault => exact ⟨hkept.1.stack, hkept.1.bindings, hempty⟩
    | stray op => exact ⟨trivial, hkept.1.bindings, hempty⟩

/-- A statement with canonical constants keeps the machine canonical. -/
theorem runStatement_canonical (limit : Nat) {e : Expr M}
    (he : e.Everywhere Expr.CanonicalLiteral) (hm : m.Canonical) :
    (m.runStatement limit e).1.Canonical ∧ (m.runStatement limit e).2.Canonical := by
  obtain ⟨houtcome, hafter⟩ := run_canonical limit (List.forall_mem_singleton.mpr he) hm
  rcases m.runStatement_cases limit e with h | h
  · rw [h]
    exact ⟨houtcome, hafter⟩
  · rw [h]
    exact ⟨houtcome, hm.bindings, hafter.stack⟩

end Machine

end SymCalc
