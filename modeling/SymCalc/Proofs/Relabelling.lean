import Mathlib
import SymCalc.Proofs.WellFormed
import SymCalc.Machine.Trace

/-!
# Trees and values with their positions changed

A function on positions changes every position in a tree, in the bodies of functions among the
values, and in the state of a machine. Nothing that is printed of a value or a tree depends on
positions. Main statements: changes one after the other are one change, well-formed trees stay
well formed, and values are printed, compared and combined as before.
-/

namespace SymCalc

variable {M : Type} (f g : Position → Position)

/-- A name with its position changed. -/
def Ref.relabel (ref : Ref) : Ref := ⟨f ref.pos, ref.name⟩

/-- An operator with its position changed. -/
def Operator.relabel (op : Operator) : Operator := ⟨f op.pos, op.symbol⟩

namespace Expr

mutual

/-- A tree with every position changed. -/
def relabel : Expr M → Expr M
  | literal pos c => literal (f pos) c
  | reference ref => reference (ref.relabel f)
  | operator op => operator (op.relabel f)
  | unary pos op right => unary (f pos) (op.relabel f) (relabel right)
  | binary pos left op right => binary (f pos) (relabel left) (op.relabel f) (relabel right)
  | assign pos target right => assign (f pos) (target.relabel f) (relabel right)
  | tuple pos items => tuple (f pos) (relabelAll items)
  | matrix pos rows => matrix (f pos) (relabelRows rows)
  | ifThen pos test yes => ifThen (f pos) (relabel test) (relabel yes)
  | ifElse pos test yes no => ifElse (f pos) (relabel test) (relabel yes) (relabel no)
  | lambda pos params bodyPos body =>
    lambda (f pos) (params.map (Ref.relabel f)) (f bodyPos) (relabelAll body)
  | call pos name args => call (f pos) name (relabelAll args)
  | ret pos value => ret (f pos) (relabel value)
  | declare pos words => declare (f pos) words
  | program pos statements => program (f pos) (relabelAll statements)
termination_by structural e => e

/-- Trees with every position changed. -/
def relabelAll : List (Expr M) → List (Expr M)
  | [] => []
  | e :: es => relabel e :: relabelAll es
termination_by structural es => es

/-- Rows of trees with every position changed. -/
def relabelRows : List (List (Expr M)) → List (List (Expr M))
  | [] => []
  | row :: rows => relabelAll row :: relabelRows rows
termination_by structural rows => rows

end

attribute [local simp] relabel relabelAll relabelRows

/-- The positions change in each of several trees. -/
theorem relabelAll_eq_map (es : List (Expr M)) : relabelAll f es = es.map (relabel f) := by
  induction es with
  | nil => rfl
  | cons e es ih => rw [relabelAll, List.map_cons, ih]

/-- The positions change in each of several rows. -/
theorem relabelRows_eq_map (rows : List (List (Expr M))) :
    relabelRows f rows = rows.map (·.map (relabel f)) := by
  induction rows with
  | nil => rfl
  | cons row rows ih => rw [relabelRows, List.map_cons, ih, relabelAll_eq_map]

/-- The position of a node changes as all do. -/
@[simp] theorem pos_relabel (e : Expr M) : (e.relabel f).pos = f e.pos := by
  cases e <;> rfl

/-- The trees below a node change with it. -/
theorem children_relabel (e : Expr M) : (e.relabel f).children = e.children.map (relabel f) := by
  cases e <;>
    simp only [relabel, children, relabelAll_eq_map, relabelRows_eq_map, List.map_cons,
      List.map_nil, List.map_flatten]

/-- Rows change alike if their cells do. -/
theorem map_rows_congr {h k : Expr M → Expr M} {rows : List (List (Expr M))}
    (hcells : ∀ x ∈ rows.flatten, h x = k x) : rows.map (·.map h) = rows.map (·.map k) := by
  refine List.map_congr_left fun row hrow => List.map_congr_left fun x hx => ?_
  exact hcells x (List.mem_flatten.mpr ⟨row, hrow, hx⟩)

/-- A change that moves no position changes no tree. -/
theorem relabel_id (e : Expr M) : e.relabel id = e := by
  have hlist {xs : List (Expr M)} (h : ∀ x ∈ xs, relabel id x = x) : xs.map (relabel id) = xs := by
    rw [List.map_congr_left h, List.map_id']
  induction e using children_induction with
  | h e ih =>
  cases e with
  | literal | reference | operator | declare => rfl
  | matrix pos rows =>
    rw [relabel, relabelRows_eq_map, map_rows_congr ih]
    simp
  | lambda pos params bodyPos body =>
    have hparams : params.map (Ref.relabel id) = params := List.map_id params
    simp only [children] at ih
    rw [relabel, relabelAll_eq_map, hlist ih, hparams]
    rfl
  | tuple | call | program =>
    simp only [children] at ih
    rw [relabel, relabelAll_eq_map, hlist ih]
    rfl
  | unary | binary | assign | ifThen | ifElse | ret =>
    simp only [children, List.forall_mem_cons] at ih
    simp only [relabel, ih]
    rfl

/-- A change that moves no position changes none of several trees. -/
theorem map_relabel_id (es : List (Expr M)) : es.map (relabel id) = es :=
  (List.map_congr_left fun e _ => e.relabel_id).trans (List.map_id es)

/-- Two changes one after the other are one change. -/
theorem relabel_relabel (e : Expr M) : (e.relabel f).relabel g = e.relabel (g ∘ f) := by
  induction e using children_induction with
  | h e ih =>
  cases e with
  | literal | reference | operator | declare => rfl
  | matrix pos rows =>
    simp only [relabel, relabelRows_eq_map, List.map_map, Function.comp_apply]
    rw [← map_rows_congr ih]
    simp
  | tuple | lambda | call | program =>
    simp only [children] at ih
    simp only [relabel, relabelAll_eq_map, List.map_map]
    rw [← List.map_congr_left ih]
    rfl
  | unary | binary | assign | ifThen | ifElse | ret =>
    simp only [children, List.forall_mem_cons] at ih
    simp only [relabel, ih]
    rfl

section Source

variable [Numeric M]

/-- What a tree looks like in a program does not depend on positions. -/
theorem source_relabel (e : Expr M) : (e.relabel f).source = e.source := by
  have hlist {xs : List (Expr M)} (h : ∀ x ∈ xs, (relabel f x).source = x.source) :
      sources (xs.map (relabel f)) = sources xs := by
    induction xs with
    | nil => rfl
    | cons x xs ih =>
      obtain ⟨hx, hxs⟩ := List.forall_mem_cons.mp h
      rw [List.map_cons, sources, sources, hx, ih hxs]
  have hoperand (x : Expr M) (t : Text) : operandText (x.relabel f) t = operandText x t := by
    cases x <;> rfl
  induction e using children_induction with
  | h e ih =>
  cases e with
  | literal | reference | operator | declare => rfl
  | matrix pos rows =>
    rw [relabel, relabelRows_eq_map, source, source]
    congr 3
    induction rows with
    | nil => rfl
    | cons row rows ihrows =>
      simp only [children, List.flatten_cons, List.forall_mem_append] at ih ihrows
      rw [List.map_cons, sourceRows, sourceRows, hlist ih.1, ihrows ih.2]
  | lambda pos params bodyPos body =>
    simp only [children] at ih
    rw [relabel, relabelAll_eq_map, source, source, hlist ih, List.map_map]
    rfl
  | tuple | call | program =>
    simp only [children] at ih
    rw [relabel, relabelAll_eq_map, source, source, hlist ih]
  | unary | binary | assign =>
    simp only [children, List.forall_mem_cons] at ih
    simp only [relabel, source, hoperand, ih]
    rfl
  | ifThen | ifElse | ret =>
    simp only [children, List.forall_mem_cons] at ih
    simp only [relabel, source, ih]

/-- A node is well formed wherever it stands. -/
theorem wellFormedNode_relabel (e : Expr M) : WellFormedNode (e.relabel f) ↔ WellFormedNode e := by
  cases e with
  | lambda pos params bodyPos body => simp [WellFormedNode, Ref.relabel]
  | tuple pos items => simp [WellFormedNode, relabelAll_eq_map]
  | matrix pos rows => simp [WellFormedNode, relabelRows_eq_map]
  | _ => rfl

/-- A well-formed tree is well formed wherever it stands. -/
theorem WellFormed.relabel {e : Expr M} (he : e.WellFormed) : (e.relabel f).WellFormed := by
  induction he with
  | @intro e here _ ih =>
    refine .intro ((wellFormedNode_relabel f e).mpr here) fun x hx => ?_
    rw [children_relabel] at hx
    obtain ⟨y, hy, rfl⟩ := List.mem_map.mp hx
    exact ih y hy

omit [Numeric M] in
/-- Operators are brought into the same order wherever they stand. -/
theorem rotate_relabel (left right : Expr M) (op : Operator) :
    (Parse.rotate left op right).relabel f =
      Parse.rotate (left.relabel f) (op.relabel f) (right.relabel f) := by
  unfold Parse.rotate
  cases right with
  | binary pos inner o last =>
    simp only [Expr.relabel, pos_relabel, Operator.relabel]
    split <;> simp only [Expr.relabel, Operator.relabel]
  | _ => simp only [Expr.relabel, pos_relabel]

end Source

end Expr

mutual

/-- A value with every position in the bodies of functions changed. -/
def Value.relabel : Value M → Value M
  | .scalar s => .scalar s
  | .matrix m => .matrix m
  | .boolean b => .boolean b
  | .tuple items => .tuple (Value.relabelAll items)
  | .closure c => .closure (Closure.relabel c)
  | .unit => .unit
termination_by structural v => v

/-- Values with every position changed. -/
def Value.relabelAll : List (Value M) → List (Value M)
  | [] => []
  | v :: vs => Value.relabel v :: Value.relabelAll vs
termination_by structural vs => vs

/-- A function with every position changed, in its body and in the bindings it was made in. -/
def Closure.relabel : Closure M → Closure M
  | ⟨serial, params, captured, body⟩ =>
    ⟨serial, params, Bindings.relabel captured, body.map (Expr.relabel f)⟩
termination_by structural c => c

/-- Bindings with every position changed. -/
def Bindings.relabel : Bindings M → Bindings M
  | [] => []
  | (name, value) :: bs => (name, Value.relabel value) :: Bindings.relabel bs
termination_by structural bs => bs

end

attribute [local simp] Value.relabel Value.relabelAll Closure.relabel Bindings.relabel

/-- The positions change in each of several bindings. -/
theorem Bindings.relabel_eq_map (bs : Bindings M) :
    Bindings.relabel f bs = bs.map fun b => (b.1, b.2.relabel f) := by
  induction bs with
  | nil => rfl
  | cons b bs ih =>
    rw [Bindings.relabel, ih]
    rfl

namespace Closure

/-- A function takes the same parameters wherever it stands. -/
@[simp] theorem params_relabel (c : Closure M) : (c.relabel f).params = c.params := by
  cases c
  rfl

/-- The bindings that a function was made in change with it. -/
@[simp] theorem captured_relabel (c : Closure M) :
    (c.relabel f).captured = Bindings.relabel f c.captured := by
  cases c
  rfl

/-- The body of a function changes with it. -/
@[simp] theorem body_relabel (c : Closure M) :
    (c.relabel f).body = c.body.map (Expr.relabel f) := by
  cases c
  rfl

end Closure

namespace Value

/-- The positions change in each of several values. -/
theorem relabelAll_eq_map (vs : List (Value M)) : relabelAll f vs = vs.map (relabel f) := by
  induction vs with
  | nil => rfl
  | cons v vs ih => rw [relabelAll, List.map_cons, ih]

/-- The items of a tuple change with it. -/
theorem relabel_tuple (items : List (Value M)) :
    relabel f (.tuple items) = .tuple (items.map (relabel f)) := by
  rw [relabel, relabelAll_eq_map]

/-- The values directly inside a value: the items of a tuple, and what a function captured. -/
def parts : Value M → List (Value M)
  | .scalar _ | .matrix _ | .boolean _ | .unit => []
  | .tuple items => items
  | .closure c => c.captured.map (·.2)

/-- A value directly inside another is smaller. -/
theorem sizeOf_lt_of_mem_parts {v x : Value M} (h : x ∈ v.parts) : sizeOf x < sizeOf v := by
  cases v with
  | scalar | matrix | boolean | unit => cases h
  | tuple items =>
    have hs := List.sizeOf_lt_of_mem h
    simp only [parts] at hs
    simp only [tuple.sizeOf_spec]
    omega
  | closure c =>
    obtain ⟨serial, params, captured, body⟩ := c
    obtain ⟨b, hb, rfl⟩ := List.mem_map.mp h
    obtain ⟨name, value⟩ := b
    have hs := List.sizeOf_lt_of_mem hb
    simp only [Prod.mk.sizeOf_spec] at hs
    simp only [closure.sizeOf_spec, Closure.mk.sizeOf_spec]
    omega

/-- What holds of a value if it holds of the values directly inside it holds of all values. -/
theorem parts_induction {P : Value M → Prop} (h : ∀ v, (∀ x ∈ v.parts, P x) → P v)
    (v : Value M) : P v :=
  h v fun x _ => parts_induction h x
termination_by sizeOf v
decreasing_by exact sizeOf_lt_of_mem_parts ‹_›

/-- A change that moves no position changes no value. -/
theorem relabel_id (v : Value M) : v.relabel id = v := by
  induction v using parts_induction with
  | h v ih =>
  cases v with
  | scalar | matrix | boolean | unit => rfl
  | tuple items =>
    rw [relabel_tuple]
    exact congrArg tuple ((List.map_congr_left ih).trans (List.map_id items))
  | closure c =>
    obtain ⟨serial, params, captured, body⟩ := c
    have hbody : body.map (Expr.relabel id) = body :=
      (List.map_congr_left fun e _ => e.relabel_id).trans (List.map_id body)
    have hcaptured : Bindings.relabel id captured = captured := by
      rw [Bindings.relabel_eq_map]
      refine (List.map_congr_left fun b hb => ?_).trans (List.map_id captured)
      exact Prod.ext rfl (ih b.2 (List.mem_map_of_mem hb))
    rw [relabel, Closure.relabel, hbody, hcaptured]

/-- The kind of a value does not depend on positions. -/
@[simp] theorem kind_relabel (v : Value M) : (v.relabel f).kind = v.kind := by
  cases v <;> rfl

/-- Whether there is a value does not depend on positions. -/
@[simp] theorem isUnit_relabel (v : Value M) : (v.relabel f).isUnit = v.isUnit := by
  cases v <;> rfl

/-- A scalar holds no positions. -/
@[simp] theorem asScalar?_relabel (v : Value M) : (v.relabel f).asScalar? = v.asScalar? := by
  cases v <;> rfl

variable [Magnitude M]

/-- What is printed of a value does not depend on positions. -/
@[simp] theorem render_relabel (write : M → Text) (v : Value M) :
    (v.relabel f).render write = v.render write := by
  have hlist {vs : List (Value M)} (h : ∀ v ∈ vs, (v.relabel f).render write = v.render write) :
      renderAll write (vs.map (relabel f)) = renderAll write vs := by
    induction vs with
    | nil => rfl
    | cons v vs ih =>
      obtain ⟨hv, hvs⟩ := List.forall_mem_cons.mp h
      rw [List.map_cons, renderAll, renderAll, hv, ih hvs]
  induction v using parts_induction with
  | h v ih =>
  cases v with
  | scalar | matrix | boolean | unit => rfl
  | tuple items =>
    simp only [parts] at ih
    rw [relabel_tuple, render, render, hlist ih]
  | closure c => rw [relabel, render, render, Closure.params_relabel]

/-- Binary operators combine values alike wherever functions stand. -/
theorem binary_relabel (u v : Value M) (symbol : Text) :
    (u.relabel f).binary symbol (v.relabel f) = (u.binary symbol v).map (relabel f) := by
  have hmatrix (x : Except Fault (Matrix M)) :
      x.map matrix = (x.map matrix).map (relabel f) := by
    cases x <;> rfl
  have hscalar (x : Except Fault (Scalar M)) :
      x.map scalar = (x.map scalar).map (relabel f) := by
    cases x <;> rfl
  unfold binary
  cases BinaryOp.ofSymbol? symbol with
  | none => rfl
  | some op =>
    cases op <;> cases u <;> cases v <;>
      first
      | rfl
      | exact hmatrix _
      | exact hscalar _

/-- Unary operators change values alike wherever functions stand. -/
theorem unary_relabel (v : Value M) (symbol : Text) :
    unary symbol (v.relabel f) = (unary symbol v).map (relabel f) := by
  unfold unary
  cases UnaryOp.ofSymbol? symbol with
  | none => rfl
  | some op => cases op <;> cases v <;> rfl

end Value

namespace Bindings

variable (bs : Bindings M) (name : Text)

/-- A name is bound to its value with the positions changed. -/
theorem find?_relabel : (relabel f bs).find? name = (bs.find? name).map (Value.relabel f) := by
  induction bs with
  | nil => rfl
  | cons b bs ih =>
    obtain ⟨key, value⟩ := b
    rw [relabel, find?, find?]
    split
    · rfl
    · exact ih

/-- Positions can be changed before or after a name is bound. -/
theorem insert_relabel (v : Value M) :
    (relabel f bs).insert name (v.relabel f) = relabel f (bs.insert name v) := by
  induction bs with
  | nil => rfl
  | cons b bs ih =>
    obtain ⟨key, value⟩ := b
    rw [relabel, insert, insert]
    split
    · rfl
    · split
      · rfl
      · rw [relabel, ih]

/-- The names bound do not depend on positions. -/
@[simp] theorem names_relabel : names (relabel f bs) = bs.names := by
  rw [relabel_eq_map, names, names, List.map_map]
  rfl

end Bindings

/-- Positions can be changed before or after arguments are bound. -/
theorem Closure.bindArgs_relabel (params : List Text) (args : List (Value M)) (bs : Bindings M) :
    bindArgs params (args.map (Value.relabel f)) (Bindings.relabel f bs) =
      Bindings.relabel f (bindArgs params args bs) := by
  induction params generalizing args bs with
  | nil => rfl
  | cons x xs ih =>
    cases args with
    | nil => rfl
    | cons v vs => rw [List.map_cons, bindArgs, bindArgs, Bindings.insert_relabel, ih]

/-- Positions can be changed before or after a function is given its arguments. -/
theorem Closure.locals_relabel (c : Closure M) (args : List (Value M)) :
    (c.relabel f).locals (args.map (Value.relabel f)) = Bindings.relabel f (c.locals args) := by
  rw [locals, locals, params_relabel, captured_relabel, bindArgs_relabel]

/-- An environment with every position changed. -/
def Env.relabel (env : Env M) : Env M := { env with bindings := Bindings.relabel f env.bindings }

/-- A call in progress with every position changed. -/
def Frame.relabel (frame : Frame M) : Frame M :=
  ⟨f frame.pos, frame.name, frame.args.map (Value.relabel f)⟩

/-- A machine with every position changed. -/
def Machine.relabel (m : Machine M) : Machine M :=
  ⟨m.env.relabel f, f m.pos, m.stack.map (Frame.relabel f)⟩

/-- A failure with every position changed. -/
def Failure.relabel (x : Failure M) : Failure M :=
  ⟨f x.pos, x.fault, x.stack.map (Frame.relabel f)⟩

/-- An outcome with every position changed. -/
def Outcome.relabel : Outcome M → Outcome M
  | .value v => .value (v.relabel f)
  | .failure x => .failure (x.relabel f)
  | .stray op => .stray (op.relabel f)

/-- A change that moves no position changes no bindings. -/
theorem Bindings.relabel_id (bs : Bindings M) : relabel id bs = bs := by
  rw [relabel_eq_map]
  refine (List.map_congr_left fun b _ => ?_).trans (List.map_id bs)
  exact Prod.ext rfl b.2.relabel_id

/-- A change that moves no position changes no call. -/
theorem Frame.relabel_id (frame : Frame M) : frame.relabel id = frame := by
  obtain ⟨pos, name, args⟩ := frame
  have hargs : args.map (Value.relabel id) = args :=
    (List.map_congr_left fun v _ => v.relabel_id).trans (List.map_id args)
  rw [Frame.relabel, hargs]
  rfl

/-- A change that moves no position changes no machine. -/
theorem Machine.relabel_id (m : Machine M) : m.relabel id = m := by
  obtain ⟨⟨bindings, made⟩, pos, stack⟩ := m
  have hstack : stack.map (Frame.relabel id) = stack :=
    (List.map_congr_left fun frame _ => frame.relabel_id).trans (List.map_id stack)
  rw [Machine.relabel, Env.relabel, Bindings.relabel_id, hstack]
  rfl

/-- A change that moves no position changes no outcome. -/
theorem Outcome.relabel_id (outcome : Outcome M) : outcome.relabel id = outcome := by
  cases outcome with
  | value v => rw [relabel, v.relabel_id]
  | failure x =>
    obtain ⟨pos, cause, stack⟩ := x
    have hstack : stack.map (Frame.relabel id) = stack :=
      (List.map_congr_left fun frame _ => frame.relabel_id).trans (List.map_id stack)
    rw [relabel, Failure.relabel, hstack]
    rfl
  | stray op => rfl

end SymCalc
