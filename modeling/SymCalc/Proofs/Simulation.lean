import Mathlib
import SymCalc.Machine.Eval
import SymCalc.Proofs.Relabelling

/-!
# Evaluations side by side

Two machines evaluate the same tree, the second one with other operators or where the tree stands
elsewhere. A simulation says which values and which machines correspond; its laws are about single
operations of a machine. Main statement: if the laws hold, then statements end alike on machines
that correspond, with any number of levels of calls left.
-/

namespace SymCalc

variable {M : Type}

/-- Two values of the same form. -/
inductive Value.SameForm : Value M → Value M → Prop where
  | scalar (s t : Scalar M) : SameForm (.scalar s) (.scalar t)
  | matrix (a b : Matrix M) : SameForm (.matrix a) (.matrix b)
  | boolean (a b : Bool) : SameForm (.boolean a) (.boolean b)
  | tuple (us vs : List (Value M)) : SameForm (.tuple us) (.tuple vs)
  | closure (c d : Closure M) : SameForm (.closure c) (.closure d)
  | unit : SameForm .unit .unit

/-- Values of the same kind are of the same form. -/
theorem Value.sameForm_of_kind {u v : Value M} (h : u.kind = v.kind) : u.SameForm v := by
  have hscalar (s : Scalar M) : s.kind ≠ .matrix ∧ s.kind ≠ .boolean ∧ s.kind ≠ .tuple ∧
      s.kind ≠ .closure ∧ s.kind ≠ .unit := by
    rcases s with (_ | _) | _ <;> simp [Scalar.kind]
  cases u <;> cases v
  case scalar.scalar s t => exact .scalar s t
  case matrix.matrix a b => exact .matrix a b
  case boolean.boolean a b => exact .boolean a b
  case tuple.tuple us vs => exact .tuple us vs
  case closure.closure c d => exact .closure c d
  case unit.unit => exact .unit
  all_goals
    simp only [kind] at h
    first
      | cases h
      | exact absurd h (by simp [hscalar])
      | exact absurd h.symm (by simp [hscalar])

/-- Items that have a property, related to what a function makes of them. -/
theorem eq_map_of_forall₂ {α β : Type} {P : α → Prop} {g : α → β} {as : List α} {bs : List β}
    (h : List.Forall₂ (fun a b => P a ∧ b = g a) as bs) : (∀ a ∈ as, P a) ∧ bs = as.map g := by
  induction h with
  | nil => exact ⟨List.forall_mem_nil _, rfl⟩
  | cons hab _ ih =>
    rw [hab.2, ih.2, List.map_cons]
    exact ⟨List.forall_mem_cons.mpr ⟨hab.1, ih.1⟩, rfl⟩

/-- The faults that come of evaluation itself and not of an operation. -/
inductive Fault.OfEvaluation : Fault → Prop where
  | undefined (name : Text) : OfEvaluation (.undefined name)
  | condition (kind : ValueKind) : OfEvaluation (.condition kind)
  | cell (kind : ValueKind) : OfEvaluation (.cell kind)
  | notCallable (name : Text) (kind : ValueKind) : OfEvaluation (.notCallable name kind)
  | argumentCount (name : Text) (got want : Nat) : OfEvaluation (.argumentCount name got want)
  | stackOverflow (name : Text) : OfEvaluation (.stackOverflow name)
  | declaration : OfEvaluation .declaration

/-- How two evaluations correspond. What both of them see may depend on where they are, which is
told by a world. -/
structure Simulation (W M : Type) where
  /-- Where the second evaluation finds what the first one finds at a position. -/
  move : Position → Position
  /-- The operators that the second evaluation uses. -/
  ops : Operators M
  /-- The nodes that may be evaluated. -/
  Node : W → Expr M → Prop
  /-- Values that correspond. -/
  Values : Value M → Value M → Prop
  /-- Faults that may happen. -/
  Faults : Fault → Prop
  /-- Operators that may be met where a value is needed. -/
  Strays : Operator → Prop
  /-- Machines that correspond. -/
  States : W → Machine M → Machine M → Prop

namespace Simulation

open Eval

variable {W α β γ δ : Type} (K : Simulation W M)

/-- Scalars that correspond. -/
abbrev Scalars (s t : Scalar M) : Prop := K.Values (.scalar s) (.scalar t)

/-- Exits that correspond. -/
inductive Exits : Exit M → Exit M → Prop where
  | returned {u v : Value M} (values : K.Values u v) : Exits (.returned u) (.returned v)
  | fault {cause : Fault} (happens : K.Faults cause) : Exits (.fault cause) (.fault cause)
  | stray {op : Operator} (met : K.Strays op) : Exits (.stray op) (.stray (op.relabel K.move))

/-- Two evaluations have ended alike, with related results, on machines that correspond. -/
inductive Results (w : W) (R : α → β → Prop) :
    EStateM.Result (Exit M) (Machine M) α → EStateM.Result (Exit M) (Machine M) β → Prop where
  | ok {a : α} {b : β} {t t' : Machine M} (results : R a b) (states : K.States w t t') :
      Results w R (.ok a t) (.ok b t')
  | error {x y : Exit M} {t t' : Machine M} (exits : K.Exits x y) (states : K.States w t t') :
      Results w R (.error x t) (.error y t')

/-- On machines that correspond two evaluations end alike. -/
def Relates (w : W) (R : α → β → Prop) (p : Eval M α) (q : Eval M β) : Prop :=
  ∀ m m', K.States w m m' → K.Results w R (p m) (q m')

/-- Statements that may be evaluated. -/
abbrev Statements (w : W) (es : List (Expr M)) : Prop := ∀ e ∈ es, e.Everywhere (K.Node w)

/-- Trees stay as they are if both evaluations find everything at the same place. -/
theorem map_relabel_of_move_id (hmove : K.move = id) (es : List (Expr M)) :
    es.map (Expr.relabel K.move) = es := by
  rw [hmove]
  exact Expr.map_relabel_id es

/-- What is asked of single operations of a machine. -/
structure Lawful [Numeric M] : Prop where
  /-- Values that correspond are of the same kind. -/
  kind {u v : Value M} : K.Values u v → u.kind = v.kind
  /-- They are the same truth value, if they are one. -/
  boolean {a b : Bool} : K.Values (.boolean a) (.boolean b) → a = b
  /-- They take as many arguments, if they are functions. -/
  params {c d : Closure M} : K.Values (.closure c) (.closure d) → c.params.length = d.params.length
  /-- A statement without a value has none in both evaluations. -/
  unit : K.Values .unit .unit
  /-- Tuples correspond if their items do. -/
  tuple {us vs : List (Value M)} : List.Forall₂ K.Values us vs → K.Values (.tuple us) (.tuple vs)
  /-- A constant has values that correspond. -/
  constant {w : W} {pos : Position} {c : Constant M} : K.Node w (.literal pos c) →
    K.Values c.value c.value
  /-- The faults of evaluation itself may happen. -/
  fault {cause : Fault} : cause.OfEvaluation → K.Faults cause
  /-- An operator that may be evaluated may be met. -/
  stray {w : W} {op : Operator} : K.Node w (.operator op) → K.Strays op
  /-- Both machines move to a position. -/
  moveTo {w : W} {m m' : Machine M} (pos : Position) : K.States w m m' →
    K.States w { m with pos := pos } { m' with pos := K.move pos }
  /-- A name that stands in a node has values that correspond. -/
  found {w : W} {e : Expr M} {name : Text} {m m' : Machine M} : K.Node w e → name ∈ e.names →
    K.States w m m' →
    Option.Rel K.Values (m.env.bindings.find? name) (m'.env.bindings.find? name)
  /-- Both machines bind a name. -/
  insert {w : W} {u v : Value M} {m m' : Machine M} (name : Text) : K.Values u v →
    K.States w m m' →
    K.States w { m with env := { m.env with bindings := m.env.bindings.insert name u } }
      { m' with env := { m'.env with bindings := m'.env.bindings.insert name v } }
  /-- A prefix operator has results that correspond. -/
  unary {w : W} {pos : Position} {op : Operator} {right : Expr M} {u v : Value M} :
    K.Node w (.unary pos op right) → K.Values u v →
    K.Relates w K.Values (Operators.standard.unary op u) (K.ops.unary (op.relabel K.move) v)
  /-- A binary operator has results that correspond. -/
  binary {w : W} {pos : Position} {left : Expr M} {op : Operator} {right : Expr M}
    {u u' v v' : Value M} : K.Node w (.binary pos left op right) → K.Values u u' → K.Values v v' →
    K.Relates w K.Values (Operators.standard.binary u op v)
      (K.ops.binary u' (op.relabel K.move) v')
  /-- The cells of a matrix make matrices that correspond. -/
  matrix {w : W} {pos : Position} {rows : List (List (Expr M))}
    {cells cells' : List (List (Scalar M))} : K.Node w (.matrix pos rows) →
    cells.map List.length = rows.map List.length →
    List.Forall₂ (List.Forall₂ K.Scalars) cells cells' →
    K.Relates w (fun a b => K.Values (.matrix a) (.matrix b)) (lift (Matrix.ofRows cells))
      (lift (Matrix.ofRows cells'))
  /-- Functions that are made correspond. -/
  close {w : W} {pos start : Position} {params : List Ref} {body : List (Expr M)} :
    K.Node w (.lambda pos params start body) → K.Statements w body →
    K.Relates w K.Values (Eval.close (params.map (·.name)) body)
      (Eval.close (params.map (·.name)) (body.map (Expr.relabel K.move)))
  /-- Where the body of a function starts. -/
  enter {w : W} {c d : Closure M} {us vs : List (Value M)} {m m' : Machine M} (pos : Position)
    (name : Text) : K.Values (.closure c) (.closure d) → List.Forall₂ K.Values us vs →
    K.States w m m' → ∃ w', K.Statements w' c.body ∧ d.body = c.body.map (Expr.relabel K.move) ∧
      K.States w'
        { m with env := ⟨c.locals us, m.env.made⟩, stack := ⟨pos, name, us⟩ :: m.stack }
        { m' with env := ⟨d.locals vs, m'.env.made⟩, stack := ⟨K.move pos, name, vs⟩ :: m'.stack }
  /-- The bindings of the caller are in force again. -/
  resume {w w' : W} {m m' t t' : Machine M} : K.States w m m' → K.States w' t t' →
    K.States w { t with env := { m.env with made := t.env.made } }
      { t' with env := { m'.env with made := t'.env.made } }
  /-- A call is taken off the stack. -/
  pop {w : W} {m m' : Machine M} : K.States w m m' →
    K.States w { m with stack := m.stack.tail } { m' with stack := m'.stack.tail }

variable {K}

/-- Cells that correspond are the same if scalars that correspond are. -/
theorem cells_eq (hsame : ∀ s t, K.Scalars s t → s = t) {cells cells' : List (List (Scalar M))}
    (h : List.Forall₂ (List.Forall₂ K.Scalars) cells cells') : cells = cells' := by
  have hrow (ss ts : List (Scalar M)) (hss : List.Forall₂ K.Scalars ss ts) : ss = ts := by
    rw [← List.forall₂_eq_eq_eq]
    exact hss.imp hsame
  rw [← List.forall₂_eq_eq_eq]
  exact h.imp hrow

variable {w : W} {R : α → β → Prop} {S : γ → δ → Prop} {p : Eval M α} {q : Eval M β}

namespace Relates

/-- Results at hand. -/
theorem pure {a : α} {b : β} (h : R a b) :
    K.Relates w R (Pure.pure a : Eval M α) (Pure.pure b) :=
  fun _ _ hm => .ok h hm

/-- Other ways to end. -/
theorem throw {x y : Exit M} (h : K.Exits x y) :
    K.Relates w R (MonadExcept.throw x : Eval M α) (MonadExcept.throw y) :=
  fun _ _ hm => .error h hm

/-- One evaluation after another. -/
theorem bind {k : α → Eval M γ} {l : β → Eval M δ} (h : K.Relates w R p q)
    (hkl : ∀ a b, R a b → K.Relates w S (k a) (l b)) : K.Relates w S (p >>= k) (q >>= l) := by
  intro m m' hm
  have hfirst := h m m' hm
  change K.Results w S (EStateM.bind p k m) (EStateM.bind q l m')
  rw [EStateM.bind, EStateM.bind]
  generalize p m = r, q m' = r' at hfirst
  cases hfirst with
  | ok results states => exact hkl _ _ results _ _ states
  | error exits states => exact .error exits states

/-- A fault that may happen. -/
theorem raise {cause : Fault} (h : K.Faults cause) :
    K.Relates w R (Eval.raise cause : Eval M α) (Eval.raise cause) :=
  throw (.fault h)

/-- The result of an operation and what it is for the second evaluation, or the same fault. -/
theorem lift {x : Except Fault α} (g : α → β) (hok : ∀ a, x = .ok a → R a (g a))
    (herror : ∀ cause, x = .error cause → K.Faults cause) :
    K.Relates w R (Eval.lift x : Eval M α) (Eval.lift (x.map g)) := by
  cases x with
  | ok a => exact pure (hok a rfl)
  | error cause => exact raise (herror cause rfl)

/-- The result of the same operation, or its fault. -/
theorem lift_same {x : Except Fault α} {R : α → α → Prop} (hok : ∀ a, x = .ok a → R a a)
    (herror : ∀ cause, x = .error cause → K.Faults cause) :
    K.Relates w R (Eval.lift x : Eval M α) (Eval.lift x) := by
  cases x with
  | ok a => exact pure (hok a rfl)
  | error cause => exact raise (herror cause rfl)

end Relates

/-- Two ways to run the bodies of functions, or none with no level left. -/
inductive RunsAlike (K : Simulation W M) : Calls M → Calls M → Prop where
  | none : RunsAlike K none none
  | some {run run' : List (Expr M) → Eval M (Value M)}
      (relates : ∀ w body, K.Statements w body →
        K.Relates w K.Values (run body) (run' (body.map (Expr.relabel K.move)))) :
      RunsAlike K (some run) (some run')

/-- A tree is evaluated alike. -/
abbrev TreeAlike [Numeric M] (K : Simulation W M) (w : W) (calls calls' : Calls M) (e : Expr M) :
    Prop :=
  K.Relates w K.Values (e.evalWith .standard calls) ((e.relabel K.move).evalWith K.ops calls')

namespace Lawful

variable [Numeric M] (hK : K.Lawful)

include hK

/-- Every kind of node first moves to its position. -/
theorem moves (pos : Position) (h : K.Relates w R p q) :
    K.Relates w R (Eval.moveTo pos >>= fun _ => p) (Eval.moveTo (K.move pos) >>= fun _ => q) :=
  fun _ _ hm => h _ _ (hK.moveTo pos hm)

/-- A fault of evaluation itself. -/
theorem raises {cause : Fault} (h : cause.OfEvaluation) :
    K.Relates w R (Eval.raise cause : Eval M α) (Eval.raise cause) :=
  .raise (hK.fault h)

/-- The value of a name that stands in a node. -/
theorem lookup {e : Expr M} {name : Text} (he : K.Node w e) (hname : name ∈ e.names) :
    K.Relates w K.Values (Eval.lookup name) (Eval.lookup name) := by
  intro m m' hm
  have hfound := hK.found he hname hm
  rw [lookup_eq, lookup_eq]
  generalize m.env.bindings.find? name = x, m'.env.bindings.find? name = y at hfound
  cases hfound with
  | none => exact .error (.fault (hK.fault (.undefined name))) hm
  | some huv => exact .ok huv hm

/-- A name that is bound. -/
theorem assign (name : Text) {u v : Value M} (huv : K.Values u v) :
    K.Relates w (fun _ _ => True) (Eval.assign name u) (Eval.assign name v) :=
  fun _ _ hm => .ok trivial (hK.insert name huv hm)

/-- The function that is called in a node. -/
theorem callee {e : Expr M} {name : Text} (he : K.Node w e) (hname : name ∈ e.names) (args : Nat) :
    K.Relates w (fun c d => K.Values (.closure c) (.closure d)) (Eval.callee name args)
      (Eval.callee name args) := by
  refine (hK.lookup he hname).bind fun u v huv => ?_
  have hkind := hK.kind huv
  cases Value.sameForm_of_kind hkind with
  | closure c d =>
    dsimp only
    rw [hK.params huv]
    split
    · exact .pure huv
    · exact hK.raises (.argumentCount _ _ _)
  | scalar | matrix | boolean | tuple | unit =>
    dsimp only
    rw [hkind]
    exact hK.raises (.notCallable _ _)

/-- A call of a function. -/
theorem invoke {run run' : List (Expr M) → Eval M (Value M)}
    (hrun : ∀ w body, K.Statements w body →
      K.Relates w K.Values (run body) (run' (body.map (Expr.relabel K.move))))
    {c d : Closure M} (hcd : K.Values (.closure c) (.closure d)) {us vs : List (Value M)}
    (huvs : List.Forall₂ K.Values us vs) (pos : Position) (name : Text) :
    K.Relates w K.Values (Eval.invoke run ⟨pos, name, us⟩ c)
      (Eval.invoke run' ⟨K.move pos, name, vs⟩ d) := by
  intro m m' hm
  obtain ⟨w', hbody, hsame, hentered⟩ := hK.enter pos name hcd huvs hm
  have hran := hrun w' c.body hbody _ _ hentered
  rw [← hsame] at hran
  unfold Eval.invoke
  dsimp only
  generalize run c.body _ = r, run' d.body _ = r' at hran
  cases hran with
  | ok results states => exact .ok results (hK.pop (hK.resume hm states))
  | error exits states =>
    have hresumed := hK.resume hm states
    cases exits with
    | returned values => exact .ok values (hK.pop hresumed)
    | fault happens => exact .error (.fault happens) hresumed
    | stray met => exact .error (.stray met) hresumed

variable {calls calls' : Calls M} {es : List (Expr M)}

omit hK in
/-- Expressions in order. -/
theorem evalAllWith (h : ∀ e ∈ es, K.TreeAlike w calls calls' e) :
    K.Relates w (List.Forall₂ K.Values) (Expr.evalAllWith .standard calls es)
      (Expr.evalAllWith K.ops calls' (es.map (Expr.relabel K.move))) := by
  induction es with
  | nil => exact .pure .nil
  | cons e es ih =>
    obtain ⟨he, hes⟩ := List.forall_mem_cons.mp h
    rw [List.map_cons, Expr.evalAllWith, Expr.evalAllWith]
    exact he.bind fun u v huv => (ih hes).bind fun us vs huvs => .pure (.cons huv huvs)

/-- The cells of a row, of which there are as many as trees. -/
theorem evalCellsWith (h : ∀ e ∈ es, K.TreeAlike w calls calls' e) :
    K.Relates w (fun ss ts => ss.length = es.length ∧ List.Forall₂ K.Scalars ss ts)
      (Expr.evalCellsWith .standard calls es)
      (Expr.evalCellsWith K.ops calls' (es.map (Expr.relabel K.move))) := by
  induction es with
  | nil => exact .pure ⟨rfl, .nil⟩
  | cons e es ih =>
    obtain ⟨he, hes⟩ := List.forall_mem_cons.mp h
    rw [List.map_cons, Expr.evalCellsWith, Expr.evalCellsWith]
    refine he.bind fun u v huv => ?_
    have hkind := hK.kind huv
    cases Value.sameForm_of_kind hkind with
    | scalar s t =>
      refine (ih hes).bind fun ss ts hss => .pure ⟨?_, .cons huv hss.2⟩
      rw [List.length_cons, List.length_cons, hss.1]
    | matrix | boolean | tuple | closure | unit => exact hK.raises (.cell _)

/-- The rows of a matrix, which are as long as those of the trees. -/
theorem evalRowsWith {rows : List (List (Expr M))}
    (h : ∀ e ∈ rows.flatten, K.TreeAlike w calls calls' e) :
    K.Relates w
      (fun cells cells' => cells.map List.length = rows.map List.length ∧
        List.Forall₂ (List.Forall₂ K.Scalars) cells cells')
      (Expr.evalRowsWith .standard calls rows)
      (Expr.evalRowsWith K.ops calls' (rows.map (·.map (Expr.relabel K.move)))) := by
  induction rows with
  | nil => exact .pure ⟨rfl, .nil⟩
  | cons row rows ih =>
    rw [List.flatten_cons, List.forall_mem_append] at h
    have hmap : (row :: rows).map (·.map (Expr.relabel K.move)) =
        row.map (Expr.relabel K.move) :: rows.map (·.map (Expr.relabel K.move)) := rfl
    rw [hmap, Expr.evalRowsWith, Expr.evalRowsWith]
    refine (hK.evalCellsWith h.1).bind fun ss ts hss => ?_
    refine (ih h.2).bind fun cells cells' hcells => .pure ⟨?_, .cons hss.2 hcells.2⟩
    rw [List.map_cons, List.map_cons, hss.1, hcells.1]

omit hK in
/-- Statements in order. -/
theorem evalBlockWith {u v : Value M} (huv : K.Values u v)
    (h : ∀ e ∈ es, K.TreeAlike w calls calls' e) :
    K.Relates w K.Values (Expr.evalBlockWith .standard calls u es)
      (Expr.evalBlockWith K.ops calls' v (es.map (Expr.relabel K.move))) := by
  induction es generalizing u v with
  | nil => exact .pure huv
  | cons e es ih =>
    obtain ⟨he, hes⟩ := List.forall_mem_cons.mp h
    rw [List.map_cons, Expr.evalBlockWith, Expr.evalBlockWith]
    exact he.bind fun u v huv => ih huv hes

/-- Trees whose nodes may be evaluated are evaluated alike, if the bodies of functions are. -/
theorem evalWith (hcalls : RunsAlike K calls calls') {e : Expr M} (he : e.Everywhere (K.Node w)) :
    K.TreeAlike w calls calls' e := by
  unfold TreeAlike
  induction he with
  | @intro e here inside ih =>
  cases e with
  | literal pos c =>
    rw [Expr.relabel, Expr.evalWith, Expr.evalWith]
    exact hK.moves pos (.pure (hK.constant here))
  | reference ref =>
    rw [Expr.relabel, Expr.evalWith, Expr.evalWith]
    exact hK.moves ref.pos (hK.lookup here (by simp [Expr.names]))
  | operator op =>
    rw [Expr.relabel, Expr.evalWith, Expr.evalWith]
    exact hK.moves op.pos (.throw (.stray (hK.stray here)))
  | unary pos op right =>
    rw [Expr.relabel, Expr.evalWith, Expr.evalWith]
    refine hK.moves pos ((ih right (by simp [Expr.children])).bind fun u v huv => ?_)
    exact hK.moves op.pos (hK.unary here huv)
  | binary pos left op right =>
    rw [Expr.relabel, Expr.evalWith, Expr.evalWith]
    refine hK.moves pos ((ih left (by simp [Expr.children])).bind fun u u' hu => ?_)
    refine (ih right (by simp [Expr.children])).bind fun v v' hv => ?_
    exact hK.moves op.pos (hK.binary here hu hv)
  | assign pos target right =>
    rw [Expr.relabel, Expr.evalWith, Expr.evalWith]
    refine hK.moves pos ((ih right (by simp [Expr.children])).bind fun u v huv => ?_)
    exact (hK.assign target.name huv).bind fun _ _ _ => .pure hK.unit
  | tuple pos items =>
    rw [Expr.relabel, Expr.relabelAll_eq_map, Expr.evalWith, Expr.evalWith]
    refine hK.moves pos ((Lawful.evalAllWith ih).bind fun us vs huvs => ?_)
    cases huvs with
    | nil => exact .pure (hK.tuple .nil)
    | cons hfirst hothers =>
      cases hothers with
      | nil => exact .pure hfirst
      | cons hsecond hothers => exact .pure (hK.tuple (.cons hfirst (.cons hsecond hothers)))
  | matrix pos rows =>
    rw [Expr.relabel, Expr.relabelRows_eq_map, Expr.evalWith, Expr.evalWith]
    refine hK.moves pos ((hK.evalRowsWith ih).bind fun cells cells' hcells => ?_)
    refine hK.moves pos ((hK.matrix here hcells.1 hcells.2).bind fun a b hab => ?_)
    exact .pure hab
  | ifThen pos test yes =>
    rw [Expr.relabel, Expr.evalWith, Expr.evalWith]
    refine hK.moves pos ((ih test (by simp [Expr.children])).bind fun u v huv => ?_)
    have hkind := hK.kind huv
    cases Value.sameForm_of_kind hkind with
    | boolean a b =>
      obtain rfl := hK.boolean huv
      cases a with
      | true => exact ih yes (by simp [Expr.children])
      | false => exact .pure hK.unit
    | scalar | matrix | tuple | closure | unit =>
      dsimp only
      rw [hkind]
      exact hK.moves pos (hK.raises (.condition _))
  | ifElse pos test yes no =>
    rw [Expr.relabel, Expr.evalWith, Expr.evalWith]
    refine hK.moves pos ((ih test (by simp [Expr.children])).bind fun u v huv => ?_)
    have hkind := hK.kind huv
    cases Value.sameForm_of_kind hkind with
    | boolean a b =>
      obtain rfl := hK.boolean huv
      cases a with
      | true => exact ih yes (by simp [Expr.children])
      | false => exact ih no (by simp [Expr.children])
    | scalar | matrix | tuple | closure | unit =>
      dsimp only
      rw [hkind]
      exact hK.moves pos (hK.raises (.condition _))
  | lambda pos params start body =>
    rw [Expr.relabel, Expr.relabelAll_eq_map, Expr.evalWith, Expr.evalWith, List.map_map]
    exact hK.moves pos (hK.close here inside)
  | call pos name args =>
    rw [Expr.relabel, Expr.relabelAll_eq_map, Expr.evalWith, Expr.evalWith, List.length_map]
    refine hK.moves pos ((hK.callee here (by simp [Expr.names]) args.length).bind fun c d hcd => ?_)
    refine (Lawful.evalAllWith ih).bind fun us vs huvs => hK.moves pos ?_
    cases hcalls with
    | none => exact hK.raises (.stackOverflow _)
    | some relates => exact hK.invoke relates hcd huvs pos name
  | ret pos value =>
    rw [Expr.relabel, Expr.evalWith, Expr.evalWith]
    refine hK.moves pos ((ih value (by simp [Expr.children])).bind fun u v huv => ?_)
    exact .throw (.returned huv)
  | declare pos words =>
    rw [Expr.relabel, Expr.evalWith, Expr.evalWith]
    exact hK.moves pos (hK.raises .declaration)
  | program pos statements =>
    rw [Expr.relabel, Expr.relabelAll_eq_map, Expr.evalWith, Expr.evalWith]
    exact hK.moves pos (Lawful.evalBlockWith hK.unit ih)

/-- Statements are evaluated alike, with any number of levels of calls left. -/
theorem block (levels : Nat) {statements : List (Expr M)} (h : K.Statements w statements) :
    K.Relates w K.Values (Eval.block .standard levels statements)
      (Eval.block K.ops levels (statements.map (Expr.relabel K.move))) := by
  induction levels generalizing w statements with
  | zero => exact Lawful.evalBlockWith hK.unit fun e he => hK.evalWith .none (h e he)
  | succ levels ih =>
    exact Lawful.evalBlockWith hK.unit fun e he => hK.evalWith (.some fun _ _ => ih) (h e he)

end Lawful

end Simulation

end SymCalc
