import Mathlib
import SymCalc.Expr.Basic

/-!
# The nodes of a tree

Expressions hold expressions in lists and in lists of lists. Here the expressions directly
below a node are one list, which gives a single principle of induction for all trees and a
predicate for what holds at every node. Those that are evaluated along with the node are told from
the bodies of functions, and the names that stand in a node are listed.
-/

namespace SymCalc

variable {M : Type}

namespace Expr

/-- The expressions directly below a node, from left to right. -/
def children : Expr M → List (Expr M)
  | literal _ _ | reference _ | operator _ | declare _ _ => []
  | unary _ _ right => [right]
  | binary _ left _ right => [left, right]
  | assign _ _ right => [right]
  | tuple _ items => items
  | matrix _ rows => rows.flatten
  | ifThen _ test yes => [test, yes]
  | ifElse _ test yes no => [test, yes, no]
  | lambda _ _ _ body => body
  | call _ _ args => args
  | ret _ value => [value]
  | program _ statements => statements

/-- An expression directly below a node is smaller than the node. -/
theorem sizeOf_lt_of_mem_children {e x : Expr M} (h : x ∈ e.children) : sizeOf x < sizeOf e := by
  cases e with
  | literal | reference | operator | declare => cases h
  | matrix pos rows =>
    obtain ⟨row, hrow, hx⟩ := List.mem_flatten.mp h
    have hr := List.sizeOf_lt_of_mem hrow
    have hs := List.sizeOf_lt_of_mem hx
    simp only [matrix.sizeOf_spec]
    omega
  | tuple | lambda | call | program =>
    have hs := List.sizeOf_lt_of_mem h
    simp only [children] at hs
    simp only [tuple.sizeOf_spec, lambda.sizeOf_spec, call.sizeOf_spec, program.sizeOf_spec]
    omega
  | unary | assign | ret =>
    rw [List.mem_singleton.mp h]
    simp only [unary.sizeOf_spec, assign.sizeOf_spec, ret.sizeOf_spec]
    omega
  | binary | ifThen | ifElse =>
    simp only [children, List.mem_cons, List.not_mem_nil, or_false] at h
    simp only [binary.sizeOf_spec, ifThen.sizeOf_spec, ifElse.sizeOf_spec]
    grind

/-- What holds of a tree if it holds of the trees directly below it holds of all trees. -/
theorem children_induction {P : Expr M → Prop} (h : ∀ e, (∀ x ∈ e.children, P x) → P e)
    (e : Expr M) : P e :=
  h e fun x _ => children_induction h x
termination_by sizeOf e
decreasing_by exact sizeOf_lt_of_mem_children ‹_›

/-- A property of nodes holds at the node itself and everywhere below it. -/
inductive Everywhere (P : Expr M → Prop) : Expr M → Prop where
  | intro {e : Expr M} (here : P e) (inside : ∀ x ∈ e.children, Everywhere P x) : Everywhere P e

variable {P Q : Expr M → Prop}

/-- What holds everywhere holds at the node itself. -/
theorem Everywhere.here {e : Expr M} : Everywhere P e → P e
  | .intro h _ => h

/-- What holds everywhere holds everywhere in the trees below. -/
theorem Everywhere.inside {e : Expr M} : Everywhere P e → ∀ x ∈ e.children, Everywhere P x
  | .intro _ h => h

/-- A weaker property holds everywhere as well. -/
theorem Everywhere.mono (h : ∀ e, P e → Q e) {e : Expr M} (he : Everywhere P e) :
    Everywhere Q e := by
  induction he with
  | intro here _ ih => exact .intro (h _ here) ih

/-- The names that stand in a node: one that is looked up, bound or called, and parameters. -/
def names : Expr M → List Text
  | reference ref => [ref.name]
  | assign _ target _ => [target.name]
  | lambda _ params _ _ => params.map (·.name)
  | call _ name _ => [name]
  | _ => []

/-- The expressions directly below a node that are evaluated along with it: the body of a function
is not evaluated where the function stands. -/
def parts : Expr M → List (Expr M)
  | lambda _ _ _ _ => []
  | e => e.children

/-- A node stands in a tree, and not inside the body of a function. -/
inductive Holds (e : Expr M) : Expr M → Prop where
  /-- The tree itself. -/
  | root : Holds e e
  /-- A part of a node. -/
  | part {node x : Expr M} (h : Holds e node) (mem : x ∈ node.parts) : Holds e x

/-- A list of nodes with all their parts holds every node of a tree that it holds. -/
theorem Holds.mem_of_parts {e x : Expr M} {nodes : List (Expr M)} (h : e.Holds x) (he : e ∈ nodes)
    (hparts : ∀ node ∈ nodes, ∀ y ∈ node.parts, y ∈ nodes) : x ∈ nodes := by
  induction h with
  | root => exact he
  | part _ mem ih => exact hparts _ ih _ mem

/-- What stands in a part of a node stands in the node. -/
theorem Holds.of_part {e x node : Expr M} (mem : x ∈ e.parts) (h : x.Holds node) :
    e.Holds node := by
  induction h with
  | root => exact .part .root mem
  | part _ mem ih => exact .part ih mem

mutual

/-- Whether a test succeeds at the node itself and everywhere below it. -/
def everywhere (p : Expr M → Bool) : Expr M → Bool
  | literal pos c => p (literal pos c)
  | reference ref => p (reference ref)
  | operator op => p (operator op)
  | unary pos op right => p (unary pos op right) && everywhere p right
  | binary pos left op right =>
    p (binary pos left op right) && (everywhere p left && everywhere p right)
  | assign pos target right => p (assign pos target right) && everywhere p right
  | tuple pos items => p (tuple pos items) && everywhereAll p items
  | matrix pos rows => p (matrix pos rows) && everywhereRows p rows
  | ifThen pos test yes => p (ifThen pos test yes) && (everywhere p test && everywhere p yes)
  | ifElse pos test yes no =>
    p (ifElse pos test yes no) && (everywhere p test && (everywhere p yes && everywhere p no))
  | lambda pos params bodyPos body => p (lambda pos params bodyPos body) && everywhereAll p body
  | call pos name args => p (call pos name args) && everywhereAll p args
  | ret pos value => p (ret pos value) && everywhere p value
  | declare pos words => p (declare pos words)
  | program pos statements => p (program pos statements) && everywhereAll p statements
termination_by structural e => e

/-- Whether a test succeeds everywhere in several trees. -/
def everywhereAll (p : Expr M → Bool) : List (Expr M) → Bool
  | [] => true
  | e :: es => everywhere p e && everywhereAll p es
termination_by structural es => es

/-- Whether a test succeeds everywhere in several rows of trees. -/
def everywhereRows (p : Expr M → Bool) : List (List (Expr M)) → Bool
  | [] => true
  | row :: rows => everywhereAll p row && everywhereRows p rows
termination_by structural rows => rows

end

/-- A test of several trees is a test of each. -/
theorem everywhereAll_eq_all (p : Expr M → Bool) (es : List (Expr M)) :
    everywhereAll p es = es.all (everywhere p) := by
  induction es with
  | nil => rfl
  | cons e es ih => rw [everywhereAll, List.all_cons, ih]

/-- A test of several rows is a test of each tree in them. -/
theorem everywhereRows_eq_all (p : Expr M → Bool) (rows : List (List (Expr M))) :
    everywhereRows p rows = rows.flatten.all (everywhere p) := by
  induction rows with
  | nil => rfl
  | cons row rows ih =>
    rw [everywhereRows, List.flatten_cons, List.all_append, ih, everywhereAll_eq_all]

/-- A test of a tree is a test of the node and of each tree directly below it. -/
theorem everywhere_eq (p : Expr M → Bool) (e : Expr M) :
    everywhere p e = (p e && e.children.all (everywhere p)) := by
  cases e <;> simp [everywhere, children, everywhereAll_eq_all, everywhereRows_eq_all]

/-- A property that can be decided can be decided at every node. -/
theorem everywhere_iff [DecidablePred P] (e : Expr M) :
    everywhere (fun x => decide (P x)) e = true ↔ e.Everywhere P := by
  induction e using children_induction with
  | h e ih =>
    rw [everywhere_eq, Bool.and_eq_true_iff, decide_eq_true_iff, List.all_eq_true]
    constructor
    · rintro ⟨here, inside⟩
      exact .intro here fun x hx => (ih x hx).mp (inside x hx)
    · rintro ⟨here, inside⟩
      exact ⟨here, fun x hx => (ih x hx).mpr (inside x hx)⟩

instance [DecidablePred P] (e : Expr M) : Decidable (e.Everywhere P) :=
  decidable_of_iff _ (everywhere_iff e)

end Expr

end SymCalc
