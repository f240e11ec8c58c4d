import SymCalc.Expr.Basic
import SymCalc.Algebra.Printer

/-!
# Values and environments

What expressions evaluate to: scalars, matrices, Booleans, tuples, functions with the bindings
they were made in, and the value of statements that have none. An environment binds names to
values and is kept in the order of the names.
-/

namespace SymCalc

mutual

/-- A value. -/
inductive Value (M : Type) where
  /-- A sum of terms or a fraction. -/
  | scalar (s : Scalar M)
  /-- A matrix. -/
  | matrix (m : Matrix M)
  /-- True or false. -/
  | boolean (b : Bool)
  /-- A tuple. -/
  | tuple (items : List (Value M))
  /-- A function. -/
  | closure (c : Closure M)
  /-- The value of a statement without a value. -/
  | unit

/-- A function with the bindings that were in force when it was made. -/
structure Closure (M : Type) where
  /-- The number that tells functions apart: each one made gets the next. -/
  serial : Nat
  /-- The names of the parameters. -/
  params : List Text
  /-- The bindings in force when it was made. -/
  captured : List (Text × Value M)
  /-- The statements of the body. -/
  body : List (Expr M)

end

/-- Names bound to values, in the order of the names. -/
abbrev Bindings (M : Type) := List (Text × Value M)

namespace Bindings

variable {M : Type}

/-- The value that a name is bound to. -/
def find? (name : Text) : Bindings M → Option (Value M)
  | [] => none
  | (key, value) :: rest => if key = name then some value else find? name rest

/-- Binds a name to a value, in place of the value it was bound to. -/
def insert (name : Text) (value : Value M) : Bindings M → Bindings M
  | [] => [(name, value)]
  | (key, old) :: rest =>
    if key = name then (name, value) :: rest
    else if Text.order name key = .lt then (name, value) :: (key, old) :: rest
    else (key, old) :: insert name value rest

/-- The names bound, in order. -/
def names (bs : Bindings M) : List Text := bs.map (·.1)

/-- A name just bound has the value it was bound to. -/
@[simp] theorem find?_insert_self (name : Text) (value : Value M) (bs : Bindings M) :
    find? name (insert name value bs) = some value := by
  induction bs with
  | nil => simp [insert, find?]
  | cons b rest ih =>
    obtain ⟨key, old⟩ := b
    simp only [insert]
    split
    · simp [find?]
    · split
      · simp [find?]
      · rename_i hne _
        simp [find?, hne, ih]

/-- Binding a name leaves the other names as they were. -/
theorem find?_insert_of_ne {name other : Text} (h : other ≠ name) (value : Value M)
    (bs : Bindings M) : find? other (insert name value bs) = find? other bs := by
  induction bs with
  | nil => simp [insert, find?, Ne.symm h]
  | cons b rest ih =>
    obtain ⟨key, old⟩ := b
    simp only [insert]
    split
    · rename_i hk
      subst hk
      simp [find?, Ne.symm h]
    · split
      · simp [find?, Ne.symm h]
      · simp [find?, ih]

/-- A value that is found is bound. -/
theorem mem_of_find? {name : Text} {value : Value M} {bs : Bindings M}
    (h : find? name bs = some value) : (name, value) ∈ bs := by
  induction bs with
  | nil => cases h
  | cons b rest ih =>
    obtain ⟨key, old⟩ := b
    simp only [find?] at h
    split at h
    · rename_i hkey
      cases h
      exact List.mem_cons.mpr (.inl (congrArg (·, value) hkey.symm))
    · exact List.mem_cons.mpr (.inr (ih h))

/-- After a name is bound, that binding is the only new one. -/
theorem mem_insert {name : Text} {value : Value M} {bs : Bindings M} {b : Text × Value M}
    (h : b ∈ insert name value bs) : b = (name, value) ∨ b ∈ bs := by
  induction bs with
  | nil => exact .inl (List.mem_singleton.mp h)
  | cons c rest ih =>
    obtain ⟨key, old⟩ := c
    simp only [insert] at h
    split at h
    · exact (List.mem_cons.mp h).imp_right fun hmem => List.mem_cons.mpr (.inr hmem)
    · split at h
      · exact List.mem_cons.mp h
      · rcases List.mem_cons.mp h with rfl | hmem
        · exact .inr (List.mem_cons.mpr (.inl rfl))
        · exact (ih hmem).imp_right fun hrest => List.mem_cons.mpr (.inr hrest)

end Bindings

/-- The bindings in force, and how many functions have been made so far. -/
structure Env (M : Type) where
  /-- The names bound. -/
  bindings : Bindings M := []
  /-- How many functions have been made. -/
  made : Nat := 0

variable {M : Type}

/-- The value of a constant. -/
def Constant.value : Constant M → Value M
  | .scalar s => .scalar s
  | .matrix m => .matrix m
  | .boolean b => .boolean b
  | .tuple items => .tuple (values items)
  | .unit => .unit
where
  /-- The values of constants. -/
  values : List (Constant M) → List (Value M)
    | [] => []
    | c :: cs => c.value :: values cs

namespace Value

/-- The kind of a value. -/
def kind : Value M → ValueKind
  | .scalar s => s.kind
  | .matrix _ => .matrix
  | .boolean _ => .boolean
  | .tuple _ => .tuple
  | .closure _ => .closure
  | .unit => .unit

/-- The scalar that a value is, if it is one. -/
def asScalar? : Value M → Option (Scalar M)
  | .scalar s => some s
  | _ => none

/-- Whether a value is the value of a statement without a value. -/
def isUnit : Value M → Bool
  | .unit => true
  | _ => false

variable [Magnitude M]

mutual

/-- Whether two values are the same. A function is the same only as itself. -/
def equal : Value M → Value M → Bool
  | .scalar s, .scalar t => s.equal t
  | .matrix m, .matrix n => m.equal n
  | .boolean a, .boolean b => a == b
  | .tuple vs, .tuple ws => equalAll vs ws
  | .closure c, .closure d => c.serial == d.serial
  | .unit, .unit => true
  | _, _ => false
termination_by structural v => v

/-- Whether two lists hold the same values, in order. -/
def equalAll : List (Value M) → List (Value M) → Bool
  | [], [] => true
  | v :: vs, w :: ws => equal v w && equalAll vs ws
  | _, _ => false
termination_by structural vs => vs

end

mutual

/-- A value as it is printed. -/
def render (write : M → Text) : Value M → Text
  | .scalar s => s.render write
  | .matrix m => m.render write
  | .boolean b => if b then "true" else "false"
  | .tuple vs => "(" ++ Text.join ", " (renderAll write vs) ++ ")"
  | .closure c => "lambda(" ++ Text.join ", " c.params ++ ")"
  | .unit => ""
termination_by structural v => v

/-- Values as they are printed. -/
def renderAll (write : M → Text) : List (Value M) → List Text
  | [] => []
  | v :: vs => render write v :: renderAll write vs
termination_by structural vs => vs

end

end Value

end SymCalc
