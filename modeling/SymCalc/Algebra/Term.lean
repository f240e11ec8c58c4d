import SymCalc.Algebra.Magnitude
import SymCalc.Algebra.Sorting

/-!
# Terms and sums of terms

A term is a real or imaginary magnitude times powers of literal variables; the exponents are
themselves sums of terms. A sum of terms is a single term or a list of them. Equality and the
order of terms go down into the exponents.
-/

namespace SymCalc

mutual

/-- A magnitude, real or imaginary, times powers of literal variables. A term of magnitude
zero is zero, whatever else it holds. -/
structure Term (M : Type) where
  /-- The number that multiplies everything else. -/
  magnitude : M
  /-- Whether the imaginary unit is a factor. -/
  imaginary : Bool
  /-- The powers of literal variables. -/
  powers : List (Power M)

/-- A literal variable with its exponent. -/
structure Power (M : Type) where
  /-- The name of the variable. -/
  name : Text
  /-- The exponent. -/
  exponent : Poly M

/-- A sum of terms. -/
inductive Poly (M : Type) where
  /-- A single term. -/
  | term (t : Term M)
  /-- A list of terms, which may have one member or none. -/
  | sum (terms : List (Term M))

end

variable {M : Type} [Magnitude M]

namespace Term

/-- The real term with a magnitude and no variables. -/
def number (m : M) : Term M := ⟨m, false, []⟩

/-- The term zero. -/
def zero : Term M := number 0

/-- The term one. -/
def one : Term M := number 1

/-- The imaginary unit. -/
def imaginaryUnit : Term M := ⟨1, true, []⟩

/-- The literal variable with a name, to the power one. -/
def named (name : Text) : Term M := ⟨1, false, [⟨name, .term one⟩]⟩

/-- Whether a term is zero. -/
def isZero (t : Term M) : Bool := Magnitude.isZero t.magnitude

end Term

/-- The terms of a sum: for a single term itself, unless it is zero. -/
def Poly.terms : Poly M → List (Term M)
  | .term t => if t.isZero then [] else [t]
  | .sum ts => ts

mutual

/-- Whether two terms are the same number. -/
def Term.equal : Term M → Term M → Bool
  | ⟨m, i, ps⟩, ⟨n, j, qs⟩ =>
    if Magnitude.isZero m || Magnitude.isZero n then Magnitude.isZero m && Magnitude.isZero n
    else m == n && i == j && Power.equalAll ps qs
termination_by structural t => t

/-- Whether two lists of powers have the same names with the same exponents, in order. -/
def Power.equalAll : List (Power M) → List (Power M) → Bool
  | [], [] => true
  | p :: ps, q :: qs => Power.equal p q && Power.equalAll ps qs
  | _, _ => false
termination_by structural ps => ps

/-- Whether two powers have the same name and the same exponent. -/
def Power.equal : Power M → Power M → Bool
  | ⟨x, e⟩, ⟨y, f⟩ => x = y && Poly.equal e f
termination_by structural p => p

/-- Whether two sums are the same. A list without terms is zero, and a list of one term is
that term. -/
def Poly.equal : Poly M → Poly M → Bool
  | .term t, .term u => Term.equal t u
  | .term t, .sum [] => t.isZero
  | .term t, .sum [u] => Term.equal t u
  | .term _, .sum (_ :: _ :: _) => false
  | .sum ts, .term u => Term.equalOnly ts u
  | .sum ts, .sum us => Term.equalAll ts us
termination_by structural p => p

/-- Whether two lists have the same terms, in order. -/
def Term.equalAll : List (Term M) → List (Term M) → Bool
  | [], [] => true
  | t :: ts, u :: us => Term.equal t u && Term.equalAll ts us
  | _, _ => false
termination_by structural ts => ts

/-- Whether a list of terms is the same as one term. -/
def Term.equalOnly : List (Term M) → Term M → Bool
  | [], u => u.isZero
  | [t], u => Term.equal t u
  | _ :: _ :: _, _ => false
termination_by structural ts => ts

end

/-- Whether two terms differ in their magnitudes at most, so that they add up to one term. -/
def Term.sameSignature (t u : Term M) : Bool :=
  t.imaginary == u.imaginary && Power.equalAll t.powers u.powers

mutual

/-- The order of terms: by their powers, then real before imaginary, then by magnitude. -/
def Term.order : Term M → Term M → Ordering
  | ⟨m, i, ps⟩, ⟨n, j, qs⟩ =>
    (Power.orderAll ps qs).then ((compare i j).then (Magnitude.order m n))
termination_by structural t => t

/-- The order of lists of powers: the first difference decides, and a list comes after its
beginnings. -/
def Power.orderAll : List (Power M) → List (Power M) → Ordering
  | [], [] => .eq
  | [], _ :: _ => .lt
  | _ :: _, [] => .gt
  | p :: ps, q :: qs => (Power.order p q).then (Power.orderAll ps qs)
termination_by structural ps => ps

/-- The order of powers: by name, then by exponent. -/
def Power.order : Power M → Power M → Ordering
  | ⟨x, e⟩, ⟨y, f⟩ => (Text.order x y).then (Poly.order e f)
termination_by structural p => p

/-- The order of sums: the order of their lists of terms. -/
def Poly.order : Poly M → Poly M → Ordering
  | .term t, q =>
    match t.isZero, q.terms with
    | true, [] => .eq
    | true, _ :: _ => .lt
    | false, [] => .gt
    | false, u :: us => (Term.order t u).then (if us.isEmpty then .eq else .lt)
  | .sum ts, q => Term.orderAll ts q.terms
termination_by structural p => p

/-- The order of lists of terms: the first difference decides, and a list comes after its
beginnings. -/
def Term.orderAll : List (Term M) → List (Term M) → Ordering
  | [], [] => .eq
  | [], _ :: _ => .lt
  | _ :: _, [] => .gt
  | t :: ts, u :: us => (Term.order t u).then (Term.orderAll ts us)
termination_by structural ts => ts

end

/-- Sums are ordered as their lists of terms are. -/
theorem Poly.order_eq (p q : Poly M) : Poly.order p q = Term.orderAll p.terms q.terms := by
  cases p with
  | sum ts => simp only [Poly.order, Poly.terms]
  | term t =>
    rw [Poly.order, show (Poly.term t).terms = if t.isZero then [] else [t] from rfl]
    cases t.isZero <;> rcases q.terms with _ | ⟨u, us⟩ <;> simp [Term.orderAll]
    cases us <;> simp [Term.orderAll]

end SymCalc
