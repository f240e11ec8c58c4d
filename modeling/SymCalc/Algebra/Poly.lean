import SymCalc.Algebra.Term

/-!
# Arithmetic of sums of terms

Terms that differ in their magnitudes only are added into one; others stay side by side in a
sorted list. Products add the exponents of shared variables and use that the square of the
imaginary unit is minus one.
-/

namespace SymCalc

variable {M : Type} [Magnitude M]

/-- The term with its magnitude negated. -/
def Term.neg (t : Term M) : Term M := { t with magnitude := -t.magnitude }

namespace Poly

/-- The terms that are not zero, sorted. Like terms are not merged. -/
def tidy (ts : List (Term M)) : List (Term M) :=
  sortBy Term.order (ts.filter fun t => !t.isZero)

/-- The sum of the terms that are not zero, sorted. -/
def ofTerms (ts : List (Term M)) : Poly M := .sum (tidy ts)

/-- Adds a term into the first one with the same signature, or puts it at the end. -/
def addInto (t : Term M) : List (Term M) → List (Term M)
  | [] => [t]
  | u :: us =>
    if t.sameSignature u then ⟨u.magnitude + t.magnitude, t.imaginary, t.powers⟩ :: us
    else u :: addInto t us

/-- The sum of a term and a list of terms, as a list. -/
def addTerm (t : Term M) (ts : List (Term M)) : List (Term M) := tidy (addInto t ts)

/-- The sum of two terms. -/
def addTerms (t u : Term M) : Poly M :=
  if t.sameSignature u then .term ⟨t.magnitude + u.magnitude, t.imaginary, t.powers⟩
  else ofTerms [t, u]

/-- The sum of two sums. The terms of a list are added into the other list one at a time. -/
def add : Poly M → Poly M → Poly M
  | .term t, .term u => addTerms t u
  | .term t, .sum us => .sum (addTerm t us)
  | .sum ts, .term u => .sum (addTerm u ts)
  | .sum ts, .sum us => .sum (ts.foldl (fun acc t => addTerm t acc) us)

/-- The sum with every term negated. -/
def neg : Poly M → Poly M
  | .term t => .term t.neg
  | .sum ts => ofTerms (ts.map Term.neg)

end Poly

/-- Adds the exponents of neighbours with the same name; the first argument is the power that
the neighbours are compared with. -/
def Power.mergeFrom (p : Power M) : List (Power M) → List (Power M)
  | [] => [p]
  | q :: qs =>
    if p.name = q.name then Power.mergeFrom ⟨p.name, p.exponent.add q.exponent⟩ qs
    else p :: Power.mergeFrom q qs

/-- Adds the exponents of neighbours with the same name. -/
def Power.merge : List (Power M) → List (Power M)
  | [] => []
  | p :: ps => Power.mergeFrom p ps

/-- Powers in the order of their names, each name once and without zero exponents. -/
def Power.normalise (ps : List (Power M)) : List (Power M) :=
  (Power.merge (sortBy (fun p q => Text.order p.name q.name) ps)).filter
    fun p => !p.exponent.terms.isEmpty

namespace Term

/-- The term with powers brought into their normal form. -/
def make (magnitude : M) (imaginary : Bool) (powers : List (Power M)) : Term M :=
  ⟨magnitude, imaginary, Power.normalise powers⟩

/-- The product of two terms. -/
def mul (t u : Term M) : Term M :=
  let magnitude := t.magnitude * u.magnitude
  make (if t.imaginary && u.imaginary then -magnitude else magnitude) (t.imaginary != u.imaginary)
    (t.powers ++ u.powers)

/-- The reciprocal of a term that is not zero. One over the imaginary unit is its negative. -/
def inverse (t : Term M) : Term M :=
  let magnitude := 1 / t.magnitude
  ⟨if t.imaginary then -magnitude else magnitude, t.imaginary,
    t.powers.map fun p => ⟨p.name, p.exponent.neg⟩⟩

/-- The quotient of a term by one that is not zero; the magnitudes are divided directly. -/
def div (t u : Term M) : Term M :=
  let magnitude := t.magnitude / u.magnitude
  { mul t u.inverse with
    magnitude := if u.imaginary && !t.imaginary then -magnitude else magnitude }

end Term

namespace Poly

/-- Puts a term into the first group whose first member has the same signature, or into a new
group at the end. -/
def groupInto (t : Term M) : List (Term M × List (Term M)) → List (Term M × List (Term M))
  | [] => [(t, [])]
  | (first, others) :: groups =>
    if first.sameSignature t then (first, others ++ [t]) :: groups
    else (first, others) :: groupInto t groups

/-- The groups of terms with the same signature, in the order of their first members. -/
def groups (ts : List (Term M)) : List (Term M × List (Term M)) :=
  ts.foldl (fun gs t => groupInto t gs) []

/-- Putting a term into a group adds just that term. -/
theorem groupInto_perm (t : Term M)
    (gs : List (Term M × List (Term M))) :
    ((groupInto t gs).flatMap fun g => g.1 :: g.2).Perm
      (t :: gs.flatMap fun g => g.1 :: g.2) := by
  induction gs with
  | nil => exact .refl _
  | cons g gs ih =>
    obtain ⟨first, others⟩ := g
    rw [groupInto]
    split
    · simp only [List.flatMap_cons, List.cons_append, List.append_assoc]
      refine .trans (.cons first ?_) (.swap t first _)
      exact List.perm_middle
    · simp only [List.flatMap_cons]
      exact (ih.append_left _).trans List.perm_middle

/-- The groups hold exactly the terms. -/
theorem groups_perm (ts : List (Term M)) :
    ((groups ts).flatMap fun g => g.1 :: g.2).Perm ts := by
  have hfold : ∀ gs : List (Term M × List (Term M)),
      ((ts.foldl (fun gs t => groupInto t gs) gs).flatMap fun g => g.1 :: g.2).Perm
        (ts ++ gs.flatMap fun g => g.1 :: g.2) := by
    induction ts with
    | nil => exact fun gs => .refl _
    | cons t ts ih =>
      intro gs
      refine (ih (groupInto t gs)).trans ?_
      exact ((groupInto_perm t gs).append_left ts).trans List.perm_middle
  simpa only [groups, List.flatMap_nil, List.append_nil] using hfold []

/-- The sum of a group, starting from zero. -/
def sumGroup (group : Term M × List (Term M)) : Poly M :=
  (group.1 :: group.2).foldl (fun acc t => add (.term t) acc) (.term .zero)

/-- The sum of terms: each group is summed, and then the groups, starting from zero. -/
def combine (ts : List (Term M)) : Poly M :=
  (groups ts).foldl (fun acc group => add acc (sumGroup group)) (.term .zero)

/-- The product of two sums. -/
def mul : Poly M → Poly M → Poly M
  | .term t, .term u => .term (t.mul u)
  | .term t, .sum us => combine (us.map fun u => u.mul t)
  | .sum ts, .term u => combine (ts.map fun t => t.mul u)
  | .sum ts, .sum us => combine (ts.flatMap fun t => us.map fun u => t.mul u)

/-- The only term of a sum, if it has at most one. -/
def asTerm? : Poly M → Option (Term M)
  | .term t => some t
  | .sum [] => some .zero
  | .sum [t] => some t
  | .sum (_ :: _ :: _) => none

/-- The quotient of a sum by a term that is not zero. -/
def divTerm : Poly M → Term M → Poly M
  | .term t, u => .term (t.div u)
  | .sum ts, u => combine (ts.map fun t => t.div u)

end Poly

end SymCalc
