import SymCalc.Algebra.Poly
import SymCalc.Algebra.Fault

/-!
# Scalars

A scalar is a sum of terms or a fraction of two sums. Dividing by a single term divides term
by term; any other quotient stays a fraction, and only equal numerators or denominators are
cancelled.
-/

namespace SymCalc

variable {M : Type} [Magnitude M]

/-- A quotient of two sums that is not reduced. -/
structure Fraction (M : Type) where
  /-- The numerator. -/
  num : Poly M
  /-- The denominator, which is not checked for zero. -/
  den : Poly M

/-- A sum of terms or a fraction. -/
inductive Scalar (M : Type) where
  /-- A sum of terms. -/
  | poly (p : Poly M)
  /-- A fraction. -/
  | fraction (f : Fraction M)

/-- The quotient of two sums. Dividing by zero is a fault. -/
def Poly.div (p q : Poly M) : Except Fault (Scalar M) :=
  match q.asTerm? with
  | none => .ok (.fraction ⟨p, q⟩)
  | some t => if t.isZero then .error .divisionByZero else .ok (.poly (p.divTerm t))

namespace Fraction

/-- Whether two fractions have the same numerator and the same denominator. -/
def equal (f g : Fraction M) : Bool := f.num.equal g.num && f.den.equal g.den

/-- The reciprocal. -/
def inverse (f : Fraction M) : Fraction M := ⟨f.den, f.num⟩

/-- The sum of two fractions, over their denominator if it is the same. -/
def add (f g : Fraction M) : Fraction M :=
  if f.den.equal g.den then ⟨f.num.add g.num, f.den⟩
  else ⟨(f.num.mul g.den).add (g.num.mul f.den), f.den.mul g.den⟩

/-- The sum of a fraction and a sum of terms. -/
def addPoly (f : Fraction M) (p : Poly M) : Fraction M := ⟨f.num.add (p.mul f.den), f.den⟩

/-- The product of two fractions. -/
def mul (f g : Fraction M) : Fraction M := ⟨f.num.mul g.num, f.den.mul g.den⟩

/-- The product of a fraction and a sum of terms. -/
def mulPoly (f : Fraction M) (p : Poly M) : Fraction M := ⟨f.num.mul p, f.den⟩

/-- The quotient of two fractions. Equal fractions give one, a shared numerator or denominator
is cancelled, and otherwise the reciprocal of the second is a factor. -/
def div (f g : Fraction M) : Except Fault (Scalar M) :=
  if f.equal g then .ok (.poly (.term .one))
  else if f.num.equal g.num then g.den.div f.den
  else if f.den.equal g.den then f.num.div g.num
  else .ok (.fraction (f.mul g.inverse))

/-- The quotient of a fraction and a sum of terms. -/
def divPoly (f : Fraction M) (p : Poly M) : Fraction M := ⟨f.num, f.den.mul p⟩

/-- The quotient of a sum of terms and a fraction. -/
def polyDiv (p : Poly M) (f : Fraction M) : Fraction M := ⟨p.mul f.den, f.num⟩

/-- The negated fraction. -/
def neg (f : Fraction M) : Fraction M := ⟨f.num.neg, f.den⟩

end Fraction

namespace Scalar

/-- The real number with a magnitude. -/
def number (m : M) : Scalar M := .poly (.term (.number m))

/-- Zero. -/
def zero : Scalar M := .poly (.term .zero)

/-- Whether two scalars are the same. A sum is never the same as a fraction. -/
def equal : Scalar M → Scalar M → Bool
  | .poly p, .poly q => p.equal q
  | .fraction f, .fraction g => f.equal g
  | _, _ => false

/-- The kind of a scalar. -/
def kind : Scalar M → ValueKind
  | .poly (.term _) => .term
  | .poly (.sum _) => .termList
  | .fraction _ => .fraction

/-- The sum of two scalars. -/
def add : Scalar M → Scalar M → Scalar M
  | .poly p, .poly q => .poly (p.add q)
  | .poly p, .fraction g => .fraction (g.addPoly p)
  | .fraction f, .poly q => .fraction (f.addPoly q)
  | .fraction f, .fraction g => .fraction (f.add g)

/-- The product of two scalars. -/
def mul : Scalar M → Scalar M → Scalar M
  | .poly p, .poly q => .poly (p.mul q)
  | .poly p, .fraction g => .fraction (g.mulPoly p)
  | .fraction f, .poly q => .fraction (f.mulPoly q)
  | .fraction f, .fraction g => .fraction (f.mul g)

/-- The quotient of two scalars. -/
def div : Scalar M → Scalar M → Except Fault (Scalar M)
  | .poly p, .poly q => p.div q
  | .poly p, .fraction g => .ok (.fraction (.polyDiv p g))
  | .fraction f, .poly q => .ok (.fraction (f.divPoly q))
  | .fraction f, .fraction g => f.div g

/-- The negated scalar. -/
def neg : Scalar M → Scalar M
  | .poly p => .poly p.neg
  | .fraction f => .fraction f.neg

end Scalar

end SymCalc
