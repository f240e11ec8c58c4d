import Mathlib
import SymCalc.Algebra.Poly

/-!
# Laws of magnitudes

What the algebra relies on when it compares and sorts numbers, as a class of its own. Floating
point numbers are not a field, but they obey these laws, not-a-number included: equality need
not be reflexive. The exact rational numbers are magnitudes too.
-/

namespace SymCalc

/-- The laws of numbers that keep sums of terms in order. Equality is not asked to be
reflexive. -/
class LawfulMagnitude (M : Type) [Magnitude M] : Prop where
  /-- Equality is symmetric. -/
  beq_symm : ∀ {m n : M}, (m == n) = true → (n == m) = true
  /-- Equality is transitive. -/
  beq_trans : ∀ {m n k : M}, (m == n) = true → (n == k) = true → (m == k) = true
  /-- The order is a total preorder. -/
  order_trans : Std.TransCmp (Magnitude.order : M → M → Ordering)

/-- Exact rational numbers. -/
instance : Magnitude ℚ where
  order := compare
  isNegative m := m < 0

/-- A rational magnitude passes the test for zero exactly when it is zero. -/
@[simp] theorem Magnitude.isZero_rat (m : ℚ) : Magnitude.isZero m = true ↔ m = 0 :=
  beq_iff_eq

/-- A rational magnitude fails the test for zero exactly when it is not zero. -/
@[simp] theorem Magnitude.isZero_rat_false (m : ℚ) : Magnitude.isZero m = false ↔ m ≠ 0 := by
  rw [← Bool.not_eq_true, isZero_rat]

instance : LawfulMagnitude ℚ where
  beq_symm h := beq_iff_eq.mpr (beq_iff_eq.mp h).symm
  beq_trans h₁ h₂ := beq_iff_eq.mpr ((beq_iff_eq.mp h₁).trans (beq_iff_eq.mp h₂))
  order_trans := inferInstanceAs (Std.TransCmp (compare : ℚ → ℚ → Ordering))

/-- Rational numbers are read from decimals and written exactly, as whole numbers or as quotients
of whole numbers. -/
instance : Numeric ℚ where
  read? t :=
    let whole := t.chars.takeWhile Char.isDigit
    match t.chars.dropWhile Char.isDigit with
    | [] => some (Nat.ofDigitChars 10 whole 0)
    | _ :: rest => some (Nat.ofDigitChars 10 (whole ++ rest) 0 / 10 ^ rest.length)
  format _ m :=
    if m.den = 1 then Text.ofString (toString m.num)
    else Text.ofString (toString m.num ++ "/" ++ toString m.den)

end SymCalc
