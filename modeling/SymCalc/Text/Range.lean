/-!
# Ranges of code points

A character property is held as a list of increasing ranges; a character has the
property when its code point lies in one of them.
-/

namespace SymCalc.Text

/-- The first and the last code point of a run of characters. -/
abbrev CodeRange := Nat × Nat

/-- Whether a code point lies in one of the ranges. -/
def inRanges (ranges : List CodeRange) (code : Nat) : Bool :=
  ranges.any fun range => range.1 ≤ code && code ≤ range.2

/-- A code point lies in the ranges exactly when one of them holds it. -/
theorem inRanges_eq_true_iff {ranges : List CodeRange} {code : Nat} :
    inRanges ranges code = true ↔ ∃ range ∈ ranges, range.1 ≤ code ∧ code ≤ range.2 := by
  simp [inRanges, List.any_eq_true]

end SymCalc.Text
