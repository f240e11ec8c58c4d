import Mathlib
import SymCalc.Algebra.Matrix

/-!
# Full rectangles

A matrix is kept as the list of its rows. Main statements: the matrices that are tabulated and those
made of rows, where this succeeds, are full rectangles with at least one row and one column.
-/

namespace SymCalc

variable {M : Type}

namespace Matrix

/-- A full rectangle with at least one row and one column. -/
structure Full (m : Matrix M) : Prop where
  /-- There is a row. -/
  height_pos : 0 < m.height
  /-- There is a column. -/
  width_pos : 0 < m.width
  /-- Every row has a cell in each column. -/
  row_length : ∀ row ∈ m.rows, row.length = m.width

/-- A tabulated matrix with a row has the number of columns that it was given. -/
theorem width_tabulate {height : Nat} (hh : 0 < height) (width : Nat)
    (f : Nat → Nat → Scalar M) : (tabulate height width f).width = width := by
  cases height with
  | zero => omega
  | succ height => simp [tabulate, Matrix.width, List.range_succ_eq_map]

/-- A tabulated matrix is a full rectangle. -/
theorem tabulate_full {height width : Nat} (hh : 0 < height) (hw : 0 < width)
    (f : Nat → Nat → Scalar M) : (tabulate height width f).Full := by
  have hwidth := width_tabulate hh width f
  refine ⟨by rwa [height_tabulate], by rwa [hwidth], fun row hrow => ?_⟩
  obtain ⟨i, _, rfl⟩ := List.mem_map.mp hrow
  rw [hwidth, List.length_map, List.length_range]

/-- No row is found to be ragged when all have the length wanted. -/
theorem raggedRow?_eq_none_iff {want number : Nat} {rows : List (List (Scalar M))} :
    raggedRow? want number rows = none ↔ ∀ row ∈ rows, row.length = want := by
  induction rows generalizing number with
  | nil => simp [raggedRow?]
  | cons row rows ih =>
    rw [raggedRow?, List.forall_mem_cons]
    by_cases hrow : row.length = want
    · rw [if_neg (not_not.mpr hrow), ih]
      exact (and_iff_right hrow).symm
    · simp [hrow]

/-- Rows of one length other than zero make a matrix, which is a full rectangle. -/
theorem ofRows_eq_ok {width : Nat} {rows : List (List (Scalar M))} (hne : rows ≠ [])
    (hpos : 0 < width) (h : ∀ row ∈ rows, row.length = width) :
    ofRows rows = .ok ⟨rows⟩ ∧ (⟨rows⟩ : Matrix M).Full := by
  cases rows with
  | nil => exact absurd rfl hne
  | cons first rest =>
    have hfirst := h first List.mem_cons_self
    have hfull : (⟨first :: rest⟩ : Matrix M).Full :=
      ⟨Nat.succ_pos _, by rw [Matrix.width, List.headD_cons]; omega,
        fun row hrow => (h row hrow).trans hfirst.symm⟩
    cases first with
    | nil =>
      rw [List.length_nil] at hfirst
      omega
    | cons s row =>
      have hragged : raggedRow? (s :: row).length 1 ((s :: row) :: rest) = none :=
        raggedRow?_eq_none_iff.mpr fun other hother => (h other hother).trans hfirst.symm
      refine ⟨?_, hfull⟩
      simp only [ofRows, hragged]

/-- Rows that are as long as the rows of a full rectangle make a matrix. -/
theorem ofRows_eq_ok_of_lengths {α : Type} {rows : List (List α)} {cells : List (List (Scalar M))}
    (hne : rows ≠ []) (hfull : ∃ width, 0 < width ∧ ∀ row ∈ rows, row.length = width)
    (hlengths : cells.map List.length = rows.map List.length) :
    ofRows cells = .ok ⟨cells⟩ ∧ (⟨cells⟩ : Matrix M).Full := by
  obtain ⟨width, hpos, hrows⟩ := hfull
  have hcells : cells ≠ [] := by
    rintro rfl
    exact hne (List.map_eq_nil_iff.mp hlengths.symm)
  refine ofRows_eq_ok hcells hpos fun row hrow => ?_
  have hmem : row.length ∈ rows.map List.length := hlengths ▸ List.mem_map_of_mem hrow
  obtain ⟨other, hother, heq⟩ := List.mem_map.mp hmem
  exact heq.symm.trans (hrows other hother)

/-- Rows that make a matrix are its rows, and it is a full rectangle. -/
theorem full_of_ofRows {rows : List (List (Scalar M))} {m : Matrix M} (h : ofRows rows = .ok m) :
    m.rows = rows ∧ m.Full := by
  cases rows with
  | nil => cases h
  | cons first rows =>
    cases first with
    | nil => cases h
    | cons s first =>
      rw [ofRows] at h
      split at h
      · cases h
      · rename_i hragged
        cases h
        exact ⟨rfl, Nat.succ_pos _, Nat.succ_pos _, raggedRow?_eq_none_iff.mp hragged⟩
      · simp

/-- Every cell within the rows and columns of a full rectangle exists. -/
theorem Full.cell?_eq_some [Magnitude M] {m : Matrix M} (hm : m.Full) {i j : Nat}
    (hi : i < m.height) (hj : j < m.width) :
    m.cell? i j = some (m.cell i j) := by
  have hrow : m.rows[i]? = some m.rows[i] := List.getElem?_eq_getElem hi
  have hlength : j < (m.rows[i]).length := by
    rw [hm.row_length _ (List.getElem_mem hi)]
    exact hj
  have hcell : m.cell? i j = some (m.rows[i])[j] := by
    rw [cell?, hrow, Option.bind_some, List.getElem?_eq_getElem hlength]
  rw [cell, hcell]
  rfl

end Matrix

end SymCalc
