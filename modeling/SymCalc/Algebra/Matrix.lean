import SymCalc.Algebra.Scalar

/-!
# Matrices

A matrix is a list of rows of scalars. Every matrix made by these operations from rows of one
length is a full rectangle: its cells are given by row and column.
-/

namespace SymCalc

variable {M : Type} [Magnitude M]

/-- A rectangle of scalars, row by row. -/
structure Matrix (M : Type) where
  /-- The rows, from top to bottom. -/
  rows : List (List (Scalar M))

namespace Matrix

/-- The number of rows. -/
def height (m : Matrix M) : Nat := m.rows.length

/-- The number of columns, which is the length of the first row. -/
def width (m : Matrix M) : Nat := (m.rows.headD []).length

/-- The numbers of rows and columns. -/
def shape (m : Matrix M) : Shape := ⟨m.height, m.width⟩

/-- A row that is not as long as the first, with its number counted from one. -/
def raggedRow? (want : Nat) : (number : Nat) → List (List (Scalar M)) → Option Fault
  | _, [] => none
  | number, row :: rows =>
    if row.length ≠ want then some (.raggedMatrix number row.length want)
    else raggedRow? want (number + 1) rows

/-- The matrix with the given rows, which must have one length and not be empty. -/
def ofRows (rows : List (List (Scalar M))) : Except Fault (Matrix M) :=
  match rows with
  | [] | [] :: _ => .error .emptyMatrix
  | first :: _ =>
    match raggedRow? first.length 1 rows with
    | some fault => .error fault
    | none => .ok ⟨rows⟩

/-- The cell in a row and a column counted from zero, if there is one. -/
def cell? (m : Matrix M) (i j : Nat) : Option (Scalar M) := m.rows[i]?.bind (·[j]?)

/-- The cell in a row and a column counted from zero. -/
def cell (m : Matrix M) (i j : Nat) : Scalar M := (m.cell? i j).getD .zero

/-- The matrix with a number of rows and columns whose cells are given by row and column. -/
def tabulate (height width : Nat) (f : Nat → Nat → Scalar M) : Matrix M :=
  ⟨(List.range height).map fun i => (List.range width).map fun j => f i j⟩

omit [Magnitude M] in
/-- A tabulated matrix has the number of rows that it was given. -/
@[simp] theorem height_tabulate (height width : Nat) (f : Nat → Nat → Scalar M) :
    (tabulate height width f).height = height := by
  simp [tabulate, Matrix.height]

/-- A tabulated matrix has the cells that it was given. -/
theorem cell_tabulate {height width i j : Nat} (f : Nat → Nat → Scalar M) (hi : i < height)
    (hj : j < width) : (tabulate height width f).cell i j = f i j := by
  simp [tabulate, cell, cell?, hi, hj]

/-- Whether two matrices have the same shape and the same cells. -/
def equal (m n : Matrix M) : Bool :=
  m.shape = n.shape &&
    (List.range m.height).all fun i =>
      (List.range m.width).all fun j => (m.cell i j).equal (n.cell i j)

/-- Rows and columns exchanged. -/
def transpose (m : Matrix M) : Matrix M := tabulate m.width m.height fun i j => m.cell j i

/-- The sum of two matrices of one shape. -/
def add (m n : Matrix M) : Except Fault (Matrix M) :=
  if m.shape = n.shape then
    .ok (tabulate m.height m.width fun i j => (m.cell i j).add (n.cell i j))
  else .error (.shapeMismatch m.shape n.shape)

/-- The sum of the products of a row of the one matrix with a column of the other, from left
to right and starting from zero. -/
def dot (m n : Matrix M) (i j : Nat) : Scalar M :=
  (List.range m.width).foldl (fun sum k => sum.add ((m.cell i k).mul (n.cell k j))) .zero

/-- The matrix product. -/
def mul (m n : Matrix M) : Except Fault (Matrix M) :=
  if m.width = n.height then .ok (tabulate m.height n.width (m.dot n))
  else .error (.productMismatch m.shape n.shape)

/-- Every cell multiplied by a scalar, which is the left factor. -/
def scale (s : Scalar M) (m : Matrix M) : Matrix M :=
  tabulate m.height m.width fun i j => s.mul (m.cell i j)

/-- The matrix of blocks, each a cell of the one matrix times the other matrix. -/
def tensor (m n : Matrix M) : Matrix M :=
  tabulate (m.height * n.height) (m.width * n.width) fun i j =>
    (m.cell (i / n.height) (j / n.width)).mul (n.cell (i % n.height) (j % n.width))

/-- Every cell negated, as the product with minus one. -/
def neg (m : Matrix M) : Matrix M := scale (.number (-1)) m

end Matrix

end SymCalc
