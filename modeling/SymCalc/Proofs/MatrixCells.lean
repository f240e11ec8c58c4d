import Mathlib
import SymCalc.Proofs.CanonicalValues
import SymCalc.Proofs.CheckedOperators
import SymCalc.Proofs.Separation

/-!
# Matrices by their cells

The operations on matrices give each cell by its row and column, so that a matrix is known by its
shape and its cells. Cells that are sums of terms are read in a ring. Main statements: two matrices
are equal when they have one shape and equal cells, and a cell of a product is read as the sum of
the products of the cells of a row and a column.
-/

namespace SymCalc

variable {M : Type} [Magnitude M]

namespace Matrix

variable {m n : Matrix M} {height width i j : Nat} {f g : Nat → Nat → Scalar M}

omit [Magnitude M] in
/-- A tabulated matrix with a row has the shape that it was given. -/
theorem shape_tabulate (hh : 0 < height) (f : Nat → Nat → Scalar M) :
    (tabulate height width f).shape = ⟨height, width⟩ := by
  rw [shape, height_tabulate, width_tabulate hh _ _]

/-- Matrices are equal when they have one shape and their cells are equal. -/
theorem equal_iff : m.equal n = true ↔
    m.shape = n.shape ∧ ∀ i < m.height, ∀ j < m.width, (m.cell i j).equal (n.cell i j) = true := by
  simp only [equal, Bool.and_eq_true, decide_eq_true_eq, List.all_eq_true, List.mem_range]

/-- Tabulated matrices of one shape are equal when the cells that they were given are. -/
theorem equal_tabulate (hh : 0 < height)
    (h : ∀ i < height, ∀ j < width, (f i j).equal (g i j) = true) :
    (tabulate height width f).equal (tabulate height width g) = true := by
  rw [equal_iff, shape_tabulate hh, shape_tabulate hh, height_tabulate, width_tabulate hh]
  refine ⟨rfl, fun i hi j hj => ?_⟩
  rw [cell_tabulate f hi hj, cell_tabulate g hi hj]
  exact h i hi j hj

/-- Outside of a full rectangle there is nothing but zero. -/
theorem Canonical.cell_outside (hm : m.Canonical) (h : ¬(i < m.height ∧ j < m.width)) :
    m.cell i j = .zero := by
  unfold cell cell?
  cases hrow : m.rows[i]? with
  | none => rfl
  | some row =>
    obtain ⟨hi, -⟩ := List.getElem?_eq_some_iff.mp hrow
    have hlength := hm.row_length row (List.mem_of_getElem? hrow)
    have hj : ¬j < m.width := fun hj => h ⟨hi, hj⟩
    have hnone : row[j]? = none := List.getElem?_eq_none (by omega)
    rw [Option.bind_some, hnone]
    rfl

end Matrix

/-- The scalar is a sum of terms and not a fraction. -/
def Scalar.IsSum : Scalar M → Prop
  | .poly _ => True
  | .fraction _ => False

/-- A canonical matrix whose cells are sums of terms. -/
structure Matrix.OfSums (m : Matrix M) : Prop extends m.Canonical where
  /-- No cell is a fraction. -/
  sums : ∀ row ∈ m.rows, ∀ s ∈ row, s.IsSum

/-- Every cell of such a matrix is a sum of terms. -/
theorem Matrix.OfSums.cell {m : Matrix M} (hm : m.OfSums) (i j : Nat) : (m.cell i j).IsSum := by
  unfold Matrix.cell Matrix.cell?
  cases hrow : m.rows[i]? with
  | none => trivial
  | some row =>
    have hmem := List.mem_of_getElem? hrow
    cases hcell : row[j]? with
    | none =>
      rw [Option.bind_some, hcell]
      trivial
    | some s =>
      rw [Option.bind_some, hcell]
      exact hm.sums row hmem s (List.mem_of_getElem? hcell)

/-- A tabulated matrix is one of sums if it is given canonical sums. -/
theorem Matrix.tabulate_ofSums {height width : Nat} {f : Nat → Nat → Scalar M} (hh : 0 < height)
    (hw : 0 < width) (hf : ∀ i j, (f i j).Canonical ∧ (f i j).IsSum) :
    (tabulate height width f).OfSums := by
  refine ⟨tabulate_canonical hh hw fun i j => (hf i j).1, fun row hrow s hs => ?_⟩
  obtain ⟨i, _, rfl⟩ := List.mem_map.mp hrow
  obtain ⟨j, _, rfl⟩ := List.mem_map.mp hs
  exact (hf i j).2

namespace Reading

variable (r : Reading) {s t : Scalar ℚ}

/-- What a sum of terms is read as. A fraction has no reading and counts as zero. -/
noncomputable def scalar : Scalar ℚ → r.Ring
  | .poly p => r.sum p
  | .fraction _ => 0

/-- Zero is read as zero. -/
theorem scalar_zero : r.scalar .zero = 0 := r.term_eq_zero (t := .zero) rfl

/-- The sum of two sums of terms. -/
theorem scalar_add (hs : s.IsSum) (ht : t.IsSum) :
    (s.add t).IsSum ∧ r.scalar (s.add t) = r.scalar s + r.scalar t := by
  cases s with
  | fraction f => exact hs.elim
  | poly p =>
    cases t with
    | fraction g => exact ht.elim
    | poly q => exact ⟨trivial, r.sum_add p q⟩

/-- The product of two sums of terms. -/
theorem scalar_mul (hs : s.IsSum) (ht : t.IsSum) :
    (s.mul t).IsSum ∧ r.scalar (s.mul t) = r.scalar s * r.scalar t := by
  cases s with
  | fraction f => exact hs.elim
  | poly p =>
    cases t with
    | fraction g => exact ht.elim
    | poly q => exact ⟨trivial, r.sum_mul p q⟩

/-- The product of a row and a column is read as the sum of the products of their cells. -/
theorem scalar_dot {m n : Matrix ℚ} (hm : m.OfSums) (hn : n.OfSums) (i j : Nat) :
    (m.dot n i j).IsSum ∧ r.scalar (m.dot n i j) =
      ∑ k ∈ Finset.range m.width, r.scalar (m.cell i k) * r.scalar (n.cell k j) := by
  unfold Matrix.dot
  induction m.width with
  | zero => exact ⟨trivial, r.scalar_zero⟩
  | succ width ih =>
    obtain ⟨hsum, hread⟩ := ih
    obtain ⟨hterm, hmul⟩ := r.scalar_mul (hm.cell i width) (hn.cell width j)
    obtain ⟨hnext, hadd⟩ := r.scalar_add hsum hterm
    rw [List.range_succ, List.foldl_append, Finset.sum_range_succ, ← hread, ← hmul]
    exact ⟨hnext, hadd⟩

end Reading

/-- Canonical sums of terms that are read as the same in every ring of formal sums are equal. -/
theorem Scalar.equal_of_scalar_eq {s t : Scalar ℚ} (hs : s.Canonical) (ht : t.Canonical)
    (hs' : s.IsSum) (ht' : t.IsSum) (h : ∀ r : Reading, r.scalar s = r.scalar t) :
    s.equal t = true := by
  cases s with
  | fraction f => exact hs'.elim
  | poly p =>
    cases t with
    | fraction g => exact ht'.elim
    | poly q => exact Poly.equal_of_sum_eq hs ht h

namespace Matrix

/-- The matrix of the products of the rows of one matrix and the columns of another. -/
def product (m n : Matrix M) : Matrix M := tabulate m.height n.width (m.dot n)

/-- Matrices whose shapes fit have a product. -/
theorem mul_eq_ok {m n : Matrix M} (h : m.width = n.height) : m.mul n = .ok (m.product n) :=
  if_pos h

section

variable {m n : Matrix M} {i j : Nat}

/-- The number of rows of a product. -/
@[simp] theorem height_product (m n : Matrix M) : (m.product n).height = m.height :=
  height_tabulate _ _ _

/-- The number of columns of a product. -/
theorem Canonical.width_product (hm : m.Canonical) (n : Matrix M) :
    (m.product n).width = n.width :=
  width_tabulate hm.height_pos _ _

/-- The cells of a product. -/
theorem cell_product (hi : i < m.height) (hj : j < n.width) :
    (m.product n).cell i j = m.dot n i j :=
  cell_tabulate _ hi hj

/-- The number of rows of a tensor product. -/
@[simp] theorem height_tensor (m n : Matrix M) : (m.tensor n).height = m.height * n.height :=
  height_tabulate _ _ _

/-- The number of columns of a tensor product. -/
theorem Canonical.width_tensor (hm : m.Canonical) (hn : n.Canonical) :
    (m.tensor n).width = m.width * n.width :=
  width_tabulate (Nat.mul_pos hm.height_pos hn.height_pos) _ _

/-- The cells of a tensor product. -/
theorem cell_tensor (hi : i < m.height * n.height) (hj : j < m.width * n.width) :
    (m.tensor n).cell i j =
      (m.cell (i / n.height) (j / n.width)).mul (n.cell (i % n.height) (j % n.width)) :=
  cell_tabulate _ hi hj

end

variable {m n : Matrix ℚ}

/-- The tensor product of matrices of sums is one. -/
theorem OfSums.tensor (hm : m.OfSums) (hn : n.OfSums) : (m.tensor n).OfSums :=
  tabulate_ofSums (Nat.mul_pos hm.height_pos hn.height_pos)
    (Nat.mul_pos hm.width_pos hn.width_pos) fun _ _ =>
      ⟨Scalar.mul_canonical (cell_canonical hm.toCanonical _ _) (cell_canonical hn.toCanonical _ _),
        ((Reading.stage 0).scalar_mul (hm.cell _ _) (hn.cell _ _)).1⟩

/-- The product of matrices of sums is one. -/
theorem OfSums.product (hm : m.OfSums) (hn : n.OfSums) : (m.product n).OfSums :=
  tabulate_ofSums hm.height_pos hn.width_pos fun i j =>
    ⟨dot_canonical hm.toCanonical hn.toCanonical i j, ((Reading.stage 0).scalar_dot hm hn i j).1⟩

end Matrix

end SymCalc
