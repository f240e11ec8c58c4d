import Mathlib
import SymCalc.Proofs.MatrixLaws

/-!
# When operators return

Of the operands an arithmetic operator looks at their form: a scalar, a matrix of a shape, or
neither. Main statement: addition, subtraction, multiplication and the tensor product return exactly
when the forms fit, whatever the cells are, and then the form of the result is known; otherwise they
fail with a fault that names the mismatch. No cell outside of the operands is read on the way.
-/

namespace SymCalc

/-- What arithmetic operators see of a value. -/
inductive Form where
  /-- A scalar. -/
  | scalar
  /-- A matrix of a shape. -/
  | matrix (shape : Shape)
  /-- Neither. -/
  | other
  deriving DecidableEq, Repr

/-- The form of the result of an arithmetic operator, if the forms of the operands fit. -/
def Form.result : BinaryOp → Form → Form → Option Form
  | .add, .scalar, .scalar => some .scalar
  | .add, .matrix p, .matrix q => if p = q then some (.matrix p) else none
  | .sub, .scalar, .scalar => some .scalar
  | .sub, .matrix p, .matrix q => if p = q then some (.matrix p) else none
  | .mul, .scalar, .scalar => some .scalar
  | .mul, .scalar, .matrix q => some (.matrix q)
  | .mul, .matrix p, .scalar => some (.matrix p)
  | .mul, .matrix p, .matrix q =>
    if p.cols = q.rows then some (.matrix ⟨p.rows, q.cols⟩) else none
  | .tensor, .matrix p, .matrix q => some (.matrix ⟨p.rows * q.rows, p.cols * q.cols⟩)
  | _, _, _ => none

variable {M : Type}

/-- The form of a value. -/
def Value.form : Value M → Form
  | .scalar _ => .scalar
  | .matrix m => .matrix m.shape
  | _ => .other

/-- A fault that names what does not fit: the kinds of the operands, or their shapes. -/
inductive Fault.NamesMismatch (symbol : Text) (u v : Value M) : Fault → Prop where
  /-- The operator has no meaning for the kinds, which are not both matrices. -/
  | kinds (ne : ¬∃ p q, u.form = .matrix p ∧ v.form = .matrix q) :
      NamesMismatch symbol u v (.binaryOperands symbol u.kind v.kind)
  /-- Matrices to be added have different shapes. -/
  | sum {p q : Shape} (left : u.form = .matrix p) (right : v.form = .matrix q) (ne : p ≠ q) :
      NamesMismatch symbol u v (.shapeMismatch p q)
  /-- The rows of the left factor are not as long as the columns of the right one. -/
  | product {p q : Shape} (left : u.form = .matrix p) (right : v.form = .matrix q)
      (ne : p.cols ≠ q.rows) : NamesMismatch symbol u v (.productMismatch p q)

namespace Value

variable {u v : Value M}

/-- How an arithmetic operator ends: with a rectangular value of the form that the forms of the
operands give, or, when they do not fit, with a fault that names the mismatch. -/
inductive Ends (op : BinaryOp) (u v : Value M) : Except Fault (Value M) → Prop where
  /-- It returns. -/
  | ok {w : Value M} (form : Form.result op u.form v.form = some w.form)
      (rectangular : w.Rectangular) : Ends op u v (.ok w)
  /-- It fails. -/
  | error {fault : Fault} (form : Form.result op u.form v.form = none)
      (names : fault.NamesMismatch op.symbol u v) : Ends op u v (.error fault)

/-- An operator returns exactly when the forms fit. -/
theorem Ends.ok_iff {op : BinaryOp} {x : Except Fault (Value M)} (h : Ends op u v x) :
    (∃ w, x = .ok w) ↔ ∃ f, Form.result op u.form v.form = some f := by
  cases h with
  | ok form rectangular => exact ⟨fun _ => ⟨_, form⟩, fun _ => ⟨_, rfl⟩⟩
  | error form names => simp [form]

/-- What an operator returns has the form that the forms of the operands give. -/
theorem Ends.result {op : BinaryOp} {w : Value M} (h : Ends op u v (.ok w)) :
    Form.result op u.form v.form = some w.form ∧ w.Rectangular := by
  cases h with
  | ok form rectangular => exact ⟨form, rectangular⟩

/-- An operator that does not return fails with a fault that names the mismatch. -/
theorem Ends.fault {op : BinaryOp} {x : Except Fault (Value M)} (h : Ends op u v x)
    (hx : ¬∃ w, x = .ok w) : ∃ fault, x = .error fault ∧ fault.NamesMismatch op.symbol u v := by
  cases h with
  | ok form rectangular => exact absurd ⟨_, rfl⟩ hx
  | error form names => exact ⟨_, rfl, names⟩

end Value

variable [Magnitude M]

namespace Matrix

variable {m n : Matrix M}

/-- The sum of full rectangles is one. -/
theorem Full.sum (hm : m.Full) (n : Matrix M) : (m.sum n).Full :=
  tabulate_full hm.height_pos hm.width_pos _

/-- The product of full rectangles is one. -/
theorem Full.product (hm : m.Full) (hn : n.Full) : (m.product n).Full :=
  tabulate_full hm.height_pos hn.width_pos _

/-- The shape of a tensor product. -/
theorem Full.shape_tensor (hm : m.Full) (hn : n.Full) :
    (m.tensor n).shape = ⟨m.height * n.height, m.width * n.width⟩ :=
  shape_tabulate (Nat.mul_pos hm.height_pos hn.height_pos) _

/-- The cell of a tensor product within a block is the product of the cell that the block belongs
to and of the cell at that place of the right factor. -/
theorem Full.cell?_tensor (hm : m.Full) (hn : n.Full) {i j k l : Nat} (hi : i < m.height)
    (hj : j < m.width) (hk : k < n.height) (hl : l < n.width) :
    (m.tensor n).cell? (i * n.height + k) (j * n.width + l) =
      some ((m.cell i j).mul (n.cell k l)) := by
  have hplace {count size block place : Nat} (hblock : block < count) (hin : place < size) :
      block * size + place < count * size ∧ (block * size + place) / size = block ∧
        (block * size + place) % size = place := by
    refine ⟨?_, ?_, Nat.mul_add_mod_of_lt hin⟩
    · calc block * size + place < (block + 1) * size := by rw [Nat.succ_mul]; omega
        _ ≤ count * size := Nat.mul_le_mul_right size hblock
    · rw [Nat.mul_comm, Nat.mul_add_div (by omega), Nat.div_eq_of_lt hin, Nat.add_zero]
  obtain ⟨hrow, hi', hk'⟩ := hplace hi hk
  obtain ⟨hcolumn, hj', hl'⟩ := hplace hj hl
  have hshape := hm.shape_tensor hn
  have hheight : (m.tensor n).height = m.height * n.height := congrArg Shape.rows hshape
  have hwidth : (m.tensor n).width = m.width * n.width := congrArg Shape.cols hshape
  rw [(hm.tensor hn).cell?_eq_some (hheight ▸ hrow) (hwidth ▸ hcolumn), cell_tensor hrow hcolumn,
    hi', hk', hj', hl']

end Matrix

namespace Value

variable {u v : Value M}

/-- A sum of matrices ends well when the shapes are the same. -/
theorem Ends.of_add {op : BinaryOp} (hop : op = .add ∨ op = .sub) {m n k : Matrix M} (hm : m.Full)
    (hk : k.shape = n.shape) : Ends op (.matrix m) (.matrix n) ((m.add k).map .matrix) := by
  have hresult : Form.result op (.matrix m.shape) (.matrix n.shape) =
      if m.shape = n.shape then some (.matrix m.shape) else none := by
    rcases hop with rfl | rfl <;> rfl
  by_cases hshape : m.shape = n.shape
  · rw [Matrix.add_eq_ok (hshape.trans hk.symm)]
    refine .ok ?_ (hm.sum k)
    rw [form, form, form, hresult, if_pos hshape, hm.shape_sum]
  · have hne : ¬m.shape = k.shape := fun h => hshape (h.trans hk)
    rw [Matrix.add, if_neg hne, hk]
    refine .error ?_ (.sum rfl rfl hshape)
    rw [form, form, hresult, if_neg hshape]

/-- A product of matrices ends well when the rows and the columns fit. -/
theorem Ends.of_mul {m n : Matrix M} (hm : m.Full) (hn : n.Full) :
    Ends .mul (.matrix m) (.matrix n) ((m.mul n).map .matrix) := by
  by_cases hfit : m.width = n.height
  · rw [Matrix.mul_eq_ok hfit]
    refine .ok ?_ (hm.product hn)
    rw [form, form, form, Form.result, hm.shape_product]
    exact if_pos hfit
  · rw [Matrix.mul, if_neg hfit]
    refine .error ?_ (.product rfl rfl hfit)
    rw [form, form, Form.result]
    exact if_neg hfit

/-- Every arithmetic operator, applied to rectangular values, ends as their forms say. -/
theorem Rectangular.ends (hu : u.Rectangular) (hv : v.Rectangular) {op : BinaryOp}
    (hop : op ∈ [BinaryOp.add, .sub, .mul, .tensor]) : Ends op u v (operate op u v) := by
  -- Only scalars and matrices are operands, and of these only some pairs.
  cases u with
  | scalar s =>
    cases v with
    | scalar t =>
      fin_cases hop
      · exact .ok rfl trivial
      · exact .ok rfl trivial
      · exact .ok rfl trivial
      · exact .error rfl (.kinds (by simp [form]))
    | matrix n =>
      fin_cases hop
      · exact .error rfl (.kinds (by simp [form]))
      · exact .error rfl (.kinds (by simp [form]))
      · exact .ok (congrArg (some ∘ Form.matrix) (hv.full.shape_scale s).symm) (hv.full.scale s)
      · exact .error rfl (.kinds (by simp [form]))
    | _ => fin_cases hop <;> exact .error rfl (.kinds (by simp [form]))
  | matrix m =>
    cases v with
    | scalar t =>
      fin_cases hop
      · exact .error rfl (.kinds (by simp [form]))
      · exact .error rfl (.kinds (by simp [form]))
      · exact .ok (congrArg (some ∘ Form.matrix) (hu.full.shape_scale t).symm) (hu.full.scale t)
      · exact .error rfl (.kinds (by simp [form]))
    | matrix n =>
      fin_cases hop
      · exact .of_add (.inl rfl) hu.full rfl
      · exact .of_add (.inr rfl) hu.full (hv.full.shape_scale _)
      · exact .of_mul hu.full hv.full
      · exact .ok (congrArg (some ∘ Form.matrix) (hu.full.shape_tensor hv.full).symm)
          (hu.full.tensor hv.full)
    | _ => fin_cases hop <;> exact .error rfl (.kinds (by simp [form]))
  | _ => fin_cases hop <;> exact .error rfl (.kinds (by simp [form]))

/-- The symbol of an arithmetic operator, applied to rectangular values, ends as their forms say. -/
theorem Rectangular.binary_ends (hu : u.Rectangular) (hv : v.Rectangular) {op : BinaryOp}
    (hop : op ∈ [BinaryOp.add, .sub, .mul, .tensor]) : Ends op u v (u.binary op.symbol v) := by
  rw [binary, BinaryOp.ofSymbol?_symbol]
  exact hu.ends hv hop

end Value

namespace Form

variable {f g h : Form}

/-- Sums are of two scalars or of two matrices of one shape, and have the form of the operands. -/
theorem result_sum {op : BinaryOp} (hop : op = .add ∨ op = .sub) :
    result op f g = some h ↔
      ((f = .scalar ∧ g = .scalar) ∨ ∃ p, f = .matrix p ∧ g = .matrix p) ∧ h = f := by
  rcases hop with rfl | rfl <;> cases f <;> cases g <;> simp [result, eq_comm]

/-- Products are of scalars and matrices; of two matrices when the rows and columns fit. -/
theorem result_mul : result .mul f g = some h ↔
    (f = .scalar ∧ g ≠ .other ∧ h = g) ∨ (g = .scalar ∧ f ≠ .other ∧ h = f) ∨
      ∃ p q, f = .matrix p ∧ g = .matrix q ∧ p.cols = q.rows ∧ h = .matrix ⟨p.rows, q.cols⟩ := by
  cases f <;> cases g <;> simp [result, eq_comm]

/-- Tensor products are of two matrices. -/
theorem result_tensor : result .tensor f g = some h ↔ ∃ p q, f = .matrix p ∧ g = .matrix q ∧
    h = .matrix ⟨p.rows * q.rows, p.cols * q.cols⟩ := by
  cases f <;> cases g <;> simp [result, eq_comm]

end Form

/-- Arithmetic operators fail exactly on mismatches. For all values whose matrices are full
rectangles, with cells of any kind: sums and differences return exactly for two scalars or two
matrices of one shape, and have the form of the operands; products return exactly when each operand
is a scalar or a matrix and, for two matrices, the rows of the left are as long as the columns of
the right, with the form of the other operand beside a scalar; tensor products return exactly for
two matrices, with the products of the cells in blocks. What they return is a full rectangle if it
is a matrix. Otherwise they fail with a fault that names the mismatch, and in no case is a cell read
that does not exist. -/
theorem operators_fail_exactly_on_mismatches (u v : Value M) (hu : u.Rectangular)
    (hv : v.Rectangular) :
    (∀ symbol ∈ (["+", "-"] : List Text),
      ((∃ w, u.binary symbol v = .ok w) ↔ (u.form = .scalar ∧ v.form = .scalar) ∨
        ∃ p, u.form = .matrix p ∧ v.form = .matrix p) ∧
      ∀ w, u.binary symbol v = .ok w → w.form = u.form ∧ w.Rectangular) ∧
    ((∃ w, u.binary "*" v = .ok w) ↔ u.form ≠ .other ∧ v.form ≠ .other ∧
      ∀ p q, u.form = .matrix p → v.form = .matrix q → p.cols = q.rows) ∧
    (∀ w, u.binary "*" v = .ok w → w.Rectangular ∧
      (u.form = .scalar → w.form = v.form) ∧ (v.form = .scalar → w.form = u.form) ∧
      ∀ p q, u.form = .matrix p → v.form = .matrix q → w.form = .matrix ⟨p.rows, q.cols⟩) ∧
    ((∃ w, u.binary "*!" v = .ok w) ↔ ∃ p q, u.form = .matrix p ∧ v.form = .matrix q) ∧
    (∀ m n, u = .matrix m → v = .matrix n →
      ∃ r, u.binary "*!" v = .ok (.matrix r) ∧ r.Full ∧
        r.shape = ⟨m.height * n.height, m.width * n.width⟩ ∧
        ∀ i < m.height, ∀ j < m.width, ∀ k < n.height, ∀ l < n.width,
          ∃ x y, m.cell? i j = some x ∧ n.cell? k l = some y ∧
            r.cell? (i * n.height + k) (j * n.width + l) = some (x.mul y)) ∧
    ∀ symbol ∈ (["+", "-", "*", "*!"] : List Text),
      u.binary? symbol v = some (u.binary symbol v) ∧
      ((¬∃ w, u.binary symbol v = .ok w) →
        ∃ fault, u.binary symbol v = .error fault ∧ fault.NamesMismatch symbol u v) := by
  have hends {op : BinaryOp} (hop : op ∈ [BinaryOp.add, .sub, .mul, .tensor]) :
      Value.Ends op u v (u.binary op.symbol v) := hu.binary_ends hv hop
  have hmul : Value.Ends .mul u v (u.binary "*" v) := hends (by simp)
  have htensor : Value.Ends .tensor u v (u.binary "*!" v) := hends (by simp)
  refine ⟨fun symbol hsymbol => ?_, ?_, fun w hw => ?_, ?_, ?_, fun symbol hsymbol => ?_⟩
  · obtain ⟨op, hop, rfl⟩ : ∃ op, (op = .add ∨ op = .sub) ∧ BinaryOp.symbol op = symbol := by
      fin_cases hsymbol
      · exact ⟨.add, .inl rfl, rfl⟩
      · exact ⟨.sub, .inr rfl, rfl⟩
    have hmem : op ∈ [BinaryOp.add, .sub, .mul, .tensor] := by rcases hop with rfl | rfl <;> simp
    have hsum := hends hmem
    rw [hsum.ok_iff]
    simp only [Form.result_sum hop]
    refine ⟨by simp, fun w hw => ?_⟩
    rw [hw] at hsum
    exact ⟨((Form.result_sum hop).mp hsum.result.1).2, hsum.result.2⟩
  · rw [hmul.ok_iff]
    simp only [Form.result_mul]
    cases u.form <;> cases v.form <;> simp
  · rw [hw] at hmul
    obtain ⟨hform, hrectangular⟩ := hmul.result
    rw [Form.result_mul] at hform
    refine ⟨hrectangular, ?_⟩
    rcases hform with ⟨hf, -, hw⟩ | ⟨hg, -, hw⟩ | ⟨p, q, hf, hg, -, hw⟩
    · exact ⟨fun _ => hw, fun hg => hw.trans (hg.trans hf.symm), by simp [hf]⟩
    · exact ⟨fun hf => hw.trans (hf.trans hg.symm), fun _ => hw, by simp [hg]⟩
    · simp [hf, hg, hw]
  · rw [htensor.ok_iff]
    simp only [Form.result_tensor]
    cases u.form <;> cases v.form <;> simp
  · rintro m n rfl rfl
    refine ⟨m.tensor n, rfl, hu.full.tensor hv.full, hu.full.shape_tensor hv.full, ?_⟩
    intro i hi j hj k hk l hl
    exact ⟨m.cell i j, n.cell k l, hu.full.cell?_eq_some hi hj, hv.full.cell?_eq_some hk hl,
      hu.full.cell?_tensor hv.full hi hj hk hl⟩
  · obtain ⟨op, hop, rfl⟩ : ∃ op ∈ [BinaryOp.add, .sub, .mul, .tensor], op.symbol = symbol := by
      fin_cases hsymbol
      · exact ⟨.add, by simp, rfl⟩
      · exact ⟨.sub, by simp, rfl⟩
      · exact ⟨.mul, by simp, rfl⟩
      · exact ⟨.tensor, by simp, rfl⟩
    refine ⟨?_, (hends hop).fault⟩
    rw [Value.binary?, Value.binary, BinaryOp.ofSymbol?_symbol]
    exact hu.operate?_eq_some op hv

/-- A row and a column, with a fraction and a sum of two terms among their cells, cannot be added,
have a product with one cell, and a tensor product whose last cell is the product of the last
cells. -/
theorem row_and_column_fit_in_products :
    let x : Poly ℚ := .term (.named "x")
    let fraction : Scalar ℚ := .fraction ⟨x, x.add (.term .one)⟩
    let u : Value ℚ := .matrix ⟨[[fraction, .poly x]]⟩
    let v : Value ℚ := .matrix ⟨[[.poly (x.add (.term .one))], [fraction]]⟩
    u.Rectangular ∧ v.Rectangular ∧
    (∃ fault, u.binary "+" v = .error fault ∧ fault.NamesMismatch "+" u v) ∧
    (∃ w, u.binary "*" v = .ok w ∧ w.Rectangular ∧ w.form = .matrix ⟨1, 1⟩) ∧
    ∃ r, u.binary "*!" v = .ok (.matrix r) ∧ r.shape = ⟨2, 2⟩ ∧
      r.cell? 1 1 = some ((Scalar.poly x).mul fraction) := by
  intro x fraction u v
  have hu : u.Rectangular := ⟨by decide, by decide, by simp [Matrix.width]⟩
  have hv : v.Rectangular := ⟨by decide, by decide, by simp [Matrix.width]⟩
  obtain ⟨hsum, hmul, hproduct, -, htensor, hfault⟩ :=
    operators_fail_exactly_on_mismatches u v hu hv
  have hnot : ¬∃ w, u.binary "+" v = .ok w := by
    rw [(hsum "+" (by simp)).1]
    rintro (⟨hscalar, -⟩ | ⟨p, hp, hq⟩)
    · cases hscalar
    · cases hp
      cases hq
  obtain ⟨w, hw⟩ := hmul.mpr ⟨by decide, by decide, fun p q hp hq => by cases hp; cases hq; rfl⟩
  obtain ⟨hrectangular, -, -, hform⟩ := hproduct w hw
  obtain ⟨r, hr, -, hshape, hcells⟩ := htensor _ _ rfl rfl
  obtain ⟨y, z, hy, hz, hcell⟩ := hcells 0 (by decide) 1 (by decide) 1 (by decide) 0 (by decide)
  cases hy
  cases hz
  exact ⟨hu, hv, (hfault "+" (by simp)).2 hnot, ⟨w, hw, hrectangular, hform _ _ rfl rfl⟩,
    r, hr, hshape, hcell⟩

end SymCalc
