import Mathlib
import SymCalc.Proofs.MixedProduct

/-!
# The laws of matrix products

A cell of a product, a sum, a multiple or a transpose is read as a sum of products, a sum, a product
or a cell of what it was made from, and outside of a matrix everything is read as zero. Main
statement: over exact magnitudes the product of matrices of sums of terms is associative,
distributes over sums, takes scalars in and out of each factor and is turned around by
transposition, for all shapes that fit; and transposing twice changes nothing.
-/

namespace SymCalc

namespace Matrix

section

variable {M : Type} [Magnitude M] {m n : Matrix M} {height width : Nat}

omit [Magnitude M] in
/-- Tabulated matrices are the same when they were given the same cells. -/
theorem tabulate_congr {f g : Nat → Nat → Scalar M}
    (h : ∀ i < height, ∀ j < width, f i j = g i j) :
    tabulate height width f = tabulate height width g := by
  refine congrArg Matrix.mk (List.map_congr_left fun i hi => List.map_congr_left fun j hj => ?_)
  exact h i (List.mem_range.mp hi) j (List.mem_range.mp hj)

/-- A full rectangle is the matrix of its cells. -/
theorem Full.tabulate_cell (hm : m.Full) : tabulate m.height m.width m.cell = m := by
  obtain ⟨rows⟩ := m
  refine congrArg Matrix.mk (List.ext_getElem (by simp [Matrix.height]) fun i hi hi' => ?_)
  have hrow := hm.row_length rows[i] (List.getElem_mem hi')
  refine List.ext_getElem (by simpa using hrow.symm) fun j hj hj' => ?_
  simp [cell, cell?, hi', hj']

/-- The matrix of the sums of the cells of two matrices. -/
def sum (m n : Matrix M) : Matrix M :=
  tabulate m.height m.width fun i j => (m.cell i j).add (n.cell i j)

/-- Matrices of one shape have a sum. -/
theorem add_eq_ok (h : m.shape = n.shape) : m.add n = .ok (m.sum n) := if_pos h

/-- The shape of a product. -/
theorem Full.shape_product (hm : m.Full) (n : Matrix M) :
    (m.product n).shape = ⟨m.height, n.width⟩ :=
  shape_tabulate hm.height_pos _

/-- A sum has the shape of the left summand. -/
theorem Full.shape_sum (hm : m.Full) (n : Matrix M) : (m.sum n).shape = m.shape :=
  shape_tabulate hm.height_pos _

/-- A multiple has the shape of the matrix. -/
theorem Full.shape_scale (hm : m.Full) (s : Scalar M) : (m.scale s).shape = m.shape :=
  shape_tabulate hm.height_pos _

/-- The transpose has as many rows as the matrix has columns, and the other way round. -/
theorem Full.shape_transpose (hm : m.Full) : m.transpose.shape = ⟨m.width, m.height⟩ :=
  shape_tabulate hm.width_pos _

/-- Transposing twice changes nothing. -/
theorem Full.transpose_transpose (hm : m.Full) : m.transpose.transpose = m := by
  have hshape := hm.shape_transpose
  have hheight : m.transpose.height = m.width := congrArg Shape.rows hshape
  have hwidth : m.transpose.width = m.height := congrArg Shape.cols hshape
  calc m.transpose.transpose
      = tabulate m.height m.width fun i j => m.transpose.cell j i := by
        rw [Matrix.transpose, hheight, hwidth]
    _ = tabulate m.height m.width m.cell :=
        tabulate_congr fun i hi j hj => cell_tabulate _ hj hi
    _ = m := hm.tabulate_cell

/-- The cells of the transpose are those of the matrix with row and column exchanged. -/
theorem Canonical.cell_transpose (hm : m.Canonical) (i j : Nat) :
    m.transpose.cell i j = m.cell j i := by
  by_cases h : i < m.width ∧ j < m.height
  · exact cell_tabulate _ h.1 h.2
  · rw [hm.cell_outside (by tauto), (transpose_canonical hm).cell_outside]
    have hshape := hm.toFull.shape_transpose
    rwa [show m.transpose.height = m.width from congrArg Shape.rows hshape,
      show m.transpose.width = m.height from congrArg Shape.cols hshape]

end

variable {m n : Matrix ℚ} {s : Scalar ℚ}

/-- The transpose of a matrix of sums is one. -/
theorem OfSums.transpose (hm : m.OfSums) : m.transpose.OfSums :=
  tabulate_ofSums hm.width_pos hm.height_pos fun i j =>
    ⟨cell_canonical hm.toCanonical j i, hm.cell j i⟩

/-- The sum of matrices of sums is one. -/
theorem OfSums.sum (hm : m.OfSums) (hn : n.OfSums) : (m.sum n).OfSums :=
  tabulate_ofSums hm.height_pos hm.width_pos fun i j =>
    ⟨Scalar.add_canonical (cell_canonical hm.toCanonical i j) (cell_canonical hn.toCanonical i j),
      ((Reading.stage 0).scalar_add (hm.cell i j) (hn.cell i j)).1⟩

/-- A multiple of a matrix of sums by a sum is one. -/
theorem OfSums.scale (hm : m.OfSums) (hs : s.Canonical) (hs' : s.IsSum) : (m.scale s).OfSums :=
  tabulate_ofSums hm.height_pos hm.width_pos fun i j =>
    ⟨Scalar.mul_canonical hs (cell_canonical hm.toCanonical i j),
      ((Reading.stage 0).scalar_mul hs' (hm.cell i j)).1⟩

/-- Matrices of sums are equal when they have one shape and their cells are read as the same. -/
theorem OfSums.equal_of_read (hm : m.OfSums) (hn : n.OfSums) (hshape : m.shape = n.shape)
    (h : ∀ (r : Reading) (i j : Nat), r.scalar (m.cell i j) = r.scalar (n.cell i j)) :
    (Value.matrix m).equal (.matrix n) = true := by
  rw [Value.equal, equal_iff]
  refine ⟨hshape, fun i _ j _ => ?_⟩
  exact Scalar.equal_of_scalar_eq (cell_canonical hm.toCanonical i j)
    (cell_canonical hn.toCanonical i j) (hm.cell i j) (hn.cell i j) fun r => h r i j

end Matrix

namespace Reading

variable (r : Reading) {a b : Matrix ℚ} {s : Scalar ℚ}

/-- Outside of the shape of a matrix everything is read as zero. -/
theorem cell_outside (ha : a.Canonical) {height width i j : Nat}
    (hshape : a.shape = ⟨height, width⟩) (h : ¬(i < height ∧ j < width)) :
    r.scalar (a.cell i j) = 0 := by
  obtain ⟨rfl, rfl⟩ := Shape.mk.inj hshape
  rw [ha.cell_outside h, r.scalar_zero]

/-- A cell of a product is read as the sum of the products of a row and a column, also outside of
the matrix. -/
theorem cell_product (ha : a.OfSums) (hb : b.OfSums) (i j : Nat) :
    r.scalar ((a.product b).cell i j) =
      ∑ k ∈ Finset.range a.width, r.scalar (a.cell i k) * r.scalar (b.cell k j) := by
  by_cases h : i < a.height ∧ j < b.width
  · rw [Matrix.cell_product h.1 h.2, (r.scalar_dot ha hb i j).2]
  · rw [r.cell_outside (ha.product hb).toCanonical (ha.toFull.shape_product b) h,
      Finset.sum_eq_zero]
    intro k _
    rcases not_and_or.mp h with hi | hj
    · rw [r.cell_outside ha.toCanonical rfl fun hin => hi hin.1, zero_mul]
    · rw [r.cell_outside hb.toCanonical rfl fun hin => hj hin.2, mul_zero]

/-- A cell of a sum is read as the sum of the cells. -/
theorem cell_sum (ha : a.OfSums) (hb : b.OfSums) (hshape : a.shape = b.shape) (i j : Nat) :
    r.scalar ((a.sum b).cell i j) = r.scalar (a.cell i j) + r.scalar (b.cell i j) := by
  by_cases h : i < a.height ∧ j < a.width
  · rw [Matrix.sum, Matrix.cell_tabulate _ h.1 h.2, (r.scalar_add (ha.cell i j) (hb.cell i j)).2]
  · rw [r.cell_outside (ha.sum hb).toCanonical (ha.toFull.shape_sum b) h,
      r.cell_outside ha.toCanonical rfl h, r.cell_outside hb.toCanonical hshape.symm h, add_zero]

/-- A cell of a multiple is read as the product of the scalar and the cell. -/
theorem cell_scale (ha : a.OfSums) (hs : s.Canonical) (hs' : s.IsSum) (i j : Nat) :
    r.scalar ((a.scale s).cell i j) = r.scalar s * r.scalar (a.cell i j) := by
  by_cases h : i < a.height ∧ j < a.width
  · rw [Matrix.scale, Matrix.cell_tabulate _ h.1 h.2, (r.scalar_mul hs' (ha.cell i j)).2]
  · rw [r.cell_outside (ha.scale hs hs').toCanonical (ha.toFull.shape_scale s) h,
      r.cell_outside ha.toCanonical rfl h, mul_zero]

end Reading

namespace Matrix.OfSums

variable {a b c : Matrix ℚ} {s : Scalar ℚ}

/-- Products are associative. -/
theorem product_assoc (ha : a.OfSums) (hb : b.OfSums) (hc : c.OfSums) :
    (Value.matrix ((a.product b).product c)).equal (.matrix (a.product (b.product c))) = true := by
  have hab := ha.product hb
  have hbc := hb.product hc
  refine (hab.product hc).equal_of_read (ha.product hbc) ?_ fun r i j => ?_
  · rw [hab.toFull.shape_product, ha.toFull.shape_product, height_product, hb.width_product]
  · rw [r.cell_product hab hc, r.cell_product ha hbc, ha.width_product]
    simp only [r.cell_product ha hb, r.cell_product hb hc, Finset.sum_mul, Finset.mul_sum]
    rw [Finset.sum_comm]
    simp only [mul_assoc]

/-- A product distributes over the sum on its right. -/
theorem product_sum (ha : a.OfSums) (hb : b.OfSums) (hc : c.OfSums) (hshape : b.shape = c.shape) :
    (Value.matrix (a.product (b.sum c))).equal
      (.matrix ((a.product b).sum (a.product c))) = true := by
  have hab := ha.product hb
  have hac := ha.product hc
  have hwidth : b.width = c.width := congrArg Shape.cols hshape
  have hsame : (a.product b).shape = (a.product c).shape := by
    rw [ha.toFull.shape_product, ha.toFull.shape_product, hwidth]
  refine (ha.product (hb.sum hc)).equal_of_read (hab.sum hac) ?_ fun r i j => ?_
  · rw [hab.toFull.shape_sum, ha.toFull.shape_product, ha.toFull.shape_product]
    exact congrArg (Shape.mk a.height) (congrArg Shape.cols (hb.toFull.shape_sum c))
  · rw [r.cell_product ha (hb.sum hc), r.cell_sum hab hac hsame, r.cell_product ha hb,
      r.cell_product ha hc, ← Finset.sum_add_distrib]
    simp only [r.cell_sum hb hc hshape, mul_add]

/-- The transpose of a product is the product of the transposes in the other order. -/
theorem transpose_product (ha : a.OfSums) (hb : b.OfSums) (hfit : a.width = b.height) :
    (Value.matrix (a.product b).transpose).equal
      (.matrix (b.transpose.product a.transpose)) = true := by
  have hab := ha.product hb
  have hshape := hb.toFull.shape_transpose
  refine hab.transpose.equal_of_read (hb.transpose.product ha.transpose) ?_ fun r i j => ?_
  · rw [hab.toFull.shape_transpose, hb.transpose.toFull.shape_product, height_product,
      ha.width_product]
    exact congrArg₂ Shape.mk (congrArg Shape.rows hshape).symm
      (congrArg Shape.cols ha.toFull.shape_transpose).symm
  · have hwidth : b.transpose.width = b.height := congrArg Shape.cols hshape
    rw [hab.cell_transpose, r.cell_product ha hb, r.cell_product hb.transpose ha.transpose, hwidth,
      ← hfit]
    simp only [hb.cell_transpose, ha.cell_transpose, mul_comm]

/-- A scalar can be multiplied with a product or with either of its factors. -/
theorem scale_product (ha : a.OfSums) (hb : b.OfSums) (hs : s.Canonical) (hs' : s.IsSum) :
    (Value.matrix ((a.product b).scale s)).equal (.matrix ((a.scale s).product b)) = true ∧
      (Value.matrix ((a.scale s).product b)).equal (.matrix (a.product (b.scale s))) = true ∧
      (Value.matrix ((a.product b).scale s)).equal (.matrix (a.product (b.scale s))) = true := by
  have hab := ha.product hb
  have hsa := ha.scale hs hs'
  have hsb := hb.scale hs hs'
  have hshape := ha.toFull.shape_scale s
  have hleft : ((a.scale s).product b).shape = (a.product b).shape := by
    rw [hsa.toFull.shape_product, ha.toFull.shape_product]
    exact congrArg (Shape.mk · b.width) (congrArg Shape.rows hshape)
  have hright : (a.product (b.scale s)).shape = (a.product b).shape := by
    rw [ha.toFull.shape_product, ha.toFull.shape_product]
    exact congrArg (Shape.mk a.height) (congrArg Shape.cols (hb.toFull.shape_scale s))
  have hwhole := hab.toFull.shape_scale s
  -- All three are read as the scalar times the product.
  have hleft' : ∀ (r : Reading) (i j : Nat), r.scalar (((a.scale s).product b).cell i j) =
      r.scalar s * r.scalar ((a.product b).cell i j) := by
    intro r i j
    have hwidth : (a.scale s).width = a.width := congrArg Shape.cols hshape
    rw [r.cell_product ha hb, r.cell_product hsa hb, hwidth, Finset.mul_sum]
    simp only [r.cell_scale ha hs hs', mul_assoc]
  have hright' : ∀ (r : Reading) (i j : Nat), r.scalar ((a.product (b.scale s)).cell i j) =
      r.scalar s * r.scalar ((a.product b).cell i j) := by
    intro r i j
    rw [r.cell_product ha hb, r.cell_product ha hsb, Finset.mul_sum]
    simp only [r.cell_scale hb hs hs', mul_left_comm]
  have hwhole' : ∀ (r : Reading) (i j : Nat), r.scalar (((a.product b).scale s).cell i j) =
      r.scalar s * r.scalar ((a.product b).cell i j) := fun r => r.cell_scale hab hs hs'
  refine ⟨?_, ?_, ?_⟩
  · refine (hab.scale hs hs').equal_of_read (hsa.product hb) (hwhole.trans hleft.symm) ?_
    exact fun r i j => (hwhole' r i j).trans (hleft' r i j).symm
  · refine (hsa.product hb).equal_of_read (ha.product hsb) (hleft.trans hright.symm) ?_
    exact fun r i j => (hleft' r i j).trans (hright' r i j).symm
  · refine (hab.scale hs hs').equal_of_read (ha.product hsb) (hwhole.trans hright.symm) ?_
    exact fun r i j => (hwhole' r i j).trans (hright' r i j).symm

end Matrix.OfSums

/-- Two matrices of one shape have a sum. -/
theorem Value.binary_sum {a b : Matrix ℚ} (h : a.shape = b.shape) :
    (Value.matrix a).binary "+" (.matrix b) = .ok (.matrix (a.sum b)) := by
  change (a.add b).map Value.matrix = _
  rw [Matrix.add_eq_ok h]
  rfl

/-- Two calculations coincide when both return and what they return is equal. -/
def Value.Coincide (x y : Except Fault (Value ℚ)) : Prop :=
  ∃ u v, x = .ok u ∧ y = .ok v ∧ u.equal v = true

/-- The laws of matrix products. For matrices of canonical sums of terms over the rationals of
all shapes that fit, and for canonical sums of terms as scalars: the product is associative and
distributes over sums; the transpose of a product is the product of the transposes in the other
order; transposing twice gives back the matrix, cell by cell; and a scalar can be multiplied with
a product or with either of its factors. In particular all these calculations return. -/
theorem matrix_product_laws :
    (∀ a b c : Matrix ℚ, a.OfSums → b.OfSums → c.OfSums →
      a.width = b.height → b.width = c.height →
      Value.Coincide (do (← (Value.matrix a).binary "*" (.matrix b)).binary "*" (.matrix c))
        (do (Value.matrix a).binary "*" (← (Value.matrix b).binary "*" (.matrix c)))) ∧
    (∀ a b c : Matrix ℚ, a.OfSums → b.OfSums → c.OfSums →
      a.width = b.height → b.shape = c.shape →
      Value.Coincide (do (Value.matrix a).binary "*" (← (Value.matrix b).binary "+" (.matrix c)))
        (do
          let ab ← (Value.matrix a).binary "*" (.matrix b)
          ab.binary "+" (← (Value.matrix a).binary "*" (.matrix c)))) ∧
    (∀ a b : Matrix ℚ, a.OfSums → b.OfSums → a.width = b.height →
      Value.Coincide (do Value.unary "~" (← (Value.matrix a).binary "*" (.matrix b)))
        (do (← Value.unary "~" (.matrix b)).binary "*" (← Value.unary "~" (.matrix a)))) ∧
    (∀ a : Matrix ℚ, a.OfSums →
      (do Value.unary "~" (← Value.unary "~" (.matrix a))) = .ok (.matrix a)) ∧
    (∀ (s : Scalar ℚ) (a b : Matrix ℚ), s.Canonical → s.IsSum → a.OfSums → b.OfSums →
      a.width = b.height →
      let whole := do (Value.scalar s).binary "*" (← (Value.matrix a).binary "*" (.matrix b))
      let left := do (← (Value.scalar s).binary "*" (.matrix a)).binary "*" (.matrix b)
      let right := do (Value.matrix a).binary "*" (← (Value.matrix b).binary "*" (.scalar s))
      Value.Coincide whole left ∧ Value.Coincide left right ∧ Value.Coincide whole right) := by
  refine ⟨?_, ?_, ?_, ?_, ?_⟩
  · intro a b c ha hb hc hab hbc
    have hwidth : (a.product b).width = c.height := (ha.width_product b).trans hbc
    have hheight : a.width = (b.product c).height := hab.trans (Matrix.height_product b c).symm
    rw [Value.binary_product hab, Value.binary_product hbc]
    exact ⟨_, _, Value.binary_product hwidth, Value.binary_product hheight, ha.product_assoc hb hc⟩
  · intro a b c ha hb hc hab hshape
    have hheight : b.height = c.height := congrArg Shape.rows hshape
    have hsum : b.height = (b.sum c).height :=
      (congrArg Shape.rows (hb.toFull.shape_sum c)).symm
    have hsame : (a.product b).shape = (a.product c).shape := by
      rw [ha.toFull.shape_product, ha.toFull.shape_product]
      exact congrArg (Shape.mk a.height) (congrArg Shape.cols hshape)
    rw [Value.binary_sum hshape, Value.binary_product hab, Value.binary_product (hab.trans hheight)]
    exact ⟨_, _, Value.binary_product (hab.trans hsum), Value.binary_sum hsame,
      ha.product_sum hb hc hshape⟩
  · intro a b ha hb hab
    have hheight : a.transpose.height = a.width := congrArg Shape.rows ha.toFull.shape_transpose
    have hwidth : b.transpose.width = b.height := congrArg Shape.cols hb.toFull.shape_transpose
    rw [Value.binary_product hab]
    exact ⟨_, _, rfl, Value.binary_product (hwidth.trans (hab.symm.trans hheight.symm)),
      ha.transpose_product hb hab⟩
  · intro a ha
    change Except.ok (Value.matrix a.transpose.transpose) = _
    rw [ha.toFull.transpose_transpose]
  · intro s a b hs hs' ha hb hab whole left right
    have hwidth : (a.scale s).width = a.width := congrArg Shape.cols (ha.toFull.shape_scale s)
    have hheight : b.height = (b.scale s).height :=
      (congrArg Shape.rows (hb.toFull.shape_scale s)).symm
    have hwhole : whole = .ok (.matrix ((a.product b).scale s)) := by
      simp only [whole, Value.binary_product hab]
      rfl
    have hleft : left = .ok (.matrix ((a.scale s).product b)) :=
      Value.binary_product (hwidth.trans hab)
    have hright : right = .ok (.matrix (a.product (b.scale s))) :=
      Value.binary_product (hab.trans hheight)
    obtain ⟨hwl, hlr, hwr⟩ := ha.scale_product hb hs hs'
    exact ⟨⟨_, _, hwhole, hleft, hwl⟩, ⟨_, _, hleft, hright, hlr⟩, ⟨_, _, hwhole, hright, hwr⟩⟩

/-- The laws for a row, two squares and a column, with sums of two terms, an imaginary cell, a
symbolic exponent and a zero that still carries a variable. -/
theorem product_laws_of_row_squares_and_column :
    let x : Scalar ℚ := .poly (.term (.named "x"))
    let power : Scalar ℚ := .poly (.term ⟨2, true, [⟨"x", .term (.named "n")⟩]⟩)
    let zero : Scalar ℚ := .poly (.term ⟨0, false, [⟨"x", .term .one⟩]⟩)
    let s : Scalar ℚ := x.add (.number 1)
    let a : Matrix ℚ := ⟨[[x, .number 1]]⟩
    let b : Matrix ℚ := ⟨[[.number 2, power], [s, zero]]⟩
    let c : Matrix ℚ := ⟨[[power], [s]]⟩
    let d : Matrix ℚ := ⟨[[zero, x], [.number 1, power]]⟩
    a.width = b.height ∧ b.width = c.height ∧ b.shape = d.shape ∧
    Value.Coincide (do (← (Value.matrix a).binary "*" (.matrix b)).binary "*" (.matrix c))
      (do (Value.matrix a).binary "*" (← (Value.matrix b).binary "*" (.matrix c))) ∧
    Value.Coincide (do (Value.matrix a).binary "*" (← (Value.matrix b).binary "+" (.matrix d)))
      (do
        let ab ← (Value.matrix a).binary "*" (.matrix b)
        ab.binary "+" (← (Value.matrix a).binary "*" (.matrix d))) ∧
    Value.Coincide (do Value.unary "~" (← (Value.matrix a).binary "*" (.matrix b)))
      (do (← Value.unary "~" (.matrix b)).binary "*" (← Value.unary "~" (.matrix a))) ∧
    (do Value.unary "~" (← Value.unary "~" (.matrix a))) = .ok (.matrix a) ∧
    Value.Coincide (do (Value.scalar s).binary "*" (← (Value.matrix a).binary "*" (.matrix b)))
      (do (Value.matrix a).binary "*" (← (Value.matrix b).binary "*" (.scalar s))) := by
  intro x power zero s a b c d
  have hone : Magnitude.isZero (1 : ℚ) = false := by simp
  have hx : x.Canonical ∧ x.IsSum :=
    ⟨Poly.Canonical.term (Term.named_canonical hone _), trivial⟩
  have hpower : power.Canonical ∧ power.IsSum :=
    ⟨Poly.Canonical.term (Term.single_canonical _ _ _ (Term.named_canonical hone _) hone), trivial⟩
  have hnumber (m : ℚ) : (Scalar.number m).Canonical ∧ (Scalar.number m).IsSum :=
    ⟨Scalar.number_canonical m, trivial⟩
  have hzero : zero.Canonical ∧ zero.IsSum :=
    ⟨Poly.Canonical.term (Term.single_canonical _ _ _ (.of_powers_nil rfl) hone), trivial⟩
  have hs : s.Canonical ∧ s.IsSum := ⟨Scalar.add_canonical hx.1 (hnumber 1).1, trivial⟩
  have ha : a.OfSums := ⟨⟨⟨by decide, by decide, by simp [a, Matrix.width]⟩,
    by simp [a, hx, hnumber]⟩, by simp [a, hx, hnumber]⟩
  have hb : b.OfSums := ⟨⟨⟨by decide, by decide, by simp [b, Matrix.width]⟩,
    by simp [b, hs, hzero, hpower, hnumber]⟩, by simp [b, hs, hzero, hpower, hnumber]⟩
  have hc : c.OfSums := ⟨⟨⟨by decide, by decide, by simp [c, Matrix.width]⟩,
    by simp [c, hs, hpower]⟩, by simp [c, hs, hpower]⟩
  have hd : d.OfSums := ⟨⟨⟨by decide, by decide, by simp [d, Matrix.width]⟩,
    by simp [d, hx, hzero, hpower, hnumber]⟩, by simp [d, hx, hzero, hpower, hnumber]⟩
  obtain ⟨hassoc, hdistrib, htranspose, htwice, hscale⟩ := matrix_product_laws
  exact ⟨rfl, rfl, rfl, hassoc a b c ha hb hc rfl rfl, hdistrib a b d ha hb hd rfl rfl,
    htranspose a b ha hb rfl, htwice a ha, (hscale s a b hs.1 hs.2 ha hb rfl).2.2⟩

end SymCalc
