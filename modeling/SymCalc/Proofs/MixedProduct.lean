import Mathlib
import SymCalc.Proofs.CanonicalRun
import SymCalc.Proofs.MatrixCells

/-!
# The mixed product law

A cell of a tensor product is the product of two cells, whose rows and columns are the quotients and
the remainders of its own by the shape of the right factor. Main statement: over exact magnitudes
the product of two tensor products is the tensor product of the products, for matrices of sums of
terms of all shapes that fit.
-/

namespace SymCalc

/-- A sum over all indices of blocks is a sum over the blocks and over the indices within one. -/
theorem sum_range_div_mod {R : Type} [AddCommMonoid R] (f : Nat → Nat → R) (blocks size : Nat) :
    ∑ k ∈ Finset.range (blocks * size), f (k / size) (k % size) =
      ∑ i ∈ Finset.range blocks, ∑ j ∈ Finset.range size, f i j := by
  induction blocks with
  | zero => simp
  | succ blocks ih =>
    rw [Nat.succ_mul, Finset.sum_range_add, ih, Finset.sum_range_succ]
    congr 1
    refine Finset.sum_congr rfl fun j hj => ?_
    have hless : j < size := Finset.mem_range.mp hj
    have hquotient : (blocks * size + j) / size = blocks := by
      rw [Nat.mul_comm, Nat.mul_add_div (by omega), Nat.div_eq_of_lt hless, Nat.add_zero]
    have hremainder : (blocks * size + j) % size = j := Nat.mul_add_mod_of_lt hless
    rw [hquotient, hremainder]

/-- Two matrices always have a tensor product. -/
theorem Value.binary_tensor (a b : Matrix ℚ) :
    (Value.matrix a).binary "*!" (.matrix b) = .ok (.matrix (a.tensor b)) := rfl

/-- Two matrices whose shapes fit have a product. -/
theorem Value.binary_product {a b : Matrix ℚ} (h : a.width = b.height) :
    (Value.matrix a).binary "*" (.matrix b) = .ok (.matrix (a.product b)) := by
  change (a.mul b).map Value.matrix = _
  rw [Matrix.mul_eq_ok h]
  rfl

/-- A row times a column of two tensor products is read as the product of a row times a column of
the left factors and one of the right factors. -/
theorem Reading.scalar_dot_tensor (r : Reading) {a b c d : Matrix ℚ} (ha : a.OfSums)
    (hb : b.OfSums) (hc : c.OfSums) (hd : d.OfSums) (hac : a.width = c.height)
    (hbd : b.width = d.height) {i j : Nat} (hi : i < a.height * b.height)
    (hj : j < c.width * d.width) :
    r.scalar ((a.tensor b).dot (c.tensor d) i j) =
      r.scalar (a.dot c (i / b.height) (j / d.width)) *
        r.scalar (b.dot d (i % b.height) (j % d.width)) := by
  have hwidth := ha.width_tensor hb.toCanonical
  have hterm : ∀ k ∈ Finset.range (a.width * b.width),
      r.scalar ((a.tensor b).cell i k) * r.scalar ((c.tensor d).cell k j) =
        r.scalar (a.cell (i / b.height) (k / b.width)) *
          r.scalar (c.cell (k / b.width) (j / d.width)) *
        (r.scalar (b.cell (i % b.height) (k % b.width)) *
          r.scalar (d.cell (k % b.width) (j % d.width))) := by
    intro k hk
    have hk := Finset.mem_range.mp hk
    rw [Matrix.cell_tensor hi hk, Matrix.cell_tensor (by rw [← hac, ← hbd]; exact hk) hj,
      (r.scalar_mul (ha.cell _ _) (hb.cell _ _)).2, (r.scalar_mul (hc.cell _ _) (hd.cell _ _)).2,
      ← hbd, mul_mul_mul_comm]
  rw [(r.scalar_dot (ha.tensor hb) (hc.tensor hd) i j).2, (r.scalar_dot ha hc _ _).2,
    (r.scalar_dot hb hd _ _).2, hwidth, Finset.sum_congr rfl hterm, Finset.sum_mul_sum]
  exact sum_range_div_mod (fun k l =>
    r.scalar (a.cell (i / b.height) k) * r.scalar (c.cell k (j / d.width)) *
      (r.scalar (b.cell (i % b.height) l) * r.scalar (d.cell l (j % d.width)))) a.width b.width

/-- The mixed product law. For matrices of canonical sums of terms over the rationals whose
shapes fit, of any size: the tensor products and the products exist, the product of the tensor
products and the tensor product of the products are full rectangles of one shape, and they are
equal. -/
theorem mixed_product (a b c d : Matrix ℚ) (ha : a.OfSums) (hb : b.OfSums) (hc : c.OfSums)
    (hd : d.OfSums) (hac : a.width = c.height) (hbd : b.width = d.height) :
    ∃ ab cd ac bd left right : Matrix ℚ,
      (Value.matrix a).binary "*!" (.matrix b) = .ok (.matrix ab) ∧
      (Value.matrix c).binary "*!" (.matrix d) = .ok (.matrix cd) ∧
      (Value.matrix ab).binary "*" (.matrix cd) = .ok (.matrix left) ∧
      (Value.matrix a).binary "*" (.matrix c) = .ok (.matrix ac) ∧
      (Value.matrix b).binary "*" (.matrix d) = .ok (.matrix bd) ∧
      (Value.matrix ac).binary "*!" (.matrix bd) = .ok (.matrix right) ∧
      left.Canonical ∧ left.shape = ⟨a.height * b.height, c.width * d.width⟩ ∧
      right.Canonical ∧ right.shape = ⟨a.height * b.height, c.width * d.width⟩ ∧
      (Value.matrix left).equal (.matrix right) = true := by
  have hab := ha.tensor hb
  have hcd := hc.tensor hd
  have hac' := ha.product hc
  have hbd' := hb.product hd
  have hfit : (a.tensor b).width = (c.tensor d).height := by
    rw [ha.width_tensor hb.toCanonical, Matrix.height_tensor, hac, hbd]
  have hleft := (hab.product hcd).toCanonical
  have hright := (hac'.tensor hbd').toCanonical
  have hshape : ((a.tensor b).product (c.tensor d)).shape =
      ⟨a.height * b.height, c.width * d.width⟩ := by
    rw [Matrix.shape, Matrix.height_product, Matrix.height_tensor, hab.width_product,
      hc.width_tensor hd.toCanonical]
  have hshape' : ((a.product c).tensor (b.product d)).shape =
      ⟨a.height * b.height, c.width * d.width⟩ := by
    rw [Matrix.shape, Matrix.height_tensor, hac'.width_tensor hbd'.toCanonical,
      Matrix.height_product, Matrix.height_product, ha.width_product, hb.width_product]
  refine ⟨a.tensor b, c.tensor d, a.product c, b.product d, (a.tensor b).product (c.tensor d),
    (a.product c).tensor (b.product d), Value.binary_tensor a b, Value.binary_tensor c d,
    Value.binary_product hfit, Value.binary_product hac, Value.binary_product hbd,
    Value.binary_tensor _ _, hleft, hshape, hright, hshape', ?_⟩
  rw [Value.equal, Matrix.equal_iff]
  refine ⟨hshape.trans hshape'.symm, fun i hi j hj => ?_⟩
  refine Scalar.equal_of_scalar_eq (Matrix.cell_canonical hleft i j)
    (Matrix.cell_canonical hright i j) ((hab.product hcd).cell i j) ((hac'.tensor hbd').cell i j)
    fun r => ?_
  rw [Matrix.height_product] at hi
  rw [hab.width_product] at hj
  have hi' := hi
  have hj' := hj
  rw [Matrix.height_tensor] at hi'
  rw [hc.width_tensor hd.toCanonical] at hj'
  -- The quotient and the remainder of an index are indices of the two factors.
  have hrow : i / b.height < a.height := Nat.div_lt_of_lt_mul (by rwa [Nat.mul_comm] at hi')
  have hcol : j / d.width < c.width := Nat.div_lt_of_lt_mul (by rwa [Nat.mul_comm] at hj')
  have hrow' : i % b.height < b.height := Nat.mod_lt _ hb.height_pos
  have hcol' : j % d.width < d.width := Nat.mod_lt _ hd.width_pos
  calc r.scalar (((a.tensor b).product (c.tensor d)).cell i j)
      = r.scalar ((a.tensor b).dot (c.tensor d) i j) := by rw [Matrix.cell_product hi hj]
    _ = r.scalar (a.dot c (i / b.height) (j / d.width)) *
          r.scalar (b.dot d (i % b.height) (j % d.width)) :=
        r.scalar_dot_tensor ha hb hc hd hac hbd hi' hj'
    _ = r.scalar ((a.product c).cell (i / b.height) (j / d.width)) *
          r.scalar ((b.product d).cell (i % b.height) (j % d.width)) := by
        rw [Matrix.cell_product hrow hcol, Matrix.cell_product hrow' hcol']
    _ = r.scalar (((a.product c).tensor (b.product d)).cell i j) := by
        rw [Matrix.cell_tensor (by simpa using hi')
            (by rwa [ha.width_product, hb.width_product]),
          (r.scalar_mul (hac'.cell _ _) (hbd'.cell _ _)).2, Matrix.height_product,
          hb.width_product]

/-- The law for a row and a column on the left and a column and a row on the right, with a sum
of two terms, an imaginary cell and a symbolic exponent. -/
theorem mixed_product_of_rows_and_columns :
    let x : Scalar ℚ := .poly (.term (.named "x"))
    let power : Scalar ℚ := .poly (.term ⟨2, true, [⟨"x", .term (.named "n")⟩]⟩)
    let a : Matrix ℚ := ⟨[[x, .number 1]]⟩
    let b : Matrix ℚ := ⟨[[.number 2], [power], [x]]⟩
    let c : Matrix ℚ := ⟨[[.number 1], [x.add (.number 1)]]⟩
    let d : Matrix ℚ := ⟨[[x, power]]⟩
    a.width = c.height ∧ b.width = d.height ∧
    ∃ ab cd ac bd left right : Matrix ℚ,
      (Value.matrix a).binary "*!" (.matrix b) = .ok (.matrix ab) ∧
      (Value.matrix c).binary "*!" (.matrix d) = .ok (.matrix cd) ∧
      (Value.matrix ab).binary "*" (.matrix cd) = .ok (.matrix left) ∧
      (Value.matrix a).binary "*" (.matrix c) = .ok (.matrix ac) ∧
      (Value.matrix b).binary "*" (.matrix d) = .ok (.matrix bd) ∧
      (Value.matrix ac).binary "*!" (.matrix bd) = .ok (.matrix right) ∧
      left.Canonical ∧ left.shape = ⟨3, 2⟩ ∧ right.Canonical ∧ right.shape = ⟨3, 2⟩ ∧
      (Value.matrix left).equal (.matrix right) = true := by
  intro x power a b c d
  have hone : Magnitude.isZero (1 : ℚ) = false := by simp
  have hx : x.Canonical ∧ x.IsSum :=
    ⟨Poly.Canonical.term (Term.named_canonical hone _), trivial⟩
  have hpower : power.Canonical ∧ power.IsSum :=
    ⟨Poly.Canonical.term (Term.single_canonical _ _ _ (Term.named_canonical hone _) hone), trivial⟩
  have hnumber (m : ℚ) : (Scalar.number m).Canonical ∧ (Scalar.number m).IsSum :=
    ⟨Scalar.number_canonical m, trivial⟩
  have hsum : (x.add (.number 1)).Canonical ∧ (x.add (.number 1)).IsSum :=
    ⟨Scalar.add_canonical hx.1 (hnumber 1).1, trivial⟩
  have ha : a.OfSums := ⟨⟨⟨by decide, by decide, by simp [a, Matrix.width]⟩,
    by simp [a, hx, hnumber]⟩, by simp [a, hx, hnumber]⟩
  have hb : b.OfSums := ⟨⟨⟨by decide, by decide, by simp [b, Matrix.width]⟩,
    by simp [b, hx, hpower, hnumber]⟩, by simp [b, hx, hpower, hnumber]⟩
  have hc : c.OfSums := ⟨⟨⟨by decide, by decide, by simp [c, Matrix.width]⟩,
    by simp [c, hsum, hnumber]⟩, by simp [c, hsum, hnumber]⟩
  have hd : d.OfSums := ⟨⟨⟨by decide, by decide, by simp [d, Matrix.width]⟩,
    by simp [d, hx, hpower]⟩, by simp [d, hx, hpower]⟩
  exact ⟨rfl, rfl, mixed_product a b c d ha hb hc hd rfl rfl⟩

end SymCalc
