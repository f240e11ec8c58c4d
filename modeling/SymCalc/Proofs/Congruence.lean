import Mathlib
import SymCalc.Proofs.CanonicalRun
import SymCalc.Proofs.MatrixCells

/-!
# Operators respect equality

One number can be written in several ways: a term and the list of that term alone, zero with any
powers and the empty list, and so on inside exponents, fractions and cells. The operators look at
how a value is written. Main statement: over exact magnitudes, operands that are canonical and equal
are interchangeable for every operator, which fails for both or gives equal values for both.
-/

namespace SymCalc

/-- Both results are faults, or they are values that are related. -/
inductive FailAlike {α : Type} (R : α → α → Prop) : Except Fault α → Except Fault α → Prop where
  /-- Both are values. -/
  | ok {a b : α} (h : R a b) : FailAlike R (.ok a) (.ok b)
  /-- Both are faults, which may be worded for different kinds. -/
  | error (f g : Fault) : FailAlike R (.error f) (.error g)

namespace FailAlike

variable {α β : Type} {R : α → α → Prop} {S : β → β → Prop} {x y : Except Fault α}

/-- Results stay alike when their values are put into related values. -/
theorem map {f : α → β} (h : FailAlike R x y) (hf : ∀ {a b}, R a b → S (f a) (f b)) :
    FailAlike S (x.map f) (y.map f) := by
  cases h with
  | ok h => exact .ok (hf h)
  | error f g => exact .error f g

/-- Of two results that are alike, the one is a fault if the other is. -/
theorem error_iff (h : FailAlike R x y) :
    (∃ fault, x = .error fault) ↔ ∃ fault, y = .error fault := by
  cases h with
  | ok h => simp
  | error f g => simp

/-- Values of results that are alike are related. -/
theorem related {a b : α} (h : FailAlike R x y) (hx : x = .ok a) (hy : y = .ok b) : R a b := by
  cases h with
  | ok h =>
    cases hx
    cases hy
    exact h
  | error f g => cases hx

end FailAlike

/-- Canonical sums of terms that are equal. -/
structure Poly.Same (p q : Poly ℚ) : Prop where
  /-- The left sum is canonical. -/
  left : p.Canonical
  /-- The right sum is canonical. -/
  right : q.Canonical
  /-- The two are equal. -/
  equal : p.equal q = true

namespace Poly

variable {p p' q q' : Poly ℚ}

/-- Canonical sums that are read as the same in every ring of formal sums are equal. -/
theorem Same.of_sum_eq (hp : p.Canonical) (hq : q.Canonical)
    (h : ∀ r : Reading, r.sum p = r.sum q) : p.Same q :=
  ⟨hp, hq, equal_of_sum_eq hp hq h⟩

/-- A canonical sum is equal to itself. -/
theorem Same.refl (hp : p.Canonical) : p.Same p := .of_sum_eq hp hp fun _ => rfl

/-- Equality of canonical sums does not depend on the order of the operands. -/
theorem Same.symm (h : p.Same q) : q.Same p := ⟨h.right, h.left, equal_symm h.equal⟩

/-- Equality of canonical sums is transitive. -/
theorem Same.trans (hp : p.Same p') (hq : p'.Same q) : p.Same q :=
  ⟨hp.left, hq.right, Term.equal_trans_nested.2 _ _ _ hp.left hp.right hq.right hp.equal hq.equal⟩

/-- Equal sums are told apart from others alike. -/
theorem Same.equal_eq (hp : p.Same p') (hq : q.Same q') : p.equal q = p'.equal q' := by
  have himp {a a' b b' : Poly ℚ} (ha : a.Same a') (hb : b.Same b') (h : a.equal b = true) :
      a'.equal b' = true :=
    ((ha.symm.trans ⟨ha.left, hb.left, h⟩).trans hb).equal
  exact Bool.eq_iff_iff.mpr ⟨himp hp hq, himp hp.symm hq.symm⟩

/-- Sums of equal sums are equal. -/
theorem Same.add (hp : p.Same p') (hq : q.Same q') : (p.add q).Same (p'.add q') := by
  refine .of_sum_eq (add_canonical hp.left hq.left) (add_canonical hp.right hq.right) fun r => ?_
  rw [r.sum_add, r.sum_add, r.sum_equal hp.equal, r.sum_equal hq.equal]

/-- Products of equal sums are equal. -/
theorem Same.mul (hp : p.Same p') (hq : q.Same q') : (p.mul q).Same (p'.mul q') := by
  refine .of_sum_eq (mul_canonical hp.left hq.left) (mul_canonical hp.right hq.right) fun r => ?_
  rw [r.sum_mul, r.sum_mul, r.sum_equal hp.equal, r.sum_equal hq.equal]

/-- Negatives of equal sums are equal. -/
theorem Same.neg (hp : p.Same p') : p.neg.Same p'.neg := by
  refine .of_sum_eq (neg_canonical hp.left) (neg_canonical hp.right) fun r => ?_
  rw [r.sum_neg, r.sum_neg, r.sum_equal hp.equal]

end Poly

/-- Fractions whose parts are canonical and equal. -/
structure Fraction.Same (f g : Fraction ℚ) : Prop where
  /-- The numerators are equal. -/
  num : f.num.Same g.num
  /-- The denominators are equal. -/
  den : f.den.Same g.den

/-- Canonical scalars that are equal. -/
inductive Scalar.Same : Scalar ℚ → Scalar ℚ → Prop where
  /-- Sums of terms. -/
  | poly {p q : Poly ℚ} (h : p.Same q) : Same (.poly p) (.poly q)
  /-- Fractions. -/
  | fraction {f g : Fraction ℚ} (h : f.Same g) : Same (.fraction f) (.fraction g)

/-- Exponents that are equal stay so when all of them are negated. -/
theorem Power.equalAll_neg {ps qs : List (Power ℚ)} (hp : ∀ p ∈ ps, p.exponent.Canonical)
    (hq : ∀ q ∈ qs, q.exponent.Canonical) (h : equalAll ps qs = true) :
    equalAll (ps.map fun p => ⟨p.name, p.exponent.neg⟩)
      (qs.map fun q => ⟨q.name, q.exponent.neg⟩) = true := by
  rw [equalAll_iff] at h ⊢
  induction h with
  | nil => exact .nil
  | cons hpq _ ih =>
    obtain ⟨hp, hps⟩ := List.forall_mem_cons.mp hp
    obtain ⟨hq, hqs⟩ := List.forall_mem_cons.mp hq
    obtain ⟨hname, hexponent⟩ := equal_iff.mp hpq
    have hneg := Poly.Same.neg ⟨hp, hq, hexponent⟩
    exact .cons (equal_iff.mpr ⟨hname, hneg.equal⟩) (ih hps hqs)

namespace Term

variable {t u u' : Term ℚ}

/-- Over exact magnitudes a quotient is the product with the reciprocal. -/
theorem div_eq_mul_inverse (t u : Term ℚ) : t.div u = t.mul u.inverse := by
  obtain ⟨m, i, ps⟩ := t
  obtain ⟨n, j, qs⟩ := u
  cases i <;> cases j <;> simp [div, mul, inverse, make, div_eq_mul_inv]

/-- Of two equal terms the one is zero if the other is. -/
theorem isZero_eq (h : t.equal u = true) : t.isZero = u.isZero := by
  obtain ⟨ht, hu⟩ | ⟨ht, hu, -⟩ := equal_iff.mp h
  · rw [ht, hu]
  · rw [ht, hu]

end Term

namespace Reading

variable (r : Reading) {u u' : Term ℚ}

/-- Reciprocals of equal terms other than zero are read as the same. -/
theorem term_inverse (hu : u.Canonical) (hu' : u'.Canonical) (hzero : u.isZero = false)
    (h : u.equal u' = true) : r.term u.inverse = r.term u'.inverse := by
  obtain ⟨hzero', -⟩ | ⟨-, -, hmagnitude, hsame⟩ := Term.equal_iff.mp h
  · rw [hzero] at hzero'
    cases hzero'
  · rw [Term.sameSignature, Bool.and_eq_true, beq_iff_eq] at hsame
    have himaginary : u.inverse.imaginary = u'.inverse.imaginary := hsame.1
    have hpowers : r.powers u.inverse.powers = r.powers u'.inverse.powers :=
      r.powers_equalAll (Power.equalAll_neg hu.exponent hu'.exponent hsame.2)
    have hfactor : u.inverse.magnitude = u'.inverse.magnitude := by
      simp only [Term.inverse, hsame.1, beq_iff_eq.mp hmagnitude]
    rw [term, term, himaginary, hpowers, hfactor]

/-- The quotient of a sum by a term is read as the product with the reciprocal. -/
theorem sum_divTerm (p : Poly ℚ) (u : Term ℚ) :
    r.sum (p.divTerm u) = r.sum p * r.term u.inverse := by
  cases p with
  | term t => rw [Poly.divTerm, sum, sum, Term.div_eq_mul_inverse, term_mul]
  | sum ts =>
    simp only [Poly.divTerm, Term.div_eq_mul_inverse]
    rw [sum_combine, total_map_mul, sum]

end Reading

namespace Poly

variable {p p' q q' : Poly ℚ} {t t' : Term ℚ}

/-- A sum that is a single term is equal to that term. -/
theorem same_asTerm? (hp : p.Canonical) (h : p.asTerm? = some t) : p.Same (.term t) := by
  refine .of_sum_eq hp (.term (asTerm?_canonical hp h)) fun r => ?_
  unfold asTerm? at h
  split at h
  · cases h
    rfl
  · cases h
    exact (r.term_eq_zero rfl).symm
  · cases h
    exact add_zero _
  · cases h

/-- A sum is not a single term when it has at least two of them. -/
theorem asTerm?_eq_none_iff : p.asTerm? = none ↔ 2 ≤ p.terms.length := by
  rcases p with t | _ | ⟨t, _ | ⟨u, ts⟩⟩
  · rw [terms]
    split <;> simp [asTerm?]
  · simp [asTerm?]
  · simp [asTerm?]
  · simp [asTerm?]

/-- Equal sums have as many terms as each other. -/
theorem Same.length_eq (h : p.Same q) : p.terms.length = q.terms.length := by
  have hlists := (equal_eq_equalAll (fun t ht => (h.left.mem_terms t ht).2)
    fun t ht => (h.right.mem_terms t ht).2).mp h.equal
  exact (Term.equalAll_iff.mp hlists).length_eq

/-- Quotients of equal sums by equal sums are equal, or neither exists. -/
theorem Same.div (hp : p.Same p') (hq : q.Same q') :
    FailAlike Scalar.Same (p.div q) (p'.div q') := by
  have hnone : q.asTerm? = none ↔ q'.asTerm? = none := by
    rw [asTerm?_eq_none_iff, asTerm?_eq_none_iff, hq.length_eq]
  unfold Poly.div
  cases hterm : q.asTerm? with
  | none =>
    rw [hnone.mp hterm]
    exact .ok (.fraction ⟨hp, hq⟩)
  | some t =>
    cases hterm' : q'.asTerm? with
    | none => simp [hnone.mpr hterm'] at hterm
    | some t' =>
      have hsame : (Poly.term t).Same (.term t') :=
        ((same_asTerm? hq.left hterm).symm.trans hq).trans (same_asTerm? hq.right hterm')
      have ht := asTerm?_canonical hq.left hterm
      have ht' := asTerm?_canonical hq.right hterm'
      have hequal : t.equal t' = true := by simpa only [Poly.equal] using hsame.equal
      cases hzero : t.isZero with
      | true =>
        have hzero' : t'.isZero = true := Term.isZero_eq hequal ▸ hzero
        simp only [hzero, hzero', if_true]
        exact .error _ _
      | false =>
        have hzero' : t'.isZero = false := Term.isZero_eq hequal ▸ hzero
        simp only [hzero, hzero', Bool.false_eq_true, if_false]
        refine .ok (.poly (.of_sum_eq (divTerm_canonical hp.left ht)
          (divTerm_canonical hp.right ht') fun r => ?_))
        rw [r.sum_divTerm, r.sum_divTerm, r.sum_equal hp.equal, r.term_inverse ht ht' hzero hequal]

end Poly

namespace Fraction

variable {f f' g g' : Fraction ℚ} {p p' : Poly ℚ}

/-- Equal fractions are told apart from others alike. -/
theorem Same.equal_eq (hf : f.Same f') (hg : g.Same g') : f.equal g = f'.equal g' := by
  rw [equal, equal, hf.num.equal_eq hg.num, hf.den.equal_eq hg.den]

/-- Sums of equal fractions are equal, over their denominator or over the product of two. -/
theorem Same.add (hf : f.Same f') (hg : g.Same g') : (f.add g).Same (f'.add g') := by
  unfold Fraction.add
  rw [hf.den.equal_eq hg.den]
  split
  · exact ⟨hf.num.add hg.num, hf.den⟩
  · exact ⟨(hf.num.mul hg.den).add (hg.num.mul hf.den), hf.den.mul hg.den⟩

/-- Products of equal fractions are equal. -/
theorem Same.mul (hf : f.Same f') (hg : g.Same g') : (f.mul g).Same (f'.mul g') :=
  ⟨hf.num.mul hg.num, hf.den.mul hg.den⟩

/-- Quotients of equal fractions are equal, whichever parts are cancelled, or neither exists. -/
theorem Same.div (hf : f.Same f') (hg : g.Same g') :
    FailAlike Scalar.Same (f.div g) (f'.div g') := by
  unfold Fraction.div
  rw [hf.equal_eq hg, hf.num.equal_eq hg.num, hf.den.equal_eq hg.den]
  split
  · exact .ok (.poly (.refl (.term (.of_powers_nil rfl))))
  · split
    · exact hg.den.div hf.den
    · split
      · exact hf.num.div hg.num
      · exact .ok (.fraction (hf.mul ⟨hg.den, hg.num⟩))

end Fraction

namespace Scalar

variable {s s' t t' : Scalar ℚ}

/-- Canonical scalars that are equal, by their parts. -/
theorem Same.of_equal (hs : s.Canonical) (ht : t.Canonical) (h : s.equal t = true) : s.Same t := by
  cases s with
  | poly p =>
    cases t with
    | poly q => exact .poly ⟨hs, ht, h⟩
    | fraction g => cases h
  | fraction f =>
    cases t with
    | poly q => cases h
    | fraction g =>
      obtain ⟨hnum, hden⟩ := Bool.and_eq_true_iff.mp h
      exact .fraction ⟨⟨hs.num, ht.num, hnum⟩, ⟨hs.den, ht.den, hden⟩⟩

/-- Scalars whose parts are equal are equal. -/
theorem Same.equal (h : s.Same t) : s.equal t = true := by
  cases h with
  | poly h => exact h.equal
  | fraction h => exact Bool.and_eq_true_iff.mpr ⟨h.num.equal, h.den.equal⟩

/-- The left one of equal scalars is canonical. -/
theorem Same.left (h : s.Same t) : s.Canonical := by
  cases h with
  | poly h => exact h.left
  | fraction h => exact ⟨h.num.left, h.den.left⟩

/-- The right one of equal scalars is canonical. -/
theorem Same.right (h : s.Same t) : t.Canonical := by
  cases h with
  | poly h => exact h.right
  | fraction h => exact ⟨h.num.right, h.den.right⟩

/-- A number is equal to itself. -/
theorem same_number (m : ℚ) : (number m).Same (number m) :=
  .poly (.refl (.term (.of_powers_nil rfl)))

/-- Sums of equal scalars are equal. -/
theorem Same.add (hs : s.Same s') (ht : t.Same t') : (s.add t).Same (s'.add t') := by
  cases hs with
  | poly hp =>
    cases ht with
    | poly hq => exact .poly (hp.add hq)
    | fraction hg => exact .fraction ⟨hg.num.add (hp.mul hg.den), hg.den⟩
  | fraction hf =>
    cases ht with
    | poly hq => exact .fraction ⟨hf.num.add (hq.mul hf.den), hf.den⟩
    | fraction hg => exact .fraction (hf.add hg)

/-- Products of equal scalars are equal. -/
theorem Same.mul (hs : s.Same s') (ht : t.Same t') : (s.mul t).Same (s'.mul t') := by
  cases hs with
  | poly hp =>
    cases ht with
    | poly hq => exact .poly (hp.mul hq)
    | fraction hg => exact .fraction ⟨hg.num.mul hp, hg.den⟩
  | fraction hf =>
    cases ht with
    | poly hq => exact .fraction ⟨hf.num.mul hq, hf.den⟩
    | fraction hg => exact .fraction (hf.mul hg)

/-- Quotients of equal scalars are equal, or neither exists. -/
theorem Same.div (hs : s.Same s') (ht : t.Same t') :
    FailAlike Same (s.div t) (s'.div t') := by
  cases hs with
  | poly hp =>
    cases ht with
    | poly hq => exact hp.div hq
    | fraction hg => exact .ok (.fraction ⟨hp.mul hg.den, hg.num⟩)
  | fraction hf =>
    cases ht with
    | poly hq => exact .ok (.fraction ⟨hf.num, hf.den.mul hq⟩)
    | fraction hg => exact hf.div hg

/-- Negatives of equal scalars are equal. -/
theorem Same.neg (hs : s.Same s') : s.neg.Same s'.neg := by
  cases hs with
  | poly hp => exact .poly hp.neg
  | fraction hf => exact .fraction ⟨hf.num.neg, hf.den⟩

end Scalar

/-- Canonical matrices of one shape whose cells are equal. -/
structure Matrix.Same (m n : Matrix ℚ) : Prop where
  /-- The left matrix is canonical. -/
  left : m.Canonical
  /-- The right matrix is canonical. -/
  right : n.Canonical
  /-- The shapes are the same. -/
  shape : m.shape = n.shape
  /-- The cells are equal, and zero outside. -/
  cells : ∀ i j, (m.cell i j).Same (n.cell i j)

namespace Matrix

variable {m m' n n' : Matrix ℚ} {s s' : Scalar ℚ}

/-- Canonical matrices that are equal, by their cells. -/
theorem Same.of_equal (hm : m.Canonical) (hn : n.Canonical) (h : m.equal n = true) : m.Same n := by
  obtain ⟨hshape, hcells⟩ := equal_iff.mp h
  refine ⟨hm, hn, hshape, fun i j => ?_⟩
  have hheight : m.height = n.height := congrArg Shape.rows hshape
  have hwidth : m.width = n.width := congrArg Shape.cols hshape
  by_cases hinside : i < m.height ∧ j < m.width
  · exact .of_equal (cell_canonical hm i j) (cell_canonical hn i j)
      (hcells i hinside.1 j hinside.2)
  · rw [hm.cell_outside hinside, hn.cell_outside (by rwa [← hheight, ← hwidth])]
    exact Scalar.same_number 0

/-- Matrices whose cells are equal are equal. -/
theorem Same.equal (h : m.Same n) : m.equal n = true :=
  equal_iff.mpr ⟨h.shape, fun i _ j _ => (h.cells i j).equal⟩

/-- The numbers of rows are the same. -/
theorem Same.height (h : m.Same n) : m.height = n.height := congrArg Shape.rows h.shape

/-- The numbers of columns are the same. -/
theorem Same.width (h : m.Same n) : m.width = n.width := congrArg Shape.cols h.shape

/-- Tabulated matrices of one shape are equal when the cells that they were given are. -/
theorem tabulate_same {height width : Nat} {f g : Nat → Nat → Scalar ℚ} (hh : 0 < height)
    (hw : 0 < width) (h : ∀ i j, (f i j).Same (g i j)) :
    (tabulate height width f).Same (tabulate height width g) := by
  refine .of_equal (tabulate_canonical hh hw fun i j => (h i j).left)
    (tabulate_canonical hh hw fun i j => (h i j).right) ?_
  exact equal_tabulate hh fun i _ j _ => (h i j).equal

/-- Products of equal rows and columns are equal. -/
theorem Same.dot (hm : m.Same m') (hn : n.Same n') (i j : Nat) :
    (m.dot n i j).Same (m'.dot n' i j) := by
  have hfold : ∀ (ks : List Nat) (sum sum' : Scalar ℚ), sum.Same sum' →
      (ks.foldl (fun sum k => sum.add ((m.cell i k).mul (n.cell k j))) sum).Same
        (ks.foldl (fun sum k => sum.add ((m'.cell i k).mul (n'.cell k j))) sum') := by
    intro ks
    induction ks with
    | nil => exact fun _ _ hsum => hsum
    | cons k ks ih =>
      intro sum sum' hsum
      exact ih _ _ (hsum.add ((hm.cells i k).mul (hn.cells k j)))
  unfold Matrix.dot
  rw [hm.width]
  exact hfold _ _ _ (Scalar.same_number 0)

/-- Sums of equal matrices are equal, or neither exists. -/
theorem Same.add (hm : m.Same m') (hn : n.Same n') : FailAlike Same (m.add n) (m'.add n') := by
  unfold Matrix.add
  rw [← hm.shape, ← hn.shape, ← hm.height, ← hm.width]
  split
  · exact .ok (tabulate_same hm.left.height_pos hm.left.width_pos fun i j =>
      (hm.cells i j).add (hn.cells i j))
  · exact .error _ _

/-- Products of equal matrices are equal, or neither exists. -/
theorem Same.mul (hm : m.Same m') (hn : n.Same n') : FailAlike Same (m.mul n) (m'.mul n') := by
  unfold Matrix.mul
  rw [← hm.shape, ← hn.shape, ← hm.height, ← hm.width, ← hn.height, ← hn.width]
  split
  · exact .ok (tabulate_same hm.left.height_pos hn.left.width_pos (hm.dot hn))
  · exact .error _ _

/-- Equal matrices scaled by equal scalars are equal. -/
theorem Same.scale (hs : s.Same s') (hm : m.Same m') : (m.scale s).Same (m'.scale s') := by
  unfold Matrix.scale
  rw [← hm.height, ← hm.width]
  exact tabulate_same hm.left.height_pos hm.left.width_pos fun i j => hs.mul (hm.cells i j)

/-- Tensor products of equal matrices are equal. -/
theorem Same.tensor (hm : m.Same m') (hn : n.Same n') : (m.tensor n).Same (m'.tensor n') := by
  unfold Matrix.tensor
  rw [← hm.height, ← hm.width, ← hn.height, ← hn.width]
  exact tabulate_same (Nat.mul_pos hm.left.height_pos hn.left.height_pos)
    (Nat.mul_pos hm.left.width_pos hn.left.width_pos) fun i j => (hm.cells _ _).mul (hn.cells _ _)

/-- Transposes of equal matrices are equal. -/
theorem Same.transpose (hm : m.Same m') : m.transpose.Same m'.transpose := by
  unfold Matrix.transpose
  rw [← hm.height, ← hm.width]
  exact tabulate_same hm.left.width_pos hm.left.height_pos fun i j => hm.cells j i

end Matrix

/-- Equal values, which are canonical if they are scalars or matrices. -/
inductive Value.Same : Value ℚ → Value ℚ → Prop where
  /-- Scalars. -/
  | scalar {s t : Scalar ℚ} (h : s.Same t) : Same (.scalar s) (.scalar t)
  /-- Matrices. -/
  | matrix {m n : Matrix ℚ} (h : m.Same n) : Same (.matrix m) (.matrix n)
  /-- Booleans. -/
  | boolean (b : Bool) : Same (.boolean b) (.boolean b)
  /-- Tuples. -/
  | tuple {vs ws : List (Value ℚ)} (h : equalAll vs ws = true) : Same (.tuple vs) (.tuple ws)
  /-- One function. -/
  | closure {c d : Closure ℚ} (h : c.serial = d.serial) : Same (.closure c) (.closure d)
  /-- The value of statements without a value. -/
  | unit : Same .unit .unit

namespace Value

variable {u u' v v' : Value ℚ}

/-- Canonical values that are equal, by their parts. -/
theorem Same.of_equal (hu : u.Canonical) (hv : v.Canonical) (h : u.equal v = true) : u.Same v := by
  cases u <;> cases v <;> simp only [equal, Bool.false_eq_true] at h
  case scalar.scalar => exact .scalar (.of_equal hu.of_scalar hv.of_scalar h)
  case matrix.matrix => exact .matrix (.of_equal hu.of_matrix hv.of_matrix h)
  case boolean.boolean a b =>
    rw [beq_iff_eq.mp h]
    exact .boolean b
  case tuple.tuple => exact .tuple h
  case closure.closure => exact .closure (beq_iff_eq.mp h)
  case unit.unit => exact .unit

/-- Values whose parts are equal are equal. -/
theorem Same.equal (h : u.Same v) : u.equal v = true := by
  rw [Value.equal.eq_def]
  cases h with
  | scalar h => exact h.equal
  | matrix h => exact h.equal
  | boolean b => exact beq_self_eq_true b
  | tuple h => exact h
  | closure h => exact beq_iff_eq.mpr h
  | unit => rfl

/-- Operators with a meaning give equal values for equal operands, or fail for both. -/
theorem Same.operate (op : BinaryOp) (hu : u.Same u') (hv : v.Same v') :
    FailAlike Same (operate op u v) (operate op u' v') := by
  cases op with
  | add =>
    cases hu with
    | scalar hs =>
      cases hv with
      | scalar ht => exact .ok (.scalar (hs.add ht))
      | _ => exact .error _ _
    | matrix hm =>
      cases hv with
      | matrix hn => exact (hm.add hn).map .matrix
      | _ => exact .error _ _
    | _ => exact .error _ _
  | sub =>
    cases hu with
    | scalar hs =>
      cases hv with
      | scalar ht => exact .ok (.scalar (hs.add ht.neg))
      | _ => exact .error _ _
    | matrix hm =>
      cases hv with
      | matrix hn => exact (hm.add (.scale (Scalar.same_number (-1)) hn)).map .matrix
      | _ => exact .error _ _
    | _ => exact .error _ _
  | mul =>
    cases hu with
    | scalar hs =>
      cases hv with
      | scalar ht => exact .ok (.scalar (hs.mul ht))
      | matrix hn => exact .ok (.matrix (.scale hs hn))
      | _ => exact .error _ _
    | matrix hm =>
      cases hv with
      | scalar ht => exact .ok (.matrix (.scale ht hm))
      | matrix hn => exact (hm.mul hn).map .matrix
      | _ => exact .error _ _
    | _ => exact .error _ _
  | div =>
    cases hu with
    | scalar hs =>
      cases hv with
      | scalar ht => exact (hs.div ht).map .scalar
      | _ => exact .error _ _
    | _ => exact .error _ _
  | tensor =>
    cases hu with
    | matrix hm =>
      cases hv with
      | matrix hn => exact .ok (.matrix (hm.tensor hn))
      | _ => exact .error _ _
    | _ => exact .error _ _
  | and =>
    cases hu with
    | boolean a =>
      cases hv with
      | boolean b => exact .ok (.boolean (a && b))
      | _ => exact .error _ _
    | _ => exact .error _ _
  | or =>
    cases hu with
    | boolean a =>
      cases hv with
      | boolean b => exact .ok (.boolean (a || b))
      | _ => exact .error _ _
    | _ => exact .error _ _

/-- Unary operators give equal values for equal operands, or fail for both. -/
theorem Same.operateUnary (op : UnaryOp) (hv : v.Same v') :
    FailAlike Same (operateUnary op v) (operateUnary op v') := by
  cases op with
  | neg =>
    cases hv with
    | scalar hs => exact .ok (.scalar hs.neg)
    | matrix hm => exact .ok (.matrix (.scale (Scalar.same_number (-1)) hm))
    | _ => exact .error _ _
  | transpose =>
    cases hv with
    | matrix hm => exact .ok (.matrix hm.transpose)
    | _ => exact .error _ _
  | not =>
    cases hv with
    | boolean b => exact .ok (.boolean !b)
    | _ => exact .error _ _

end Value

/-- Operators respect equality. Over the rationals, for canonical values that are equal in
pairs, in whichever way each of them is written: every binary operator and every unary operator
fails for the one operands exactly when it fails for the others, and if it gives values, they are
equal. -/
theorem operators_respect_equality (u u' v v' : Value ℚ) (hu : u.Canonical) (hu' : u'.Canonical)
    (hv : v.Canonical) (hv' : v'.Canonical) (huu' : u.equal u' = true)
    (hvv' : v.equal v' = true) :
    (∀ symbol : Text,
      ((∃ fault, u.binary symbol v = .error fault) ↔
        ∃ fault, u'.binary symbol v' = .error fault) ∧
      ∀ w w' : Value ℚ, u.binary symbol v = .ok w → u'.binary symbol v' = .ok w' →
        w.equal w' = true) ∧
    ∀ symbol : Text,
      ((∃ fault, Value.unary symbol u = .error fault) ↔
        ∃ fault, Value.unary symbol u' = .error fault) ∧
      ∀ w w' : Value ℚ, Value.unary symbol u = .ok w → Value.unary symbol u' = .ok w' →
        w.equal w' = true := by
  have hleft := Value.Same.of_equal hu hu' huu'
  have hright := Value.Same.of_equal hv hv' hvv'
  have hbinary (symbol : Text) :
      FailAlike Value.Same (u.binary symbol v) (u'.binary symbol v') := by
    unfold Value.binary
    cases BinaryOp.ofSymbol? symbol with
    | none => exact .error _ _
    | some op => exact hleft.operate op hright
  have hunary (symbol : Text) :
      FailAlike Value.Same (Value.unary symbol u) (Value.unary symbol u') := by
    unfold Value.unary
    cases UnaryOp.ofSymbol? symbol with
    | none => exact .error _ _
    | some op => exact hleft.operateUnary op
  exact ⟨fun symbol => ⟨(hbinary symbol).error_iff, fun w w' h h' =>
      ((hbinary symbol).related h h').equal⟩,
    fun symbol => ⟨(hunary symbol).error_iff, fun w w' h h' =>
      ((hunary symbol).related h h').equal⟩⟩

/-- A term against the list of that term alone, with an exponent written in both ways too, and zero
with a power left against the empty list: neither can be divided by zero, and their products are
equal. -/
theorem operators_respect_forms_of_a_power :
    let n : Term ℚ := .named "n"
    let t : Term ℚ := ⟨2, true, [⟨"x", .term n⟩]⟩
    let t' : Term ℚ := ⟨2, true, [⟨"x", .sum [n]⟩]⟩
    let u : Value ℚ := .scalar (.poly (.term t))
    let u' : Value ℚ := .scalar (.poly (.sum [t']))
    let v : Value ℚ := .scalar (.poly (.term ⟨0, false, [⟨"x", .term n⟩]⟩))
    let v' : Value ℚ := .scalar (.poly (.sum []))
    u.Canonical ∧ u'.Canonical ∧ v.Canonical ∧ v'.Canonical ∧
    u.equal u' = true ∧ v.equal v' = true ∧
    (∃ fault, u.binary "/" v = .error fault) ∧ (∃ fault, u'.binary "/" v' = .error fault) ∧
    ∃ w w', u.binary "*" u = .ok w ∧ u'.binary "*" u' = .ok w' ∧ w.equal w' = true := by
  intro n t t' u u' v v'
  have hone : Magnitude.isZero (1 : ℚ) = false := by simp
  have hn : n.Canonical := Term.named_canonical hone _
  have ht' : t'.Canonical := by
    refine .intro (List.pairwise_singleton _ _) (List.forall_mem_singleton.mpr ?_)
      (List.forall_mem_singleton.mpr (by simp))
    exact .sum (List.forall_mem_singleton.mpr hn) (List.forall_mem_singleton.mpr hone)
      (List.pairwise_singleton _ _) (List.pairwise_singleton _ _)
  have hu : u.Canonical := .scalar (Poly.Canonical.term (Term.single_canonical _ _ _ hn hone))
  have hu' : u'.Canonical := by
    have hnonzero : t'.isZero = false := by simp [t', Term.isZero]
    exact .scalar (Poly.Canonical.sum (List.forall_mem_singleton.mpr ht')
      (List.forall_mem_singleton.mpr hnonzero) (List.pairwise_singleton _ _)
      (List.pairwise_singleton _ _))
  have hv : v.Canonical := .scalar (Poly.Canonical.term (Term.single_canonical _ _ _ hn hone))
  have hv' : v'.Canonical := .scalar (Poly.Canonical.sum (List.forall_mem_nil _)
    (List.forall_mem_nil _) .nil .nil)
  have huu' : u.equal u' = true := by decide +kernel
  have hvv' : v.equal v' = true := by decide +kernel
  have hquotient := (operators_respect_equality u u' v v' hu hu' hv hv' huu' hvv').1 "/"
  have hproduct := (operators_respect_equality u u' u u' hu hu' hu hu' huu' huu').1 "*"
  have hfault : ∃ fault, u.binary "/" v = .error fault := ⟨_, rfl⟩
  exact ⟨hu, hu', hv, hv', huu', hvv', hfault, hquotient.1.mp hfault, _, _, rfl, rfl,
    hproduct.2 _ _ rfl rfl⟩

end SymCalc
