import Mathlib
import SymCalc.Proofs.CanonicalArithmetic
import SymCalc.Proofs.FullMatrices
import SymCalc.Proofs.Nodes
import SymCalc.Value.Operation

/-!
# Operators keep values canonical

A fraction, a matrix, a tuple or a function is canonical when its parts are; a matrix is
moreover a full rectangle with at least one cell. Main statements: the binary and the unary
operators applied to canonical values give a canonical value whenever they give one.
-/

namespace SymCalc

variable {M : Type} [Magnitude M]

/-- The numerator and the denominator are canonical. -/
structure Fraction.Canonical (f : Fraction M) : Prop where
  /-- The numerator is canonical. -/
  num : f.num.Canonical
  /-- The denominator is canonical. -/
  den : f.den.Canonical

/-- A sum of terms or a fraction that is canonical. -/
def Scalar.Canonical : Scalar M → Prop
  | .poly p => p.Canonical
  | .fraction f => f.Canonical

/-- A number is canonical. -/
theorem Scalar.number_canonical (m : M) : (Scalar.number m).Canonical :=
  Poly.Canonical.term (.of_powers_nil rfl)

/-- Zero is canonical. -/
theorem Scalar.zero_canonical : (Scalar.zero : Scalar M).Canonical := Poly.zero_canonical

variable [LawfulMagnitude M]

/-- The quotient of two canonical sums is canonical. -/
theorem Poly.div_canonical {p q : Poly M} {s : Scalar M} (hp : p.Canonical) (hq : q.Canonical)
    (h : p.div q = .ok s) : s.Canonical := by
  rw [Poly.div] at h
  split at h
  · cases h
    exact ⟨hp, hq⟩
  · rename_i t ht
    split at h
    · cases h
    · cases h
      exact divTerm_canonical hp (asTerm?_canonical hq ht)

namespace Fraction

variable {f g : Fraction M} {p : Poly M}

/-- The sum of two canonical fractions is canonical. -/
theorem add_canonical (hf : f.Canonical) (hg : g.Canonical) : (f.add g).Canonical := by
  rw [add]
  split
  · exact ⟨Poly.add_canonical hf.num hg.num, hf.den⟩
  · have hleft := Poly.mul_canonical hf.num hg.den
    have hright := Poly.mul_canonical hg.num hf.den
    exact ⟨Poly.add_canonical hleft hright, Poly.mul_canonical hf.den hg.den⟩

/-- The sum of a canonical fraction and a canonical sum of terms is canonical. -/
theorem addPoly_canonical (hf : f.Canonical) (hp : p.Canonical) : (f.addPoly p).Canonical :=
  ⟨Poly.add_canonical hf.num (Poly.mul_canonical hp hf.den), hf.den⟩

/-- The product of two canonical fractions is canonical. -/
theorem mul_canonical (hf : f.Canonical) (hg : g.Canonical) : (f.mul g).Canonical :=
  ⟨Poly.mul_canonical hf.num hg.num, Poly.mul_canonical hf.den hg.den⟩

/-- The quotient of two canonical fractions is canonical, whichever parts they share. -/
theorem div_canonical {s : Scalar M} (hf : f.Canonical) (hg : g.Canonical)
    (h : f.div g = .ok s) : s.Canonical := by
  rw [div] at h
  split at h
  · cases h
    exact Scalar.number_canonical _
  · split at h
    · exact Poly.div_canonical hg.den hf.den h
    · split at h
      · exact Poly.div_canonical hf.num hg.num h
      · cases h
        exact mul_canonical hf ⟨hg.den, hg.num⟩

end Fraction

namespace Scalar

variable {s t u : Scalar M}

/-- The sum of two canonical scalars is canonical. -/
theorem add_canonical (hs : s.Canonical) (ht : t.Canonical) : (s.add t).Canonical := by
  cases s with
  | poly p =>
    cases t with
    | poly q => exact Poly.add_canonical hs ht
    | fraction g => exact Fraction.addPoly_canonical ht hs
  | fraction f =>
    cases t with
    | poly q => exact Fraction.addPoly_canonical hs ht
    | fraction g => exact Fraction.add_canonical hs ht

/-- The product of two canonical scalars is canonical. -/
theorem mul_canonical (hs : s.Canonical) (ht : t.Canonical) : (s.mul t).Canonical := by
  cases s with
  | poly p =>
    cases t with
    | poly q => exact Poly.mul_canonical hs ht
    | fraction g => exact ⟨Poly.mul_canonical ht.num hs, ht.den⟩
  | fraction f =>
    cases t with
    | poly q => exact ⟨Poly.mul_canonical hs.num ht, hs.den⟩
    | fraction g => exact Fraction.mul_canonical hs ht

/-- The quotient of two canonical scalars is canonical. -/
theorem div_canonical (hs : s.Canonical) (ht : t.Canonical) (h : s.div t = .ok u) :
    u.Canonical := by
  cases s with
  | poly p =>
    cases t with
    | poly q => exact Poly.div_canonical hs ht h
    | fraction g =>
      cases h
      exact ⟨Poly.mul_canonical hs ht.den, ht.num⟩
  | fraction f =>
    cases t with
    | poly q =>
      cases h
      exact ⟨hs.num, Poly.mul_canonical hs.den ht⟩
    | fraction g => exact Fraction.div_canonical hs ht h

/-- The negative of a canonical scalar is canonical. -/
theorem neg_canonical (hs : s.Canonical) : s.neg.Canonical := by
  cases s with
  | poly p => exact Poly.neg_canonical hs
  | fraction f => exact ⟨Poly.neg_canonical hs.num, hs.den⟩

end Scalar

/-- A full rectangle of canonical scalars. -/
structure Matrix.Canonical (m : Matrix M) : Prop extends m.Full where
  /-- Every cell is canonical. -/
  cells : ∀ row ∈ m.rows, ∀ s ∈ row, s.Canonical

namespace Matrix

variable {m n o : Matrix M} {s : Scalar M}

omit [LawfulMagnitude M] in
/-- A matrix whose cells are given by row and column is canonical if the cells are. -/
theorem tabulate_canonical {height width : Nat} {f : Nat → Nat → Scalar M} (hh : 0 < height)
    (hw : 0 < width) (hf : ∀ i j, (f i j).Canonical) : (tabulate height width f).Canonical := by
  refine ⟨tabulate_full hh hw f, fun row hrow s hs => ?_⟩
  obtain ⟨i, _, rfl⟩ := List.mem_map.mp hrow
  obtain ⟨j, _, rfl⟩ := List.mem_map.mp hs
  exact hf i j

omit [LawfulMagnitude M] in
/-- The cells of a canonical matrix are canonical. -/
theorem cell_canonical (hm : m.Canonical) (i j : Nat) : (m.cell i j).Canonical := by
  unfold cell cell?
  cases hrow : m.rows[i]? with
  | none => exact Scalar.zero_canonical
  | some row =>
    have hmem := List.mem_of_getElem? hrow
    cases hcell : row[j]? with
    | none =>
      rw [Option.bind_some, hcell]
      exact Scalar.zero_canonical
    | some s =>
      rw [Option.bind_some, hcell]
      exact hm.cells row hmem s (List.mem_of_getElem? hcell)

/-- The product of a row and a column of canonical matrices is canonical. -/
theorem dot_canonical (hm : m.Canonical) (hn : n.Canonical) (i j : Nat) :
    (m.dot n i j).Canonical := by
  have hfold : ∀ (ks : List Nat) (sum : Scalar M), sum.Canonical →
      (ks.foldl (fun sum k => sum.add ((m.cell i k).mul (n.cell k j))) sum).Canonical := by
    intro ks
    induction ks with
    | nil => exact fun sum hsum => hsum
    | cons k ks ih =>
      intro sum hsum
      have hterm := Scalar.mul_canonical (cell_canonical hm i k) (cell_canonical hn k j)
      exact ih _ (Scalar.add_canonical hsum hterm)
  exact hfold _ _ Scalar.zero_canonical

/-- The sum of two canonical matrices is canonical. -/
theorem add_canonical (hm : m.Canonical) (hn : n.Canonical) (h : m.add n = .ok o) :
    o.Canonical := by
  rw [add] at h
  split at h
  · cases h
    refine tabulate_canonical hm.height_pos hm.width_pos fun i j => ?_
    exact Scalar.add_canonical (cell_canonical hm i j) (cell_canonical hn i j)
  · cases h

/-- The product of two canonical matrices is canonical. -/
theorem mul_canonical (hm : m.Canonical) (hn : n.Canonical) (h : m.mul n = .ok o) :
    o.Canonical := by
  rw [mul] at h
  split at h
  · cases h
    exact tabulate_canonical hm.height_pos hn.width_pos (dot_canonical hm hn)
  · cases h

/-- The product of a canonical scalar and a canonical matrix is canonical. -/
theorem scale_canonical (hs : s.Canonical) (hm : m.Canonical) : (m.scale s).Canonical :=
  tabulate_canonical hm.height_pos hm.width_pos fun i j =>
    Scalar.mul_canonical hs (cell_canonical hm i j)

/-- The negative of a canonical matrix is canonical. -/
theorem neg_canonical (hm : m.Canonical) : m.neg.Canonical :=
  scale_canonical (Scalar.number_canonical _) hm

/-- The tensor product of two canonical matrices is canonical. -/
theorem tensor_canonical (hm : m.Canonical) (hn : n.Canonical) : (m.tensor n).Canonical := by
  refine tabulate_canonical (Nat.mul_pos hm.height_pos hn.height_pos)
    (Nat.mul_pos hm.width_pos hn.width_pos) fun i j => ?_
  exact Scalar.mul_canonical (cell_canonical hm _ _) (cell_canonical hn _ _)

omit [LawfulMagnitude M] in
/-- A canonical matrix with rows and columns exchanged is canonical. -/
theorem transpose_canonical (hm : m.Canonical) : m.transpose.Canonical :=
  tabulate_canonical hm.width_pos hm.height_pos fun i j => cell_canonical hm j i

omit [LawfulMagnitude M] in
/-- A matrix made of rows of canonical scalars is canonical. -/
theorem ofRows_canonical {rows : List (List (Scalar M))}
    (hrows : ∀ row ∈ rows, ∀ s ∈ row, s.Canonical) (h : ofRows rows = .ok m) : m.Canonical := by
  obtain ⟨rfl, hfull⟩ := full_of_ofRows h
  exact ⟨hfull, hrows⟩

end Matrix

/-- A constant all of whose parts are canonical. -/
inductive Constant.Canonical : Constant M → Prop where
  | scalar {s : Scalar M} (h : s.Canonical) : Canonical (.scalar s)
  | matrix {m : Matrix M} (h : m.Canonical) : Canonical (.matrix m)
  | boolean (b : Bool) : Canonical (.boolean b)
  | tuple {items : List (Constant M)} (h : ∀ c ∈ items, Canonical c) : Canonical (.tuple items)
  | unit : Canonical .unit

/-- The constant that stands at a node is canonical. -/
def Expr.CanonicalLiteral : Expr M → Prop
  | .literal _ c => c.Canonical
  | _ => True

/-- A value all of whose parts are canonical. The parts of a function are the values it has
captured and the constants of its body. -/
inductive Value.Canonical : Value M → Prop where
  | scalar {s : Scalar M} (h : s.Canonical) : Canonical (.scalar s)
  | matrix {m : Matrix M} (h : m.Canonical) : Canonical (.matrix m)
  | boolean (b : Bool) : Canonical (.boolean b)
  | tuple {items : List (Value M)} (h : ∀ v ∈ items, Canonical v) : Canonical (.tuple items)
  | closure {c : Closure M} (captured : ∀ b ∈ c.captured, Canonical b.2)
      (body : ∀ e ∈ c.body, e.Everywhere Expr.CanonicalLiteral) : Canonical (.closure c)
  | unit : Canonical .unit

/-- Every name is bound to a canonical value. -/
def Bindings.Canonical (bs : Bindings M) : Prop := ∀ b ∈ bs, b.2.Canonical

omit [Magnitude M] [LawfulMagnitude M] in
/-- The values of constants are those of their members. -/
theorem Constant.values_eq_map (cs : List (Constant M)) :
    Constant.value.values cs = cs.map Constant.value := by
  induction cs with
  | nil => rfl
  | cons c cs ih => rw [value.values, List.map_cons, ih]

omit [LawfulMagnitude M] in
/-- The value of a canonical constant is canonical. -/
theorem Constant.value_canonical {c : Constant M} (hc : c.Canonical) : c.value.Canonical := by
  induction hc with
  | scalar h => exact .scalar h
  | matrix h => exact .matrix h
  | boolean b => exact .boolean b
  | tuple _ ih =>
    rw [value, values_eq_map]
    exact .tuple (List.forall_mem_map.mpr ih)
  | unit => exact .unit

namespace Value

variable {u v w : Value M}

omit [LawfulMagnitude M] in
/-- A scalar that is canonical as a value is canonical. -/
theorem Canonical.of_scalar {s : Scalar M} (h : (Value.scalar s).Canonical) : s.Canonical := by
  cases h with
  | scalar h => exact h

omit [LawfulMagnitude M] in
/-- A matrix that is canonical as a value is canonical. -/
theorem Canonical.of_matrix {m : Matrix M} (h : (Value.matrix m).Canonical) : m.Canonical := by
  cases h with
  | matrix h => exact h

omit [LawfulMagnitude M] in
/-- A result that is a matrix as a value is canonical if the matrix is. -/
theorem canonical_of_map_matrix {x : Except Fault (Matrix M)}
    (hx : ∀ m, x = .ok m → m.Canonical) (h : x.map Value.matrix = .ok w) : w.Canonical := by
  cases x with
  | error fault => cases h
  | ok m =>
    cases h
    exact .matrix (hx m rfl)

omit [LawfulMagnitude M] in
/-- A result that is a scalar as a value is canonical if the scalar is. -/
theorem canonical_of_map_scalar {x : Except Fault (Scalar M)}
    (hx : ∀ s, x = .ok s → s.Canonical) (h : x.map Value.scalar = .ok w) : w.Canonical := by
  cases x with
  | error fault => cases h
  | ok s =>
    cases h
    exact .scalar (hx s rfl)

/-- An operator applied to canonical values gives a canonical value. -/
theorem operate_canonical {op : BinaryOp} (hu : u.Canonical) (hv : v.Canonical)
    (h : operate op u v = .ok w) : w.Canonical := by
  unfold operate at h
  split at h
  · cases h
    exact .scalar (Scalar.add_canonical hu.of_scalar hv.of_scalar)
  · exact canonical_of_map_matrix (fun _ => Matrix.add_canonical hu.of_matrix hv.of_matrix) h
  · cases h
    exact .scalar (Scalar.add_canonical hu.of_scalar (Scalar.neg_canonical hv.of_scalar))
  · have hneg := Matrix.neg_canonical hv.of_matrix
    exact canonical_of_map_matrix (fun _ => Matrix.add_canonical hu.of_matrix hneg) h
  · cases h
    exact .scalar (Scalar.mul_canonical hu.of_scalar hv.of_scalar)
  · cases h
    exact .matrix (Matrix.scale_canonical hu.of_scalar hv.of_matrix)
  · cases h
    exact .matrix (Matrix.scale_canonical hv.of_scalar hu.of_matrix)
  · exact canonical_of_map_matrix (fun _ => Matrix.mul_canonical hu.of_matrix hv.of_matrix) h
  · exact canonical_of_map_scalar (fun _ => Scalar.div_canonical hu.of_scalar hv.of_scalar) h
  · cases h
    exact .matrix (Matrix.tensor_canonical hu.of_matrix hv.of_matrix)
  · cases h
    exact .boolean _
  · cases h
    exact .boolean _
  · cases h

/-- The operator that a symbol stands for, applied to canonical values, gives a canonical
value. -/
theorem binary_canonical {symbol : Text} (hu : u.Canonical) (hv : v.Canonical)
    (h : u.binary symbol v = .ok w) : w.Canonical := by
  rw [binary] at h
  split at h
  · exact operate_canonical hu hv h
  · cases h

/-- The prefix operator that a symbol stands for, applied to a canonical value, gives a
canonical value. -/
theorem unary_canonical {symbol : Text} (hv : v.Canonical) (h : unary symbol v = .ok w) :
    w.Canonical := by
  unfold unary operateUnary at h
  split at h
  · split at h
    · cases h
      exact .scalar (Scalar.neg_canonical hv.of_scalar)
    · cases h
      exact .matrix (Matrix.neg_canonical hv.of_matrix)
    · cases h
      exact .matrix (Matrix.transpose_canonical hv.of_matrix)
    · cases h
      exact .boolean _
    · cases h
  · cases h

end Value

end SymCalc
