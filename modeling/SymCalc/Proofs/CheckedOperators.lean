import Mathlib
import SymCalc.Proofs.FullMatrices
import SymCalc.Proofs.WellFormed
import SymCalc.Value.Operation

/-!
# Operators that read only cells that exist

The matrix operations take a cell that does not exist for zero. Here the operators are given
once more so that they stop at the first cell that does not exist. Main statements: applied to
full rectangles the operators never stop in this way, and give what they give without the check;
and the matrices that they give are full rectangles again.
-/

namespace SymCalc

variable {M : Type}

namespace Matrix

variable [Magnitude M] {m n : Matrix M}

omit [Magnitude M] in
/-- Results that are all there are collected. -/
theorem mapM_range_eq_some {α : Type} {count : Nat} {f : Nat → Option α} {g : Nat → α}
    (h : ∀ i < count, f i = some (g i)) :
    (List.range count).mapM f = some ((List.range count).map g) := by
  have hlist : ∀ is : List Nat, (∀ i ∈ is, f i = some (g i)) → is.mapM f = some (is.map g) := by
    intro is
    induction is with
    | nil => exact fun _ => rfl
    | cons i is ih =>
      intro his
      obtain ⟨hi, hrest⟩ := List.forall_mem_cons.mp his
      rw [List.mapM_cons, hi, ih hrest]
      rfl
  exact hlist _ fun i hi => h i (List.mem_range.mp hi)

/-- The matrix whose cells are given by row and column, if all of them are there. -/
def tabulate? (height width : Nat) (f : Nat → Nat → Option (Scalar M)) : Option (Matrix M) :=
  ((List.range height).mapM fun i => (List.range width).mapM (f i)).map (⟨·⟩)

omit [Magnitude M] in
/-- A matrix is tabulated if all cells are there. -/
theorem tabulate?_eq_some {height width : Nat} {f : Nat → Nat → Option (Scalar M)}
    {g : Nat → Nat → Scalar M} (h : ∀ i < height, ∀ j < width, f i j = some (g i j)) :
    tabulate? height width f = some (tabulate height width g) := by
  have hrows := mapM_range_eq_some (g := fun i => (List.range width).map (g i)) fun i hi =>
    mapM_range_eq_some (h i hi)
  rw [tabulate?, hrows]
  rfl

/-- Rows and columns exchanged. -/
def transpose? (m : Matrix M) : Option (Matrix M) :=
  tabulate? m.width m.height fun i j => m.cell? j i

/-- The sum of two matrices of one shape. -/
def add? (m n : Matrix M) : Option (Except Fault (Matrix M)) :=
  if m.shape = n.shape then
    (tabulate? m.height m.width fun i j =>
      return (← m.cell? i j).add (← n.cell? i j)).map .ok
  else some (.error (.shapeMismatch m.shape n.shape))

/-- The sum of the products of a row of the one matrix with a row of the other. -/
def dotRows? (m t : Matrix M) (i j : Nat) : Option (Scalar M) :=
  (List.range m.width).foldlM
    (fun sum k => return sum.add ((← m.cell? i k).mul (← t.cell? j k))) .zero

/-- The matrix product, with the columns of the right factor read as rows of its transpose. -/
def mul? (m n : Matrix M) : Option (Except Fault (Matrix M)) :=
  if m.width = n.height then do
    let t ← n.transpose?
    return .ok (← tabulate? m.height n.width (m.dotRows? t))
  else some (.error (.productMismatch m.shape n.shape))

/-- Every cell multiplied by a scalar, which is the left factor. -/
def scale? (s : Scalar M) (m : Matrix M) : Option (Matrix M) :=
  tabulate? m.height m.width fun i j => return s.mul (← m.cell? i j)

/-- The matrix of blocks, each a cell of the one matrix times the other matrix. -/
def tensor? (m n : Matrix M) : Option (Matrix M) :=
  tabulate? (m.height * n.height) (m.width * n.width) fun i j =>
    return (← m.cell? (i / n.height) (j / n.width)).mul (← n.cell? (i % n.height) (j % n.width))

/-- A full rectangle is transposed within its cells. -/
theorem Full.transpose?_eq_some (hm : m.Full) : m.transpose? = some m.transpose :=
  tabulate?_eq_some fun _ hi _ hj => hm.cell?_eq_some hj hi

/-- The transpose of a full rectangle is one. -/
theorem Full.transpose (hm : m.Full) : m.transpose.Full :=
  tabulate_full hm.width_pos hm.height_pos _

/-- Full rectangles of one shape are added within their cells, and the sum is one. -/
theorem Full.add?_eq_some (hm : m.Full) (hn : n.Full) :
    m.add? n = some (m.add n) ∧ ∀ r, m.add n = .ok r → r.Full := by
  unfold add? add
  by_cases hshape : m.shape = n.shape
  · rw [if_pos hshape, if_pos hshape]
    have hheight : m.height = n.height := congrArg Shape.rows hshape
    have hwidth : m.width = n.width := congrArg Shape.cols hshape
    have hcells : ∀ i < m.height, ∀ j < m.width,
        (do return (← m.cell? i j).add (← n.cell? i j) : Option (Scalar M)) =
          some ((m.cell i j).add (n.cell i j)) := by
      intro i hi j hj
      rw [hm.cell?_eq_some hi hj, hn.cell?_eq_some (hheight ▸ hi) (hwidth ▸ hj)]
      rfl
    rw [tabulate?_eq_some hcells]
    refine ⟨rfl, fun r hr => ?_⟩
    cases hr
    exact tabulate_full hm.height_pos hm.width_pos _
  · rw [if_neg hshape, if_neg hshape]
    exact ⟨rfl, fun r hr => nomatch hr⟩

/-- The rows of the one full rectangle and the columns of the other are multiplied within their
cells. -/
theorem Full.dotRows?_eq_some (hm : m.Full) (hn : n.Full) (hmatch : m.width = n.height) {i j : Nat}
    (hi : i < m.height) (hj : j < n.width) : m.dotRows? n.transpose i j = some (m.dot n i j) := by
  have hfold : ∀ (ks : List Nat) (sum : Scalar M), (∀ k ∈ ks, k < m.width) →
      ks.foldlM (fun sum k => return sum.add ((← m.cell? i k).mul (← n.transpose.cell? j k))) sum =
        some (ks.foldl (fun sum k => sum.add ((m.cell i k).mul (n.cell k j))) sum) := by
    intro ks
    induction ks with
    | nil => exact fun _ _ => rfl
    | cons k ks ih =>
      intro sum hks
      obtain ⟨hk, hrest⟩ := List.forall_mem_cons.mp hks
      have hkn : k < n.height := hmatch ▸ hk
      have hcolumn : n.transpose.cell? j k = some (n.cell k j) := by
        have hheight : n.transpose.height = n.width := height_tabulate _ _ _
        have hwidth : n.transpose.width = n.height := width_tabulate hn.width_pos _ _
        rw [hn.transpose.cell?_eq_some (hheight ▸ hj) (hwidth ▸ hkn)]
        exact congrArg some (cell_tabulate _ hj hkn)
      rw [List.foldlM_cons, hm.cell?_eq_some hi hk, hcolumn]
      exact ih _ hrest
  exact hfold _ _ fun k hk => List.mem_range.mp hk

/-- Full rectangles that match are multiplied within their cells, and the product is one. -/
theorem Full.mul?_eq_some (hm : m.Full) (hn : n.Full) :
    m.mul? n = some (m.mul n) ∧ ∀ r, m.mul n = .ok r → r.Full := by
  unfold mul? mul
  by_cases hmatch : m.width = n.height
  · rw [if_pos hmatch, if_pos hmatch, hn.transpose?_eq_some]
    have hcells : ∀ i < m.height, ∀ j < n.width,
        m.dotRows? n.transpose i j = some (m.dot n i j) :=
      fun i hi j hj => hm.dotRows?_eq_some hn hmatch hi hj
    refine ⟨?_, fun r hr => ?_⟩
    · rw [Option.bind_eq_bind, Option.bind_some, tabulate?_eq_some hcells]
      rfl
    · cases hr
      exact tabulate_full hm.height_pos hn.width_pos _
  · rw [if_neg hmatch, if_neg hmatch]
    exact ⟨rfl, fun r hr => nomatch hr⟩

/-- A full rectangle is scaled within its cells. -/
theorem Full.scale?_eq_some (hm : m.Full) (s : Scalar M) : m.scale? s = some (m.scale s) := by
  refine tabulate?_eq_some fun i hi j hj => ?_
  rw [hm.cell?_eq_some hi hj]
  rfl

/-- A scaled full rectangle is one. -/
theorem Full.scale (hm : m.Full) (s : Scalar M) : (m.scale s).Full :=
  tabulate_full hm.height_pos hm.width_pos _

/-- The blocks of two full rectangles are read within their cells. -/
theorem Full.tensor?_eq_some (hm : m.Full) (hn : n.Full) : m.tensor? n = some (m.tensor n) := by
  refine tabulate?_eq_some fun i hi j hj => ?_
  have hrow := Nat.div_lt_of_lt_mul (Nat.mul_comm m.height n.height ▸ hi)
  have hcolumn := Nat.div_lt_of_lt_mul (Nat.mul_comm m.width n.width ▸ hj)
  have hblockRow := Nat.mod_lt i hn.height_pos
  have hblockColumn := Nat.mod_lt j hn.width_pos
  rw [hm.cell?_eq_some hrow hcolumn, hn.cell?_eq_some hblockRow hblockColumn]
  rfl

/-- The tensor product of full rectangles is one. -/
theorem Full.tensor (hm : m.Full) (hn : n.Full) : (m.tensor n).Full :=
  tabulate_full (Nat.mul_pos hm.height_pos hn.height_pos) (Nat.mul_pos hm.width_pos hn.width_pos) _

end Matrix

namespace Value

variable [Magnitude M]

/-- Applies a binary operator with a meaning, and stops at a cell that does not exist. -/
def operate? (op : BinaryOp) (u v : Value M) : Option (Except Fault (Value M)) :=
  match op, u, v with
  | .add, .matrix m, .matrix n => return (← m.add? n).map .matrix
  | .sub, .matrix m, .matrix n => return (← m.add? (← n.scale? (.number (-1)))).map .matrix
  | .mul, .scalar s, .matrix n => return .ok (.matrix (← n.scale? s))
  | .mul, .matrix m, .scalar t => return .ok (.matrix (← m.scale? t))
  | .mul, .matrix m, .matrix n => return (← m.mul? n).map .matrix
  | .tensor, .matrix m, .matrix n => return .ok (.matrix (← m.tensor? n))
  | op, u, v => some (operate op u v)

/-- Applies the binary operator that a symbol stands for, and stops at a cell that does not
exist. -/
def binary? (u : Value M) (symbol : Text) (v : Value M) : Option (Except Fault (Value M)) :=
  match BinaryOp.ofSymbol? symbol with
  | some op => operate? op u v
  | none => some (.error (.unknownBinary symbol))

/-- Applies a unary operator, and stops at a cell that does not exist. -/
def operateUnary? (op : UnaryOp) (v : Value M) : Option (Except Fault (Value M)) :=
  match op, v with
  | .neg, .matrix m => return .ok (.matrix (← m.scale? (.number (-1))))
  | .transpose, .matrix m => return .ok (.matrix (← m.transpose?))
  | op, v => some (operateUnary op v)

/-- Applies the unary operator that a symbol stands for, and stops at a cell that does not
exist. -/
def unary? (symbol : Text) (v : Value M) : Option (Except Fault (Value M)) :=
  match UnaryOp.ofSymbol? symbol with
  | some op => operateUnary? op v
  | none => some (.error (.unknownUnary symbol))

end Value

/-- A value that is a full rectangle if it is a matrix. -/
def Value.Rectangular : Value M → Prop
  | .matrix m => m.Full
  | _ => True

/-- A rectangular matrix is a full rectangle. -/
theorem Value.Rectangular.full {m : Matrix M} (h : (Value.matrix m).Rectangular) : m.Full := h

/-- Binary operators on full rectangles read only cells that exist. -/
theorem Value.Rectangular.operate?_eq_some [Magnitude M] {u v : Value M} (op : BinaryOp)
    (hu : u.Rectangular) (hv : v.Rectangular) : operate? op u v = some (operate op u v) := by
  unfold operate?
  split
  · rw [(hu.full.add?_eq_some hv.full).1]
    rfl
  · rw [hv.full.scale?_eq_some]
    have hneg := (hu.full.add?_eq_some (hv.full.scale (.number (-1)))).1
    rw [Option.bind_eq_bind, Option.bind_some, hneg]
    rfl
  · rw [hv.full.scale?_eq_some]
    rfl
  · rw [hu.full.scale?_eq_some]
    rfl
  · rw [(hu.full.mul?_eq_some hv.full).1]
    rfl
  · rw [hu.full.tensor?_eq_some hv.full]
    rfl
  · rfl

/-- A value whose matrices are full rectangles and whose functions have well-formed bodies. -/
inductive Value.Sound [Numeric M] : Value M → Prop where
  | scalar (s : Scalar M) : Sound (.scalar s)
  | matrix {m : Matrix M} (full : m.Full) : Sound (.matrix m)
  | boolean (b : Bool) : Sound (.boolean b)
  | tuple {vs : List (Value M)} (items : ∀ v ∈ vs, v.Sound) : Sound (.tuple vs)
  | closure {c : Closure M} (captured : ∀ b ∈ c.captured, b.2.Sound)
      (body : ∀ e ∈ c.body, e.WellFormed) : Sound (.closure c)
  | unit : Sound .unit

/-- A fault that the text of a program can lead to. Rows of a matrix that do not fit together
and unknown prefix operators are found when the text is read, and of the binary operators only
the reserved ones have no meaning. -/
structure Fault.Ordinary (fault : Fault) : Prop where
  /-- It is not a matrix without cells. -/
  ne_empty : fault ≠ .emptyMatrix
  /-- It is not a matrix with rows of different lengths. -/
  ne_ragged : ∀ row got want, fault ≠ .raggedMatrix row got want
  /-- It is not a prefix operator without a meaning. -/
  ne_unary : ∀ symbol, fault ≠ .unknownUnary symbol
  /-- A binary operator without a meaning is a reserved one. -/
  reserved : ∀ symbol, fault = .unknownBinary symbol → symbol ∈ reservedOperators

/-- The result of an operator is a sound value or an ordinary fault. -/
def SoundResult [Numeric M] : Except Fault (Value M) → Prop
  | .ok w => w.Sound
  | .error fault => fault.Ordinary

/-- The only fault of a division is a divisor that is zero. -/
theorem Scalar.div_eq_error [Magnitude M] {s t : Scalar M} {fault : Fault}
    (h : s.div t = .error fault) : fault = .divisionByZero := by
  have hpoly {p q : Poly M} (h : p.div q = .error fault) : fault = .divisionByZero := by
    unfold Poly.div at h
    split at h
    · cases h
    · split at h
      · cases h
        rfl
      · cases h
  unfold Scalar.div at h
  split at h
  · exact hpoly h
  · cases h
  · cases h
  · unfold Fraction.div at h
    split at h
    · cases h
    · split at h
      · exact hpoly h
      · split at h
        · exact hpoly h
        · cases h

namespace Value

variable [Numeric M] {u v : Value M} {m n : Matrix M}

/-- A sound matrix is a full rectangle. -/
theorem Sound.full (h : (Value.matrix m).Sound) : m.Full := by
  cases h with
  | matrix full => exact full

/-- A sound value is rectangular. -/
theorem Sound.rectangular (h : u.Sound) : u.Rectangular := by
  cases h with
  | matrix full => exact full
  | _ => trivial

/-- Binary operators on sound values read only cells that exist. -/
theorem Sound.operate?_eq_some (op : BinaryOp) (hu : u.Sound) (hv : v.Sound) :
    operate? op u v = some (operate op u v) :=
  hu.rectangular.operate?_eq_some op hv.rectangular

/-- Unary operators on sound values read only cells that exist. -/
theorem Sound.operateUnary?_eq_some (op : UnaryOp) (hv : v.Sound) :
    operateUnary? op v = some (operateUnary op v) := by
  unfold operateUnary?
  split
  · rw [hv.full.scale?_eq_some]
    rfl
  · rw [hv.full.transpose?_eq_some]
    rfl
  · rfl

/-- A matrix operation gives a sound result if its faults are ordinary and its matrices full. -/
theorem soundResult_map_matrix {r : Except Fault (Matrix M)} (hok : ∀ m, r = .ok m → m.Full)
    (herror : ∀ fault, r = .error fault → fault.Ordinary) : SoundResult (r.map .matrix) := by
  cases r with
  | ok m => exact .matrix (hok m rfl)
  | error fault => exact herror fault rfl

/-- The faults of the sum of two matrices are ordinary. -/
theorem ordinary_of_add_eq_error {fault : Fault} (h : m.add n = .error fault) :
    fault.Ordinary := by
  unfold Matrix.add at h
  split at h
  · cases h
  · cases h
    exact ⟨nofun, nofun, nofun, nofun⟩

/-- The faults of the product of two matrices are ordinary. -/
theorem ordinary_of_mul_eq_error {fault : Fault} (h : m.mul n = .error fault) :
    fault.Ordinary := by
  unfold Matrix.mul at h
  split at h
  · cases h
  · cases h
    exact ⟨nofun, nofun, nofun, nofun⟩

/-- Binary operators on sound values have sound results. -/
theorem Sound.operate (op : BinaryOp) (hu : u.Sound) (hv : v.Sound) :
    SoundResult (operate op u v) := by
  unfold Value.operate
  split
  · exact .scalar _
  · exact soundResult_map_matrix (hu.full.add?_eq_some hv.full).2 fun _ => ordinary_of_add_eq_error
  · exact .scalar _
  · have hneg := hv.full.scale (.number (-1))
    exact soundResult_map_matrix (hu.full.add?_eq_some hneg).2 fun _ => ordinary_of_add_eq_error
  · exact .scalar _
  · exact .matrix (hv.full.scale _)
  · exact .matrix (hu.full.scale _)
  · exact soundResult_map_matrix (hu.full.mul?_eq_some hv.full).2 fun _ => ordinary_of_mul_eq_error
  · rename_i s t
    cases hdiv : s.div t with
    | ok r => exact .scalar r
    | error fault =>
      rw [Scalar.div_eq_error hdiv]
      exact ⟨nofun, nofun, nofun, nofun⟩
  · exact .matrix (hu.full.tensor hv.full)
  · exact .boolean _
  · exact .boolean _
  · exact ⟨nofun, nofun, nofun, nofun⟩

/-- Unary operators on sound values have sound results. -/
theorem Sound.operateUnary (op : UnaryOp) (hv : v.Sound) : SoundResult (operateUnary op v) := by
  unfold Value.operateUnary
  split
  · exact .scalar _
  · exact .matrix (hv.full.scale _)
  · exact .matrix hv.full.transpose
  · exact .boolean _
  · exact ⟨nofun, nofun, nofun, nofun⟩

/-- A binary operator with a priority has a meaning or is reserved. -/
theorem ofSymbol?_of_priority {symbol : Text} (h : (priority? symbol).isSome = true) :
    (BinaryOp.ofSymbol? symbol).isSome = true ∨ symbol ∈ reservedOperators := by
  have htable : ∀ p ∈ priorities, isBinaryOperator p.1 = true := by decide
  obtain ⟨p, hp, rfl⟩ : ∃ p ∈ priorities, p.1 = symbol := by
    rw [priority?, Option.isSome_map, List.find?_isSome] at h
    simpa using h
  refine (Bool.or_eq_true_iff.mp (htable p hp)).imp id fun hany => ?_
  obtain ⟨s, hs, heq⟩ := List.any_eq_true.mp hany
  exact of_decide_eq_true heq ▸ hs

/-- A binary operator with a priority, applied to sound values, reads only cells that exist and
has a sound result. -/
theorem Sound.binary {symbol : Text} (h : (priority? symbol).isSome = true) (hu : u.Sound)
    (hv : v.Sound) : u.binary? symbol v = some (u.binary symbol v) ∧
      SoundResult (u.binary symbol v) := by
  unfold Value.binary? Value.binary
  cases hop : BinaryOp.ofSymbol? symbol with
  | some op => exact ⟨hu.operate?_eq_some op hv, hu.operate op hv⟩
  | none =>
    have hreserved : symbol ∈ reservedOperators := by
      refine (ofSymbol?_of_priority h).resolve_left ?_
      rw [hop]
      exact nofun
    refine ⟨rfl, nofun, nofun, nofun, fun other hother => ?_⟩
    cases hother
    exact hreserved

/-- A prefix operator, applied to a sound value, reads only cells that exist and has a sound
result. -/
theorem Sound.unary {symbol : Text} (h : isUnaryOperator symbol = true) (hv : v.Sound) :
    unary? symbol v = some (unary symbol v) ∧ SoundResult (unary symbol v) := by
  have htable : ∀ s ∈ unaryOperators, (UnaryOp.ofSymbol? s).isSome = true := by decide
  have hmem : symbol ∈ unaryOperators := by
    obtain ⟨s, hs, heq⟩ := List.any_eq_true.mp h
    exact of_decide_eq_true heq ▸ hs
  obtain ⟨op, hop⟩ := Option.isSome_iff_exists.mp (htable symbol hmem)
  simp only [Value.unary?, Value.unary, hop]
  exact ⟨hv.operateUnary?_eq_some op, hv.operateUnary op⟩

end Value

end SymCalc
