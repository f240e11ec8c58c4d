import Mathlib
import SymCalc.Proofs.Canonical

/-!
# Sums of terms as elements of a ring

Over exact magnitudes a sum of terms is read in a ring, whatever its exponents are. Given a
reading of exponents in a group, the powers of a term are a finite map from names to that group,
a real term is a multiple of such a map in the group ring, and an imaginary term is one beside
the adjoined imaginary unit. The ring is again a group in which exponents can be read, so that
readings of exponents nested deeper and deeper are made one from the other. Main statements:
reading turns the sum, the negative and the product of sums of terms into those of the ring, and
equal sums are read as the same element.
-/

namespace SymCalc

/-- A reading of exponents in a group, which respects sums, zero and equality. -/
structure Reading where
  /-- The group. -/
  Carrier : Type
  /-- The operations of the group. -/
  [group : AddCommGroup Carrier]
  /-- What an exponent is read as. -/
  eval : Poly ℚ → Carrier
  /-- Sums are read as sums. -/
  eval_add : ∀ p q, eval (p.add q) = eval p + eval q
  /-- Zero is read as zero. -/
  eval_zero : ∀ p, p.terms = [] → eval p = 0
  /-- Equal sums are read as the same. -/
  eval_equal : ∀ p q, p.equal q = true → eval p = eval q

namespace Reading

instance (r : Reading) : AddCommGroup r.Carrier := r.group

/-- The products of powers of variables: to each name belongs an exponent. -/
abbrev Monomial (r : Reading) : Type := Text →₀ r.Carrier

/-- The sums of real terms. -/
abbrev Real (r : Reading) : Type := AddMonoidAlgebra ℚ r.Monomial

/-- The sums of terms, with the imaginary unit adjoined. -/
abbrev Ring (r : Reading) : Type := QuadraticAlgebra r.Real (-1) 0

variable (r : Reading)

/-- What a list of powers is read as. -/
noncomputable def powers (ps : List (Power ℚ)) : r.Monomial :=
  (ps.map fun p => Finsupp.single p.name (r.eval p.exponent)).sum

@[simp] theorem powers_cons (p : Power ℚ) (ps : List (Power ℚ)) :
    r.powers (p :: ps) = Finsupp.single p.name (r.eval p.exponent) + r.powers ps := by
  simp [powers]

/-- Two lists of powers put together are read as the sum. -/
theorem powers_append (ps qs : List (Power ℚ)) :
    r.powers (ps ++ qs) = r.powers ps + r.powers qs := by
  simp [powers]

/-- The order of powers does not matter. -/
theorem powers_perm {ps qs : List (Power ℚ)} (h : ps.Perm qs) : r.powers ps = r.powers qs :=
  (h.map _).sum_eq

/-- Equal powers are read as the same. -/
theorem powers_equalAll {ps qs : List (Power ℚ)} (h : Power.equalAll ps qs = true) :
    r.powers ps = r.powers qs := by
  replace h := Power.equalAll_iff.mp h
  induction h with
  | nil => rfl
  | @cons p q ps qs hpq _ ih =>
    obtain ⟨hname, hexponent⟩ := Power.equal_iff.mp hpq
    rw [powers_cons, powers_cons, hname, r.eval_equal _ _ hexponent, ih]

/-- Adding the exponents of neighbours with the same name changes nothing. -/
theorem powers_mergeFrom (p : Power ℚ) (qs : List (Power ℚ)) :
    r.powers (Power.mergeFrom p qs) = r.powers (p :: qs) := by
  induction qs generalizing p with
  | nil => rfl
  | cons q qs ih =>
    by_cases hname : p.name = q.name
    · rw [Power.mergeFrom, if_pos hname, ih]
      simp only [powers_cons, r.eval_add, Finsupp.single_add, hname, add_assoc]
    · rw [Power.mergeFrom, if_neg hname, powers_cons, ih, ← powers_cons]

/-- Powers with the exponent zero can be left out. -/
theorem powers_filter (ps : List (Power ℚ)) :
    r.powers (ps.filter fun p => !p.exponent.terms.isEmpty) = r.powers ps := by
  induction ps with
  | nil => rfl
  | cons p ps ih =>
    rw [List.filter_cons]
    split
    · rw [powers_cons, powers_cons, ih]
    · rename_i hempty
      have hzero : r.eval p.exponent = 0 := r.eval_zero _ (by simpa using hempty)
      rw [powers_cons, hzero, Finsupp.single_zero, zero_add, ih]

/-- The normal form of powers is read as the powers are. -/
theorem powers_normalise (ps : List (Power ℚ)) : r.powers (Power.normalise ps) = r.powers ps := by
  rw [Power.normalise, powers_filter]
  have hsort := r.powers_perm (sortBy_perm (fun p q => Text.order p.name q.name) ps)
  rw [← hsort]
  cases sortBy (fun p q : Power ℚ => Text.order p.name q.name) ps with
  | nil => rfl
  | cons p qs => exact r.powers_mergeFrom p qs

/-- A real or an imaginary element. -/
noncomputable def part (imaginary : Bool) (x : r.Real) : r.Ring := if imaginary then ⟨0, x⟩ else ⟨x, 0⟩

/-- Parts of one kind are added as they are. -/
theorem part_add (i : Bool) (x y : r.Real) : r.part i (x + y) = r.part i x + r.part i y := by
  cases i <;> simp [part, QuadraticAlgebra.ext_iff]

/-- The part that is zero. -/
theorem part_zero (i : Bool) : r.part i 0 = 0 := by
  cases i <;> rfl

/-- The negative of a part. -/
theorem part_neg (i : Bool) (x : r.Real) : r.part i (-x) = -r.part i x := by
  cases i <;> simp [part]

/-- The product of two parts; that of two imaginary ones is real and negated. -/
theorem part_mul (i j : Bool) (x y : r.Real) :
    r.part i x * r.part j y = r.part (i != j) (if i && j then -(x * y) else x * y) := by
  cases i <;> cases j <;> simp [part]

/-- What a term is read as. -/
noncomputable def term (t : Term ℚ) : r.Ring :=
  r.part t.imaginary (AddMonoidAlgebra.single (r.powers t.powers) t.magnitude)

/-- What a list of terms is read as. -/
noncomputable def total (ts : List (Term ℚ)) : r.Ring := (ts.map r.term).sum

/-- A term that passes the test for zero is read as zero. -/
theorem term_eq_zero {t : Term ℚ} (h : t.isZero = true) : r.term t = 0 := by
  have hm : t.magnitude = 0 := (Magnitude.isZero_rat _).mp h
  rw [term, hm, AddMonoidAlgebra.single_zero, part_zero]

/-- Terms with the same signature differ in their magnitudes only. -/
theorem term_of_sameSignature {t u : Term ℚ} (h : t.sameSignature u = true) :
    r.term u = r.part t.imaginary (AddMonoidAlgebra.single (r.powers t.powers) u.magnitude) := by
  simp only [Term.sameSignature, Bool.and_eq_true, beq_iff_eq] at h
  rw [term, ← h.1, ← r.powers_equalAll h.2]

/-- Equal terms are read as the same. -/
theorem term_equal {t u : Term ℚ} (h : t.equal u = true) : r.term t = r.term u := by
  obtain ⟨m, i, ps⟩ := t
  obtain ⟨n, j, qs⟩ := u
  simp only [Term.equal] at h
  split at h
  · obtain ⟨hm, hn⟩ := Bool.and_eq_true_iff.mp h
    rw [r.term_eq_zero (t := ⟨m, i, ps⟩) hm, r.term_eq_zero (t := ⟨n, j, qs⟩) hn]
  · simp only [Bool.and_eq_true, beq_iff_eq] at h
    rw [term, term, h.1.1, h.1.2, r.powers_equalAll h.2]

/-- The sum of two terms with the same signature. -/
theorem term_merge {t u : Term ℚ} (h : t.sameSignature u = true) :
    r.term ⟨t.magnitude + u.magnitude, t.imaginary, t.powers⟩ = r.term t + r.term u := by
  rw [r.term_of_sameSignature h, term, term, AddMonoidAlgebra.single_add, part_add]

/-- The negative of a term. -/
theorem term_neg (t : Term ℚ) : r.term t.neg = -r.term t := by
  have hneg : r.term t.neg =
      r.part t.imaginary (AddMonoidAlgebra.single (r.powers t.powers) (-t.magnitude)) := rfl
  rw [hneg, AddMonoidAlgebra.single_neg, part_neg, term]

/-- The product of two terms. -/
theorem term_mul (t u : Term ℚ) : r.term (t.mul u) = r.term t * r.term u := by
  have hpowers : r.powers (t.mul u).powers = r.powers t.powers + r.powers u.powers := by
    rw [← powers_append]
    exact r.powers_normalise _
  have hmagnitude : (t.mul u).magnitude =
      if t.imaginary && u.imaginary then -(t.magnitude * u.magnitude)
      else t.magnitude * u.magnitude := rfl
  have himaginary : (t.mul u).imaginary = (t.imaginary != u.imaginary) := rfl
  rw [term, term, term, part_mul, AddMonoidAlgebra.single_mul_single, hpowers, hmagnitude,
    himaginary, ← AddMonoidAlgebra.single_neg]
  split <;> rfl

/-- The term one. -/
theorem term_one : r.term .one = 1 := rfl

@[simp] theorem total_nil : r.total [] = 0 := rfl

@[simp] theorem total_cons (t : Term ℚ) (ts : List (Term ℚ)) :
    r.total (t :: ts) = r.term t + r.total ts := by
  simp [total]

/-- Two lists put together. -/
theorem total_append (ts us : List (Term ℚ)) : r.total (ts ++ us) = r.total ts + r.total us := by
  simp [total]

/-- The order of terms does not matter. -/
theorem total_perm {ts us : List (Term ℚ)} (h : ts.Perm us) : r.total ts = r.total us :=
  (h.map _).sum_eq

/-- Sorting terms and leaving out those that are zero changes nothing. -/
theorem total_tidy (ts : List (Term ℚ)) : r.total (Poly.tidy ts) = r.total ts := by
  rw [Poly.tidy, r.total_perm (sortBy_perm _ _)]
  induction ts with
  | nil => rfl
  | cons t ts ih =>
    rw [List.filter_cons]
    split
    · rw [total_cons, total_cons, ih]
    · rename_i hzero
      have hterm : r.term t = 0 := r.term_eq_zero (by simpa using hzero)
      rw [total_cons, hterm, zero_add, ih]

/-- A term added into a list. -/
theorem total_addInto (t : Term ℚ) (us : List (Term ℚ)) :
    r.total (Poly.addInto t us) = r.term t + r.total us := by
  induction us with
  | nil => rfl
  | cons u us ih =>
    rw [Poly.addInto]
    split
    · rename_i hsame
      have hmerge := r.term_merge hsame
      rw [Rat.add_comm] at hmerge
      rw [total_cons, total_cons, hmerge, add_assoc]
    · rw [total_cons, total_cons, ih, add_left_comm]

/-- A term added to a list. -/
theorem total_addTerm (t : Term ℚ) (us : List (Term ℚ)) :
    r.total (Poly.addTerm t us) = r.term t + r.total us := by
  rw [Poly.addTerm, total_tidy, total_addInto]

/-- Equal lists are read as the same. -/
theorem total_equalAll {ts us : List (Term ℚ)} (h : Term.equalAll ts us = true) :
    r.total ts = r.total us := by
  replace h := Term.equalAll_iff.mp h
  induction h with
  | nil => rfl
  | cons htu _ ih => rw [total_cons, total_cons, r.term_equal htu, ih]

/-- What a sum of terms is read as. -/
noncomputable def sum : Poly ℚ → r.Ring
  | .term t => r.term t
  | .sum ts => r.total ts

/-- A sum is read as the list of its terms. -/
theorem sum_eq_total (p : Poly ℚ) : r.sum p = r.total p.terms := by
  cases p with
  | sum ts => rfl
  | term t =>
    rw [sum, Poly.terms]
    split
    · rename_i hzero
      exact r.term_eq_zero hzero
    · rw [total_cons, total_nil, add_zero]

/-- The sum of two sums. -/
theorem sum_add (p q : Poly ℚ) : r.sum (p.add q) = r.sum p + r.sum q := by
  have hfold : ∀ ts us : List (Term ℚ),
      r.total (ts.foldl (fun acc t => Poly.addTerm t acc) us) = r.total ts + r.total us := by
    intro ts
    induction ts with
    | nil => exact fun us => (zero_add _).symm
    | cons t ts ih =>
      intro us
      rw [List.foldl_cons, ih, total_addTerm, total_cons]
      ring
  cases p with
  | term t =>
    cases q with
    | term u =>
      rw [Poly.add, Poly.addTerms]
      split
      · rename_i hsame
        exact r.term_merge hsame
      · rw [Poly.ofTerms, sum, sum, sum, total_tidy, total_cons, total_cons, total_nil, add_zero]
    | sum us => exact r.total_addTerm t us
  | sum ts =>
    cases q with
    | term u =>
      rw [Poly.add, sum, sum, sum, total_addTerm, add_comm]
    | sum us => exact hfold ts us

/-- The negative of a sum. -/
theorem sum_neg (p : Poly ℚ) : r.sum p.neg = -r.sum p := by
  cases p with
  | term t => exact r.term_neg t
  | sum ts =>
    rw [Poly.neg, Poly.ofTerms, sum, sum, total_tidy]
    induction ts with
    | nil => exact neg_zero.symm
    | cons t ts ih => rw [List.map_cons, total_cons, total_cons, ih, term_neg, neg_add]

/-- Terms that are combined are read as their list. -/
theorem sum_combine (ts : List (Term ℚ)) : r.sum (Poly.combine ts) = r.total ts := by
  have hgroup : ∀ (us : List (Term ℚ)) (p : Poly ℚ),
      r.sum (us.foldl (fun acc u => Poly.add (.term u) acc) p) = r.total us + r.sum p := by
    intro us
    induction us with
    | nil => exact fun p => (zero_add _).symm
    | cons u us ih =>
      intro p
      rw [List.foldl_cons, ih, sum_add, total_cons, sum]
      ring
  have hzero : r.sum (.term .zero) = 0 := r.term_eq_zero rfl
  have hgroups : ∀ (gs : List (Term ℚ × List (Term ℚ))) (p : Poly ℚ),
      r.sum (gs.foldl (fun acc g => Poly.add acc (Poly.sumGroup g)) p) =
        r.sum p + r.total (gs.flatMap fun g => g.1 :: g.2) := by
    intro gs
    induction gs with
    | nil => exact fun p => (add_zero _).symm
    | cons g gs ih =>
      intro p
      rw [List.foldl_cons, ih, sum_add, Poly.sumGroup, hgroup, hzero, List.flatMap_cons,
        total_append]
      ring
  rw [Poly.combine, hgroups, hzero, zero_add, r.total_perm (Poly.groups_perm ts)]

/-- Every term of a list multiplied by a term. -/
theorem total_map_mul (ts : List (Term ℚ)) (u : Term ℚ) :
    r.total (ts.map fun t => t.mul u) = r.total ts * r.term u := by
  induction ts with
  | nil => exact (zero_mul _).symm
  | cons t ts ih => rw [List.map_cons, total_cons, total_cons, term_mul, ih, add_mul]

/-- Every term of a list multiplied by every term of another. -/
theorem total_flatMap_mul (ts us : List (Term ℚ)) :
    r.total (ts.flatMap fun t => us.map fun u => t.mul u) = r.total ts * r.total us := by
  have hrow : ∀ t : Term ℚ, r.total (us.map fun u => t.mul u) = r.term t * r.total us := by
    intro t
    induction us with
    | nil => exact (mul_zero _).symm
    | cons u us ih => rw [List.map_cons, total_cons, total_cons, term_mul, ih, mul_add]
  induction ts with
  | nil => exact (zero_mul _).symm
  | cons t ts ih => rw [List.flatMap_cons, total_append, total_cons, ih, hrow, add_mul]

/-- The product of two sums. -/
theorem sum_mul (p q : Poly ℚ) : r.sum (p.mul q) = r.sum p * r.sum q := by
  cases p with
  | term t =>
    cases q with
    | term u => exact r.term_mul t u
    | sum us => rw [Poly.mul, sum_combine, total_map_mul, sum, sum, mul_comm]
  | sum ts =>
    cases q with
    | term u => rw [Poly.mul, sum_combine, total_map_mul, sum, sum]
    | sum us => rw [Poly.mul, sum_combine, total_flatMap_mul, sum, sum]

/-- Equal sums are read as the same. -/
theorem sum_equal {p q : Poly ℚ} (h : p.equal q = true) : r.sum p = r.sum q := by
  match p, q, h with
  | .term t, .term u, h => exact r.term_equal (by simpa only [Poly.equal] using h)
  | .term t, .sum [], h => exact r.term_eq_zero (by simpa only [Poly.equal] using h)
  | .term t, .sum [u], h =>
    rw [sum, sum, total_cons, total_nil, add_zero]
    exact r.term_equal (by simpa only [Poly.equal] using h)
  | .term _, .sum (_ :: _ :: _), h => simp [Poly.equal] at h
  | .sum [], .term u, h =>
    exact (r.term_eq_zero (by simpa only [Poly.equal, Term.equalOnly] using h)).symm
  | .sum [t], .term u, h =>
    rw [sum, sum, total_cons, total_nil, add_zero]
    exact r.term_equal (by simpa only [Poly.equal, Term.equalOnly] using h)
  | .sum (_ :: _ :: _), .term u, h => simp [Poly.equal, Term.equalOnly] at h
  | .sum ts, .sum us, h => exact r.total_equalAll (by simpa only [Poly.equal] using h)

/-- A sum without terms is read as zero. -/
theorem sum_eq_zero {p : Poly ℚ} (h : p.terms = []) : r.sum p = 0 := by
  rw [sum_eq_total, h, total_nil]

/-- The reading in which exponents are sums that are read in the ring. -/
noncomputable def next : Reading where
  Carrier := r.Ring
  eval := r.sum
  eval_add := r.sum_add
  eval_zero _ := r.sum_eq_zero
  eval_equal _ _ := r.sum_equal

/-- The reading for exponents that are nested at most so deep. -/
noncomputable def stage : ℕ → Reading
  | 0 => ⟨PUnit, fun _ => 0, fun _ _ => rfl, fun _ _ => rfl, fun _ _ _ => rfl⟩
  | n + 1 => (stage n).next

end Reading

end SymCalc
