import Mathlib
import SymCalc.Proofs.Canonical
import SymCalc.Value.Operation

/-!
# What sums and fractions of terms stand for

Over exact magnitudes a term is read in a field: the imaginary unit as a square root of minus
one, each literal variable as an element other than zero, and an exponent as the integer that
it holds. Main statement: the operators on scalars are the operations of the field, whichever
representations their operands have.
-/

namespace SymCalc

/-- A reading of the imaginary unit and of literal variables in a field. -/
structure Valuation (K : Type*) [Field K] where
  /-- What the imaginary unit stands for. -/
  unit : K
  /-- The square of the imaginary unit is minus one. -/
  unit_mul_unit : unit * unit = -1
  /-- What a literal variable stands for. -/
  var : Text → K
  /-- No variable stands for zero, since exponents may be negative. -/
  var_ne_zero : ∀ name, var name ≠ 0

variable {K : Type*} [Field K] (ρ : Valuation K)

/-- The integer that an exponent holds. -/
def Poly.degree : Poly ℚ → ℤ
  | .term t => t.magnitude.num
  | .sum _ => 0

namespace Power

/-- Whether the exponent is a real integer without variables. -/
def IsIntegral (p : Power ℚ) : Prop := ∃ n : ℤ, p.exponent = .term (.number n)

/-- What a power of a literal variable stands for. -/
def value (p : Power ℚ) : K := ρ.var p.name ^ p.exponent.degree

/-- What a list of powers stands for: their product. -/
def product (ps : List (Power ℚ)) : K := (ps.map (value ρ)).prod

end Power

namespace Term

/-- Whether all exponents are real integers without variables. -/
def IsIntegral (t : Term ℚ) : Prop := ∀ p ∈ t.powers, p.IsIntegral

/-- What the imaginary unit and the powers of a term stand for. -/
def monomial (t : Term ℚ) : K := (if t.imaginary then ρ.unit else 1) * Power.product ρ t.powers

/-- What a term stands for. -/
def value (t : Term ℚ) : K := t.magnitude * t.monomial ρ

/-- Whether all exponents of all terms are real integers without variables. -/
def AllIntegral (ts : List (Term ℚ)) : Prop := ∀ t ∈ ts, t.IsIntegral

/-- What a list of terms stands for: their sum. -/
def total (ts : List (Term ℚ)) : K := (ts.map (value ρ)).sum

end Term

/-- A sum of terms stands for an element of the field. -/
def Poly.Denotes : Poly ℚ → K → Prop
  | .term t, x => t.IsIntegral ∧ t.value ρ = x
  | .sum ts, x => Term.AllIntegral ts ∧ Term.total ρ ts = x

/-- A fraction stands for the quotient of its parts; its denominator does not stand for zero. -/
def Fraction.Denotes (f : Fraction ℚ) (x : K) : Prop :=
  ∃ a b, f.num.Denotes ρ a ∧ f.den.Denotes ρ b ∧ b ≠ 0 ∧ a / b = x

/-- A scalar stands for an element of the field. -/
def Scalar.Denotes : Scalar ℚ → K → Prop
  | .poly p, x => p.Denotes ρ x
  | .fraction f, x => f.Denotes ρ x

namespace Power

/-- The exponent of a power with an integral exponent. -/
theorem degree_number (n : ℤ) : (Poly.term (.number (n : ℚ))).degree = n := Rat.num_intCast n

/-- Equal numbers are the same number. -/
theorem eq_of_number_equal {m n : ℚ} (h : Term.equal (.number m) (.number n) = true) : m = n := by
  simp only [Term.number, Term.equal] at h
  split at h
  · simp only [Bool.and_eq_true, Magnitude.isZero_rat] at h
    exact h.1.trans h.2.symm
  · simp only [Bool.and_eq_true] at h
    exact beq_iff_eq.mp h.1.1

/-- Powers that are found equal stand for the same. -/
theorem value_eq_of_equal {p q : Power ℚ} (hp : p.IsIntegral) (hq : q.IsIntegral)
    (h : Power.equal p q = true) : p.value ρ = q.value ρ := by
  obtain ⟨m, hm⟩ := hp
  obtain ⟨n, hn⟩ := hq
  obtain ⟨x, e⟩ := p
  obtain ⟨y, f⟩ := q
  simp only at hm hn
  subst hm hn
  simp only [Power.equal, Poly.equal, Bool.and_eq_true, decide_eq_true_eq] at h
  have hmn := eq_of_number_equal h.2
  simp only [value, h.1, hmn]

/-- Lists of powers that are found equal stand for the same. -/
theorem product_eq_of_equalAll {ps qs : List (Power ℚ)} (hp : ∀ p ∈ ps, p.IsIntegral)
    (hq : ∀ q ∈ qs, q.IsIntegral) (h : Power.equalAll ps qs = true) :
    product ρ ps = product ρ qs := by
  replace h := Power.equalAll_iff.mp h
  induction h with
  | nil => rfl
  | cons hpq _ ih =>
    rw [List.forall_mem_cons] at hp hq
    have hhead := value_eq_of_equal ρ hp.1 hq.1 hpq
    have htail := ih hp.2 hq.2
    simp only [product, List.map_cons, List.prod_cons] at htail ⊢
    rw [hhead, htail]

/-- The product does not depend on the order of the powers. -/
theorem product_perm {ps qs : List (Power ℚ)} (h : ps.Perm qs) : product ρ ps = product ρ qs :=
  (h.map (value ρ)).prod_eq

/-- The product of two lists of powers put together. -/
theorem product_append (ps qs : List (Power ℚ)) :
    product ρ (ps ++ qs) = product ρ ps * product ρ qs := by
  simp only [product, List.map_append, List.prod_append]

/-- Adding integral exponents gives an integral exponent. -/
theorem add_number (m n : ℚ) :
    (Poly.term (.number m)).add (.term (.number n)) = .term (.number (m + n)) := by
  simp [Poly.add, Poly.addTerms, Term.sameSignature, Term.number, Power.equalAll]

/-- Merging neighbours keeps the product and the integral exponents. -/
theorem mergeFrom_spec (p : Power ℚ) (qs : List (Power ℚ)) (hp : p.IsIntegral)
    (hq : ∀ q ∈ qs, q.IsIntegral) :
    (∀ r ∈ mergeFrom p qs, r.IsIntegral) ∧
      product ρ (mergeFrom p qs) = p.value ρ * product ρ qs := by
  induction qs generalizing p with
  | nil =>
    simp only [mergeFrom, List.mem_singleton, forall_eq, product, List.map_cons, List.map_nil,
      List.prod_cons, List.prod_nil]
    exact ⟨hp, trivial⟩
  | cons q qs ih =>
    rw [List.forall_mem_cons] at hq
    by_cases hname : p.name = q.name
    · obtain ⟨m, hm⟩ := hp
      obtain ⟨n, hn⟩ := hq.1
      have hadd : p.exponent.add q.exponent = .term (.number ((m + n : ℤ) : ℚ)) := by
        rw [hm, hn, add_number, Int.cast_add]
      have hvalue : value ρ ⟨p.name, p.exponent.add q.exponent⟩ = p.value ρ * q.value ρ := by
        rw [value, hadd, degree_number, zpow_add₀ (ρ.var_ne_zero p.name)]
        simp only [value, hm, hn, degree_number, hname]
      obtain ⟨hint, hprod⟩ := ih ⟨p.name, p.exponent.add q.exponent⟩ ⟨m + n, hadd⟩ hq.2
      rw [mergeFrom, if_pos hname]
      refine ⟨hint, ?_⟩
      rw [hprod, hvalue]
      simp only [product, List.map_cons, List.prod_cons, mul_assoc]
    · obtain ⟨hint, hprod⟩ := ih q hq.1 hq.2
      rw [mergeFrom, if_neg hname]
      refine ⟨List.forall_mem_cons.mpr ⟨hp, hint⟩, ?_⟩
      simp only [product, List.map_cons, List.prod_cons] at hprod ⊢
      rw [hprod]

/-- Powers with a zero exponent are no factors. -/
theorem product_filter {ps : List (Power ℚ)} (hp : ∀ p ∈ ps, p.IsIntegral) :
    product ρ (ps.filter fun p => !p.exponent.terms.isEmpty) = product ρ ps := by
  induction ps with
  | nil => rfl
  | cons p ps ih =>
    rw [List.forall_mem_cons] at hp
    have htail := ih hp.2
    obtain ⟨n, hn⟩ := hp.1
    rw [List.filter_cons]
    by_cases hz : n = 0
    · have hempty : p.exponent.terms.isEmpty = true := by
        simp [hn, Poly.terms, Term.isZero, Term.number, hz]
      have hone : p.value ρ = 1 := by rw [value, hn, degree_number, hz, zpow_zero]
      rw [hempty, Bool.not_true, if_neg Bool.false_ne_true, htail]
      simp only [product, List.map_cons, List.prod_cons, hone, one_mul]
    · have hkeep : p.exponent.terms.isEmpty = false := by
        simp [hn, Poly.terms, Term.isZero, Term.number, hz]
      rw [hkeep, Bool.not_false, if_pos rfl]
      simp only [product, List.map_cons, List.prod_cons] at htail ⊢
      rw [htail]

/-- Bringing powers into their normal form keeps the product and the integral exponents. -/
theorem normalise_spec {ps : List (Power ℚ)} (hp : ∀ p ∈ ps, p.IsIntegral) :
    (∀ p ∈ normalise ps, p.IsIntegral) ∧ product ρ (normalise ps) = product ρ ps := by
  have hsort := sortBy_perm (fun p q : Power ℚ => Text.order p.name q.name) ps
  have hmerge : (∀ p ∈ merge (sortBy (fun p q : Power ℚ => Text.order p.name q.name) ps),
      p.IsIntegral) ∧
      product ρ (merge (sortBy (fun p q : Power ℚ => Text.order p.name q.name) ps)) =
        product ρ ps := by
    rw [← product_perm ρ hsort]
    have hint : ∀ p ∈ sortBy (fun p q : Power ℚ => Text.order p.name q.name) ps, p.IsIntegral :=
      fun p h => hp p (mem_sortBy.mp h)
    cases hs : sortBy (fun p q : Power ℚ => Text.order p.name q.name) ps with
    | nil => simp [merge]
    | cons q qs =>
      rw [hs, List.forall_mem_cons] at hint
      have h := mergeFrom_spec ρ q qs hint.1 hint.2
      simpa only [merge, product, List.map_cons, List.prod_cons] using h
  exact ⟨fun p h => hmerge.1 p (List.mem_filter.mp h).1,
    (product_filter ρ hmerge.1).trans hmerge.2⟩

end Power

namespace Term

/-- A term that passes the test for zero stands for zero. -/
theorem value_eq_zero {t : Term ℚ} (h : t.isZero = true) : t.value ρ = 0 := by
  have hm : t.magnitude = 0 := (Magnitude.isZero_rat _).mp h
  rw [value, hm, Rat.cast_zero, zero_mul]

/-- Terms with the same signature differ in their magnitudes only. -/
theorem monomial_eq_of_sameSignature {t u : Term ℚ} (ht : t.IsIntegral) (hu : u.IsIntegral)
    (h : t.sameSignature u = true) : t.monomial ρ = u.monomial ρ := by
  simp only [sameSignature, Bool.and_eq_true, beq_iff_eq] at h
  rw [monomial, monomial, h.1, Power.product_eq_of_equalAll ρ ht hu h.2]

/-- Terms that are found equal stand for the same. -/
theorem value_eq_of_equal {t u : Term ℚ} (ht : t.IsIntegral) (hu : u.IsIntegral)
    (h : t.equal u = true) : t.value ρ = u.value ρ := by
  obtain ⟨m, i, ps⟩ := t
  obtain ⟨n, j, qs⟩ := u
  simp only [equal] at h
  split at h
  · simp only [Bool.and_eq_true] at h
    have hleft : value ρ ⟨m, i, ps⟩ = 0 := value_eq_zero ρ h.1
    have hright : value ρ ⟨n, j, qs⟩ = 0 := value_eq_zero ρ h.2
    rw [hleft, hright]
  · simp only [Bool.and_eq_true, beq_iff_eq] at h
    simp only [value, monomial, h.1.1, h.1.2, Power.product_eq_of_equalAll ρ ht hu h.2]

/-- The negated term stands for the negative. -/
theorem value_neg (t : Term ℚ) : t.neg.value ρ = -t.value ρ := by
  have hm : t.neg.magnitude = -t.magnitude := rfl
  rw [value, value, hm, Rat.cast_neg, neg_mul]
  rfl

/-- What the imaginary units of two factors stand for together. -/
theorem unit_mul (i j : Bool) :
    (if i then ρ.unit else 1) * (if j then ρ.unit else 1) =
      (if i && j then -1 else 1) * (if i != j then ρ.unit else 1) := by
  cases i <;> cases j <;> simp [ρ.unit_mul_unit]

/-- The imaginary unit does not stand for zero. -/
theorem unit_ne_zero : ρ.unit ≠ 0 := by
  intro h
  have hsq := ρ.unit_mul_unit
  rw [h, zero_mul] at hsq
  exact neg_ne_zero.mpr one_ne_zero hsq.symm

/-- What the imaginary units of a quotient stand for together: one over the unit is its
negative. -/
theorem unit_div (i j : Bool) :
    (if i then ρ.unit else 1) / (if j then ρ.unit else 1) =
      (if j && !i then -1 else 1) * (if i != j then ρ.unit else 1) := by
  have hne := unit_ne_zero ρ
  have hinv : ρ.unit⁻¹ = -ρ.unit := by
    rw [inv_eq_iff_eq_inv, inv_neg, ← mul_right_inj' hne, mul_neg, mul_inv_cancel₀ hne]
    exact ρ.unit_mul_unit
  cases i <;> cases j <;> simp [hne, hinv]

/-- Negated exponents are integral and stand for the reciprocal. -/
theorem inverse_powers_spec {ps : List (Power ℚ)} (hp : ∀ p ∈ ps, p.IsIntegral) :
    (∀ p ∈ ps.map fun p => (⟨p.name, p.exponent.neg⟩ : Power ℚ), p.IsIntegral) ∧
      Power.product ρ (ps.map fun p => ⟨p.name, p.exponent.neg⟩) = (Power.product ρ ps)⁻¹ := by
  induction ps with
  | nil => simp [Power.product]
  | cons p ps ih =>
    rw [List.forall_mem_cons] at hp
    obtain ⟨hint, hprod⟩ := ih hp.2
    obtain ⟨n, hn⟩ := hp.1
    have hneg : p.exponent.neg = .term (.number ((-n : ℤ) : ℚ)) := by
      rw [hn, Int.cast_neg]
      rfl
    have hvalue : Power.value ρ ⟨p.name, p.exponent.neg⟩ = (p.value ρ)⁻¹ := by
      rw [Power.value, Power.value, hneg, hn, Power.degree_number, Power.degree_number, zpow_neg]
    refine ⟨List.forall_mem_cons.mpr ⟨⟨-n, hneg⟩, hint⟩, ?_⟩
    simp only [Power.product, List.map_cons, List.prod_cons, mul_inv] at hprod ⊢
    rw [hvalue, hprod]

variable [CharZero K]

/-- Adding the magnitudes of terms with the same signature adds what they stand for. -/
theorem value_merge {t u : Term ℚ} (ht : t.IsIntegral) (hu : u.IsIntegral)
    (h : t.sameSignature u = true) :
    value ρ ⟨t.magnitude + u.magnitude, t.imaginary, t.powers⟩ = t.value ρ + u.value ρ := by
  have hmono := monomial_eq_of_sameSignature ρ ht hu h
  rw [value, value, value, Rat.cast_add, add_mul, ← hmono]
  rfl

/-- The product of two terms stands for the product, and its exponents are integral. -/
theorem mul_spec {t u : Term ℚ} (ht : t.IsIntegral) (hu : u.IsIntegral) :
    (t.mul u).IsIntegral ∧ (t.mul u).value ρ = t.value ρ * u.value ρ := by
  have hpowers : ∀ p ∈ t.powers ++ u.powers, p.IsIntegral := by
    intro p hp
    exact (List.mem_append.mp hp).elim (ht p) (hu p)
  obtain ⟨hint, hprod⟩ := Power.normalise_spec ρ hpowers
  refine ⟨hint, ?_⟩
  have hmag : (((t.mul u).magnitude : ℚ) : K) =
      (if t.imaginary && u.imaginary then -1 else 1) * (t.magnitude * u.magnitude) := by
    simp only [mul, make]
    split
    · rw [Rat.cast_neg, Rat.cast_mul, neg_one_mul]
    · rw [Rat.cast_mul, one_mul]
  have hmono : (t.mul u).monomial ρ =
      (if t.imaginary != u.imaginary then ρ.unit else 1) *
        (Power.product ρ t.powers * Power.product ρ u.powers) := by
    rw [← Power.product_append, ← hprod]
    rfl
  calc (t.mul u).value ρ
      = ((if t.imaginary && u.imaginary then -1 else 1) *
          (if t.imaginary != u.imaginary then ρ.unit else 1)) * (t.magnitude * u.magnitude) *
          (Power.product ρ t.powers * Power.product ρ u.powers) := by
        rw [value, hmag, hmono]
        ring
    _ = t.value ρ * u.value ρ := by
        rw [← unit_mul, value, value, monomial, monomial]
        ring

/-- The quotient of two terms stands for the quotient, and its exponents are integral. -/
theorem div_spec {t u : Term ℚ} (ht : t.IsIntegral) (hu : u.IsIntegral) :
    (t.div u).IsIntegral ∧ (t.div u).value ρ = t.value ρ / u.value ρ := by
  obtain ⟨hinverse, hreciprocal⟩ := inverse_powers_spec ρ hu
  have hpowers : ∀ p ∈ t.powers ++ u.inverse.powers, p.IsIntegral := by
    intro p hp
    exact (List.mem_append.mp hp).elim (ht p) (hinverse p)
  obtain ⟨hint, hprod⟩ := Power.normalise_spec ρ hpowers
  refine ⟨hint, ?_⟩
  have hmag : (((t.div u).magnitude : ℚ) : K) =
      (if u.imaginary && !t.imaginary then -1 else 1) * (t.magnitude / u.magnitude) := by
    simp only [div]
    split
    · rw [Rat.cast_neg, Rat.cast_div, neg_one_mul]
    · rw [Rat.cast_div, one_mul]
  have hmono : (t.div u).monomial ρ =
      (if t.imaginary != u.imaginary then ρ.unit else 1) *
        (Power.product ρ t.powers * (Power.product ρ u.powers)⁻¹) := by
    rw [← hreciprocal]
    exact congrArg _ (hprod.trans (Power.product_append ρ _ _))
  calc (t.div u).value ρ
      = ((if u.imaginary && !t.imaginary then -1 else 1) *
          (if t.imaginary != u.imaginary then ρ.unit else 1)) * (t.magnitude / u.magnitude) *
          (Power.product ρ t.powers * (Power.product ρ u.powers)⁻¹) := by
        rw [value, hmag, hmono]
        ring
    _ = t.value ρ / u.value ρ := by
        rw [← unit_div, value, value, monomial, monomial]
        simp only [div_eq_mul_inv, mul_inv]
        ring

end Term

namespace Term

/-- The sum does not depend on the order of the terms. -/
theorem total_perm {ts us : List (Term ℚ)} (h : ts.Perm us) : total ρ ts = total ρ us :=
  (h.map (value ρ)).sum_eq

/-- The sum of a term and a list. -/
@[simp] theorem total_cons (t : Term ℚ) (ts : List (Term ℚ)) :
    total ρ (t :: ts) = t.value ρ + total ρ ts := by
  simp only [total, List.map_cons, List.sum_cons]

@[simp] theorem total_nil : total ρ [] = 0 := rfl

/-- The sum of two lists put together. -/
theorem total_append (ts us : List (Term ℚ)) :
    total ρ (ts ++ us) = total ρ ts + total ρ us := by
  simp only [total, List.map_append, List.sum_append]

/-- Changing every term by a common factor changes the sum by that factor. -/
theorem map_spec {f : Term ℚ → Term ℚ} {c : K} {ts : List (Term ℚ)} (ht : AllIntegral ts)
    (hf : ∀ t, t.IsIntegral → (f t).IsIntegral ∧ (f t).value ρ = t.value ρ * c) :
    AllIntegral (ts.map f) ∧ total ρ (ts.map f) = total ρ ts * c := by
  induction ts with
  | nil => simp [AllIntegral]
  | cons t ts ih =>
    have ht := List.forall_mem_cons.mp ht
    obtain ⟨hint, hsum⟩ := ih ht.2
    obtain ⟨hint', hvalue⟩ := hf t ht.1
    refine ⟨List.forall_mem_cons.mpr ⟨hint', hint⟩, ?_⟩
    rw [List.map_cons, total_cons, total_cons, hsum, hvalue, add_mul]

/-- Leaving out zero terms keeps the sum. -/
theorem total_filter (ts : List (Term ℚ)) :
    total ρ (ts.filter fun t => !t.isZero) = total ρ ts := by
  induction ts with
  | nil => rfl
  | cons t ts ih =>
    rw [List.filter_cons, total_cons]
    cases hz : t.isZero with
    | true => rw [Bool.not_true, if_neg Bool.false_ne_true, ih, value_eq_zero ρ hz, zero_add]
    | false => rw [Bool.not_false, if_pos rfl, total_cons, ih]

end Term

namespace Poly

/-- Sorting out the terms keeps the sum and the integral exponents. -/
theorem tidy_spec {ts : List (Term ℚ)} (h : Term.AllIntegral ts) :
    Term.AllIntegral (tidy ts) ∧ Term.total ρ (tidy ts) = Term.total ρ ts := by
  constructor
  · intro t ht
    exact h t (List.mem_filter.mp (mem_sortBy.mp ht)).1
  · rw [tidy, Term.total_perm ρ (sortBy_perm _ _), Term.total_filter]

/-- The term zero stands for zero. -/
theorem zero_denotes : (Poly.term .zero).Denotes ρ 0 :=
  ⟨by simp [Term.zero, Term.number, Term.IsIntegral],
    Term.value_eq_zero ρ ((Magnitude.isZero_rat _).mpr rfl)⟩

/-- The term one stands for one. -/
theorem one_denotes : (Poly.term .one).Denotes ρ 1 := by
  refine ⟨by simp [Term.one, Term.number, Term.IsIntegral], ?_⟩
  simp [Term.value, Term.monomial, Term.one, Term.number, Power.product]

/-- Negation of sums of terms stands for negation. -/
theorem neg_denotes {p : Poly ℚ} {x : K} (hp : p.Denotes ρ x) : p.neg.Denotes ρ (-x) := by
  cases p with
  | term t =>
    obtain ⟨ht, rfl⟩ := hp
    exact ⟨ht, Term.value_neg ρ t⟩
  | sum ts =>
    obtain ⟨ht, rfl⟩ := hp
    obtain ⟨hneg, hscale⟩ := Term.map_spec ρ (f := Term.neg) (c := -1) ht fun t ht =>
      ⟨ht, (Term.value_neg ρ t).trans (mul_neg_one _).symm⟩
    obtain ⟨hint, hsum⟩ := tidy_spec ρ hneg
    exact ⟨hint, hsum.trans (hscale.trans (mul_neg_one _))⟩

/-- The only term of a sum stands for the sum. -/
theorem asTerm?_spec {q : Poly ℚ} {t : Term ℚ} {y : K} (h : q.asTerm? = some t)
    (hq : q.Denotes ρ y) : t.IsIntegral ∧ t.value ρ = y := by
  match q, h, hq with
  | .term u, h, hq =>
    cases h
    exact hq
  | .sum [], h, hq =>
    cases h
    obtain ⟨_, rfl⟩ := hq
    exact zero_denotes ρ
  | .sum [u], h, hq =>
    cases h
    obtain ⟨hu, rfl⟩ := hq
    refine ⟨hu _ (List.mem_singleton_self _), ?_⟩
    rw [Term.total_cons, Term.total_nil, add_zero]

/-- Lists of terms that are found equal stand for the same. -/
theorem total_eq_of_equalAll {ts us : List (Term ℚ)} (ht : Term.AllIntegral ts)
    (hu : Term.AllIntegral us) (h : Term.equalAll ts us = true) :
    Term.total ρ ts = Term.total ρ us := by
  replace h := Term.equalAll_iff.mp h
  induction h with
  | nil => rfl
  | cons htu _ ih =>
    have ht := List.forall_mem_cons.mp ht
    have hu := List.forall_mem_cons.mp hu
    rw [Term.total_cons, Term.total_cons, Term.value_eq_of_equal ρ ht.1 hu.1 htu, ih ht.2 hu.2]

/-- Sums that are found equal stand for the same. -/
theorem eq_of_equal {p q : Poly ℚ} {x y : K} (hp : p.Denotes ρ x) (hq : q.Denotes ρ y)
    (h : p.equal q = true) : x = y := by
  match p, q, hp, hq, h with
  | .term t, .term u, ⟨ht, hx⟩, ⟨hu, hy⟩, h =>
    rw [← hx, ← hy, Term.value_eq_of_equal ρ ht hu (by simpa only [Poly.equal] using h)]
  | .term t, .sum [], ⟨ht, hx⟩, ⟨_, hy⟩, h =>
    rw [← hx, ← hy, Term.value_eq_zero ρ (by simpa only [Poly.equal] using h), Term.total_nil]
  | .term t, .sum [u], ⟨ht, hx⟩, ⟨hu, hy⟩, h =>
    have hu := hu u (List.mem_singleton_self u)
    rw [← hx, ← hy, Term.value_eq_of_equal ρ ht hu (by simpa only [Poly.equal] using h),
      Term.total_cons, Term.total_nil, add_zero]
  | .term t, .sum (u :: v :: us), _, _, h => simp [Poly.equal] at h
  | .sum [], .term u, ⟨_, hx⟩, ⟨hu, hy⟩, h =>
    rw [← hx, ← hy, Term.total_nil,
      Term.value_eq_zero ρ (by simpa only [Poly.equal, Term.equalOnly] using h)]
  | .sum [t], .term u, ⟨ht, hx⟩, ⟨hu, hy⟩, h =>
    have ht := ht t (List.mem_singleton_self t)
    rw [← hx, ← hy, Term.total_cons, Term.total_nil, add_zero,
      Term.value_eq_of_equal ρ ht hu (by simpa only [Poly.equal, Term.equalOnly] using h)]
  | .sum (t :: v :: ts), .term u, _, _, h => simp [Poly.equal, Term.equalOnly] at h
  | .sum ts, .sum us, ⟨ht, hx⟩, ⟨hu, hy⟩, h =>
    rw [← hx, ← hy, total_eq_of_equalAll ρ ht hu (by simpa only [Poly.equal] using h)]

variable [CharZero K]

/-- Adding a term into a list adds what it stands for. -/
theorem addInto_spec {t : Term ℚ} {us : List (Term ℚ)} (ht : t.IsIntegral)
    (hu : Term.AllIntegral us) :
    Term.AllIntegral (addInto t us) ∧
      Term.total ρ (addInto t us) = t.value ρ + Term.total ρ us := by
  induction us with
  | nil => simpa [addInto, Term.AllIntegral] using ht
  | cons u us ih =>
    have hu := List.forall_mem_cons.mp hu
    rw [addInto]
    split
    · rename_i hsame
      refine ⟨List.forall_mem_cons.mpr ⟨ht, hu.2⟩, ?_⟩
      have hmerge := Term.value_merge ρ ht hu.1 hsame
      rw [add_comm t.magnitude] at hmerge
      rw [Term.total_cons, Term.total_cons, ← add_assoc, ← hmerge]
    · obtain ⟨hint, hsum⟩ := ih hu.2
      refine ⟨List.forall_mem_cons.mpr ⟨hu.1, hint⟩, ?_⟩
      rw [Term.total_cons, Term.total_cons, hsum]
      ring

/-- The sum of a term and a list, as a list. -/
theorem addTerm_spec {t : Term ℚ} {us : List (Term ℚ)} (ht : t.IsIntegral)
    (hu : Term.AllIntegral us) :
    Term.AllIntegral (addTerm t us) ∧
      Term.total ρ (addTerm t us) = t.value ρ + Term.total ρ us := by
  obtain ⟨hint, hsum⟩ := addInto_spec ρ ht hu
  obtain ⟨hint', hsum'⟩ := tidy_spec ρ hint
  exact ⟨hint', hsum'.trans hsum⟩

/-- Adding the terms of a list one at a time adds what the list stands for. -/
theorem foldl_addTerm_spec {ts us : List (Term ℚ)} (ht : Term.AllIntegral ts)
    (hu : Term.AllIntegral us) :
    Term.AllIntegral (ts.foldl (fun acc t => addTerm t acc) us) ∧
      Term.total ρ (ts.foldl (fun acc t => addTerm t acc) us) =
        Term.total ρ ts + Term.total ρ us := by
  induction ts generalizing us with
  | nil => exact ⟨hu, (zero_add _).symm⟩
  | cons t ts ih =>
    have ht := List.forall_mem_cons.mp ht
    obtain ⟨hint, hsum⟩ := addTerm_spec ρ ht.1 hu
    obtain ⟨hint', hsum'⟩ := ih ht.2 hint
    refine ⟨hint', hsum'.trans ?_⟩
    rw [hsum, Term.total_cons]
    ring

/-- The sum of two terms stands for the sum. -/
theorem addTerms_denotes {t u : Term ℚ} (ht : t.IsIntegral) (hu : u.IsIntegral) :
    (addTerms t u).Denotes ρ (t.value ρ + u.value ρ) := by
  rw [addTerms]
  split
  · rename_i hsame
    exact ⟨ht, Term.value_merge ρ ht hu hsame⟩
  · have hboth : Term.AllIntegral [t, u] :=
      List.forall_mem_cons.mpr ⟨ht, List.forall_mem_cons.mpr ⟨hu, by simp⟩⟩
    obtain ⟨hint, hsum⟩ := tidy_spec ρ hboth
    refine ⟨hint, hsum.trans ?_⟩
    rw [Term.total_cons, Term.total_cons, Term.total_nil, add_zero]

/-- Addition of sums of terms stands for addition. -/
theorem add_denotes {p q : Poly ℚ} {x y : K} (hp : p.Denotes ρ x) (hq : q.Denotes ρ y) :
    (p.add q).Denotes ρ (x + y) := by
  cases p with
  | term t =>
    obtain ⟨ht, rfl⟩ := hp
    cases q with
    | term u =>
      obtain ⟨hu, rfl⟩ := hq
      exact addTerms_denotes ρ ht hu
    | sum us =>
      obtain ⟨hu, rfl⟩ := hq
      exact addTerm_spec ρ ht hu
  | sum ts =>
    obtain ⟨ht, rfl⟩ := hp
    cases q with
    | term u =>
      obtain ⟨hu, rfl⟩ := hq
      rw [add_comm]
      exact addTerm_spec ρ hu ht
    | sum us =>
      obtain ⟨hu, rfl⟩ := hq
      exact foldl_addTerm_spec ρ ht hu

/-- Adding terms to a sum one at a time adds what they stand for. -/
theorem foldl_add_term_denotes {ts : List (Term ℚ)} {p : Poly ℚ} {x : K}
    (ht : Term.AllIntegral ts) (hp : p.Denotes ρ x) :
    (ts.foldl (fun acc t => add (.term t) acc) p).Denotes ρ (Term.total ρ ts + x) := by
  induction ts generalizing p x with
  | nil => rwa [Term.total_nil, zero_add]
  | cons t ts ih =>
    have ht := List.forall_mem_cons.mp ht
    have hstep : (add (.term t) p).Denotes ρ (t.value ρ + x) := add_denotes ρ ⟨ht.1, rfl⟩ hp
    have hsum : Term.total ρ (t :: ts) + x = Term.total ρ ts + (t.value ρ + x) := by
      rw [Term.total_cons]
      ring
    rw [hsum]
    exact ih ht.2 hstep

/-- The sum of a group stands for the sum of its terms. -/
theorem sumGroup_denotes {g : Term ℚ × List (Term ℚ)} (h : Term.AllIntegral (g.1 :: g.2)) :
    (sumGroup g).Denotes ρ (Term.total ρ (g.1 :: g.2)) := by
  have hfold := foldl_add_term_denotes ρ h (zero_denotes ρ)
  rwa [add_zero] at hfold

/-- Adding groups to a sum one at a time adds what their terms stand for. -/
theorem foldl_add_group_denotes {gs : List (Term ℚ × List (Term ℚ))} {p : Poly ℚ} {x : K}
    (hg : Term.AllIntegral (gs.flatMap fun g => g.1 :: g.2)) (hp : p.Denotes ρ x) :
    (gs.foldl (fun acc g => add acc (sumGroup g)) p).Denotes ρ
      (x + Term.total ρ (gs.flatMap fun g => g.1 :: g.2)) := by
  induction gs generalizing p x with
  | nil => rwa [List.flatMap_nil, Term.total_nil, add_zero]
  | cons g gs ih =>
    rw [List.flatMap_cons] at hg ⊢
    have hg := List.forall_mem_append.mp hg
    rw [Term.total_append, ← add_assoc]
    exact ih hg.2 (add_denotes ρ hp (sumGroup_denotes ρ hg.1))

/-- Combining like terms keeps what the terms stand for. -/
theorem combine_denotes {ts : List (Term ℚ)} (h : Term.AllIntegral ts) :
    (combine ts).Denotes ρ (Term.total ρ ts) := by
  have hperm := groups_perm ts
  have hgroups : Term.AllIntegral ((groups ts).flatMap fun g => g.1 :: g.2) :=
    fun t ht => h t (hperm.mem_iff.mp ht)
  have hfold := foldl_add_group_denotes ρ hgroups (zero_denotes ρ)
  rwa [zero_add, Term.total_perm ρ hperm] at hfold

/-- Multiplying every term of a list by every term of another multiplies what they stand
for. -/
theorem flatMap_mul_spec {ts us : List (Term ℚ)} (ht : Term.AllIntegral ts)
    (hu : Term.AllIntegral us) :
    Term.AllIntegral (ts.flatMap fun t => us.map fun u => t.mul u) ∧
      Term.total ρ (ts.flatMap fun t => us.map fun u => t.mul u) =
        Term.total ρ ts * Term.total ρ us := by
  induction ts with
  | nil => simp [Term.AllIntegral]
  | cons t ts ih =>
    have ht := List.forall_mem_cons.mp ht
    obtain ⟨hint, hsum⟩ := ih ht.2
    obtain ⟨hint', hmul⟩ := Term.map_spec ρ (c := t.value ρ) hu fun u hu =>
      (mul_comm (t.value ρ) (u.value ρ)) ▸ Term.mul_spec ρ ht.1 hu
    rw [List.flatMap_cons]
    refine ⟨List.forall_mem_append.mpr ⟨hint', hint⟩, ?_⟩
    rw [Term.total_append, Term.total_cons, hsum, hmul, add_mul, mul_comm (t.value ρ)]

/-- Multiplication of sums of terms stands for multiplication. -/
theorem mul_denotes {p q : Poly ℚ} {x y : K} (hp : p.Denotes ρ x) (hq : q.Denotes ρ y) :
    (p.mul q).Denotes ρ (x * y) := by
  cases p with
  | term t =>
    obtain ⟨ht, rfl⟩ := hp
    cases q with
    | term u =>
      obtain ⟨hu, rfl⟩ := hq
      exact Term.mul_spec ρ ht hu
    | sum us =>
      obtain ⟨hu, rfl⟩ := hq
      obtain ⟨hint, hsum⟩ := Term.map_spec ρ hu fun u hu => Term.mul_spec ρ hu ht
      rw [mul_comm, ← hsum]
      exact combine_denotes ρ hint
  | sum ts =>
    obtain ⟨ht, rfl⟩ := hp
    cases q with
    | term u =>
      obtain ⟨hu, rfl⟩ := hq
      obtain ⟨hint, hsum⟩ := Term.map_spec ρ ht fun t ht => Term.mul_spec ρ ht hu
      rw [← hsum]
      exact combine_denotes ρ hint
    | sum us =>
      obtain ⟨hu, rfl⟩ := hq
      obtain ⟨hint, hsum⟩ := flatMap_mul_spec ρ ht hu
      rw [← hsum]
      exact combine_denotes ρ hint

/-- The quotient of a sum by a term stands for the quotient. -/
theorem divTerm_denotes {p : Poly ℚ} {u : Term ℚ} {x : K} (hp : p.Denotes ρ x)
    (hu : u.IsIntegral) : (p.divTerm u).Denotes ρ (x / u.value ρ) := by
  cases p with
  | term t =>
    obtain ⟨ht, rfl⟩ := hp
    exact Term.div_spec ρ ht hu
  | sum ts =>
    obtain ⟨ht, rfl⟩ := hp
    obtain ⟨hint, hsum⟩ := Term.map_spec ρ ht fun t ht =>
      (div_eq_mul_inv (t.value ρ) (u.value ρ)) ▸ Term.div_spec ρ ht hu
    rw [div_eq_mul_inv, ← hsum]
    exact combine_denotes ρ hint

/-- The quotient of two sums exists and stands for the quotient, unless the divisor stands for
zero. -/
theorem div_denotes {p q : Poly ℚ} {x y : K} (hp : p.Denotes ρ x) (hq : q.Denotes ρ y)
    (hy : y ≠ 0) : ∃ s, p.div q = .ok s ∧ s.Denotes ρ (x / y) := by
  rw [Poly.div]
  cases hterm : q.asTerm? with
  | none => exact ⟨_, rfl, x, y, hp, hq, hy, rfl⟩
  | some t =>
    obtain ⟨ht, rfl⟩ := asTerm?_spec ρ hterm hq
    have hz : t.isZero = false := by
      rw [← Bool.not_eq_true]
      exact fun h => hy (Term.value_eq_zero ρ h)
    refine ⟨.poly (p.divTerm t), ?_, divTerm_denotes ρ hp ht⟩
    simp only [hz, Bool.false_eq_true, if_false]

end Poly

namespace Fraction

variable [CharZero K] {f g : Fraction ℚ} {p : Poly ℚ} {x y : K}

/-- Addition of fractions stands for addition, also over a shared denominator. -/
theorem add_denotes (hf : f.Denotes ρ x) (hg : g.Denotes ρ y) : (f.add g).Denotes ρ (x + y) := by
  obtain ⟨a, b, ha, hb, hb0, rfl⟩ := hf
  obtain ⟨c, d, hc, hd, hd0, rfl⟩ := hg
  rw [add]
  split
  · rename_i hsame
    have hbd : b = d := Poly.eq_of_equal ρ hb hd hsame
    subst hbd
    exact ⟨a + c, b, Poly.add_denotes ρ ha hc, hb, hb0, add_div a c b⟩
  · refine ⟨a * d + c * b, b * d, ?_, Poly.mul_denotes ρ hb hd, mul_ne_zero hb0 hd0, ?_⟩
    · exact Poly.add_denotes ρ (Poly.mul_denotes ρ ha hd) (Poly.mul_denotes ρ hc hb)
    · rw [div_add_div a c hb0 hd0, mul_comm c b]

/-- The sum of a fraction and a sum of terms stands for the sum. -/
theorem addPoly_denotes (hf : f.Denotes ρ x) (hp : p.Denotes ρ y) :
    (f.addPoly p).Denotes ρ (x + y) := by
  obtain ⟨a, b, ha, hb, hb0, rfl⟩ := hf
  refine ⟨a + y * b, b, Poly.add_denotes ρ ha (Poly.mul_denotes ρ hp hb), hb, hb0, ?_⟩
  rw [add_div, mul_div_cancel_right₀ y hb0]

/-- Multiplication of fractions stands for multiplication. -/
theorem mul_denotes (hf : f.Denotes ρ x) (hg : g.Denotes ρ y) : (f.mul g).Denotes ρ (x * y) := by
  obtain ⟨a, b, ha, hb, hb0, rfl⟩ := hf
  obtain ⟨c, d, hc, hd, hd0, rfl⟩ := hg
  exact ⟨a * c, b * d, Poly.mul_denotes ρ ha hc, Poly.mul_denotes ρ hb hd, mul_ne_zero hb0 hd0,
    (div_mul_div_comm a b c d).symm⟩

/-- The product of a fraction and a sum of terms stands for the product. -/
theorem mulPoly_denotes (hf : f.Denotes ρ x) (hp : p.Denotes ρ y) :
    (f.mulPoly p).Denotes ρ (x * y) := by
  obtain ⟨a, b, ha, hb, hb0, rfl⟩ := hf
  exact ⟨a * y, b, Poly.mul_denotes ρ ha hp, hb, hb0, (div_mul_eq_mul_div a b y).symm⟩

/-- The quotient of a fraction and a sum of terms stands for the quotient. -/
theorem divPoly_denotes (hf : f.Denotes ρ x) (hp : p.Denotes ρ y) (hy : y ≠ 0) :
    (f.divPoly p).Denotes ρ (x / y) := by
  obtain ⟨a, b, ha, hb, hb0, rfl⟩ := hf
  exact ⟨a, b * y, ha, Poly.mul_denotes ρ hb hp, mul_ne_zero hb0 hy, (div_div a b y).symm⟩

/-- The quotient of a sum of terms and a fraction stands for the quotient. -/
theorem polyDiv_denotes (hp : p.Denotes ρ x) (hf : f.Denotes ρ y) (hy : y ≠ 0) :
    (polyDiv p f).Denotes ρ (x / y) := by
  obtain ⟨a, b, ha, hb, hb0, rfl⟩ := hf
  have ha0 : a ≠ 0 := fun h => hy (by rw [h, zero_div])
  exact ⟨x * b, a, Poly.mul_denotes ρ hp hb, ha, ha0, (div_div_eq_mul_div x a b).symm⟩

omit [CharZero K] in
/-- Negation of fractions stands for negation. -/
theorem neg_denotes (hf : f.Denotes ρ x) : f.neg.Denotes ρ (-x) := by
  obtain ⟨a, b, ha, hb, hb0, rfl⟩ := hf
  exact ⟨-a, b, Poly.neg_denotes ρ ha, hb, hb0, neg_div b a⟩

/-- The quotient of two fractions exists and stands for the quotient, whichever part is
cancelled, unless the divisor stands for zero. -/
theorem div_denotes (hf : f.Denotes ρ x) (hg : g.Denotes ρ y) (hy : y ≠ 0) :
    ∃ s, f.div g = .ok s ∧ s.Denotes ρ (x / y) := by
  obtain ⟨a, b, ha, hb, hb0, rfl⟩ := hf
  obtain ⟨c, d, hc, hd, hd0, rfl⟩ := hg
  have hc0 : c ≠ 0 := fun h => hy (by rw [h, zero_div])
  by_cases hsame : f.equal g = true
  · rw [div, if_pos hsame]
    simp only [equal, Bool.and_eq_true] at hsame
    have hac : a = c := Poly.eq_of_equal ρ ha hc hsame.1
    have hbd : b = d := Poly.eq_of_equal ρ hb hd hsame.2
    refine ⟨_, rfl, ?_⟩
    rw [hac, hbd, div_self hy]
    exact Poly.one_denotes ρ
  by_cases hnum : f.num.equal g.num = true
  · rw [div, if_neg hsame, if_pos hnum]
    have hac : a = c := Poly.eq_of_equal ρ ha hc hnum
    have hquot : a / b / (c / d) = d / b := by
      rw [hac]
      field_simp
    rw [hquot]
    exact Poly.div_denotes ρ hd hb hb0
  by_cases hden : f.den.equal g.den = true
  · rw [div, if_neg hsame, if_neg hnum, if_pos hden]
    have hbd : b = d := Poly.eq_of_equal ρ hb hd hden
    have hquot : a / b / (c / d) = a / c := by
      rw [hbd]
      field_simp
    rw [hquot]
    exact Poly.div_denotes ρ ha hc hc0
  · rw [div, if_neg hsame, if_neg hnum, if_neg hden]
    refine ⟨_, rfl, ?_⟩
    have hinverse : g.inverse.Denotes ρ (d / c) := ⟨d, c, hd, hc, hc0, rfl⟩
    have hquot : a / b / (c / d) = a / b * (d / c) := by rw [div_eq_mul_inv, inv_div]
    rw [hquot]
    exact mul_denotes ρ ⟨a, b, ha, hb, hb0, rfl⟩ hinverse

end Fraction

namespace Scalar

variable [CharZero K] {u v : Scalar ℚ} {x y : K}

/-- Addition of scalars stands for addition. -/
theorem add_denotes (hu : u.Denotes ρ x) (hv : v.Denotes ρ y) : (u.add v).Denotes ρ (x + y) := by
  cases u with
  | poly p =>
    cases v with
    | poly q => exact Poly.add_denotes ρ hu hv
    | fraction g => exact add_comm y x ▸ Fraction.addPoly_denotes ρ hv hu
  | fraction f =>
    cases v with
    | poly q => exact Fraction.addPoly_denotes ρ hu hv
    | fraction g => exact Fraction.add_denotes ρ hu hv

/-- Multiplication of scalars stands for multiplication. -/
theorem mul_denotes (hu : u.Denotes ρ x) (hv : v.Denotes ρ y) : (u.mul v).Denotes ρ (x * y) := by
  cases u with
  | poly p =>
    cases v with
    | poly q => exact Poly.mul_denotes ρ hu hv
    | fraction g => exact mul_comm y x ▸ Fraction.mulPoly_denotes ρ hv hu
  | fraction f =>
    cases v with
    | poly q => exact Fraction.mulPoly_denotes ρ hu hv
    | fraction g => exact Fraction.mul_denotes ρ hu hv

/-- The quotient of scalars exists and stands for the quotient, unless the divisor stands for
zero. -/
theorem div_denotes (hu : u.Denotes ρ x) (hv : v.Denotes ρ y) (hy : y ≠ 0) :
    ∃ s, u.div v = .ok s ∧ s.Denotes ρ (x / y) := by
  cases u with
  | poly p =>
    cases v with
    | poly q => exact Poly.div_denotes ρ hu hv hy
    | fraction g => exact ⟨_, rfl, Fraction.polyDiv_denotes ρ hu hv hy⟩
  | fraction f =>
    cases v with
    | poly q => exact ⟨_, rfl, Fraction.divPoly_denotes ρ hu hv hy⟩
    | fraction g => exact Fraction.div_denotes ρ hu hv hy

omit [CharZero K] in
/-- Negation of scalars stands for negation. -/
theorem neg_denotes (hu : u.Denotes ρ x) : u.neg.Denotes ρ (-x) := by
  cases u with
  | poly p => exact Poly.neg_denotes ρ hu
  | fraction f => exact Fraction.neg_denotes ρ hu

end Scalar

/-- The operators on scalars are the operations of the field. Sums, differences, products and
negatives always exist, quotients unless the divisor stands for zero, and no result has a
denominator that stands for zero. -/
theorem Value.arithmetic_denotes [CharZero K] {u v : Scalar ℚ} {x y : K} (hu : u.Denotes ρ x)
    (hv : v.Denotes ρ y) :
    (∃ w, binary (.scalar u) "+" (.scalar v) = .ok (.scalar w) ∧ w.Denotes ρ (x + y)) ∧
    (∃ w, binary (.scalar u) "-" (.scalar v) = .ok (.scalar w) ∧ w.Denotes ρ (x - y)) ∧
    (∃ w, binary (.scalar u) "*" (.scalar v) = .ok (.scalar w) ∧ w.Denotes ρ (x * y)) ∧
    (y ≠ 0 → ∃ w, binary (.scalar u) "/" (.scalar v) = .ok (.scalar w) ∧ w.Denotes ρ (x / y)) ∧
    (∃ w, unary "-" (.scalar u) = .ok (.scalar w) ∧ w.Denotes ρ (-x)) := by
  refine ⟨⟨u.add v, rfl, Scalar.add_denotes ρ hu hv⟩, ⟨u.add v.neg, rfl, ?_⟩,
    ⟨u.mul v, rfl, Scalar.mul_denotes ρ hu hv⟩, ?_, ⟨u.neg, rfl, Scalar.neg_denotes ρ hu⟩⟩
  · rw [sub_eq_add_neg]
    exact Scalar.add_denotes ρ hu (Scalar.neg_denotes ρ hv)
  · intro hy
    obtain ⟨w, hw, hden⟩ := Scalar.div_denotes ρ hu hv hy
    refine ⟨w, ?_, hden⟩
    change (u.div v).map Value.scalar = _
    rw [hw]
    rfl

/-- The complex numbers, with two for every variable. -/
noncomputable def Valuation.twos : Valuation ℂ where
  unit := Complex.I
  unit_mul_unit := Complex.I_mul_I
  var _ := 2
  var_ne_zero _ := two_ne_zero

/-- The fraction of a variable by one plus that variable times the imaginary unit. -/
def Fraction.sample : Fraction ℚ :=
  ⟨.term (.named "x"), .sum [.one, ⟨1, true, [⟨"x", .term .one⟩]⟩]⟩

/-- The exponent one is integral. -/
theorem Power.isIntegral_one (name : Text) : (⟨name, .term .one⟩ : Power ℚ).IsIntegral :=
  ⟨1, by
    rw [Int.cast_one]
    rfl⟩

/-- A fraction divided by the imaginary unit. -/
theorem Value.arithmetic_denotes_sample :
    (Scalar.fraction .sample).Denotes .twos (2 / (1 + Complex.I * 2)) ∧
    (Scalar.poly (.term .imaginaryUnit)).Denotes .twos Complex.I ∧ Complex.I ≠ 0 ∧
    ∃ w, binary (.scalar (.fraction .sample)) "/" (.scalar (.poly (.term .imaginaryUnit))) =
      .ok (.scalar w) ∧ w.Denotes .twos (2 / (1 + Complex.I * 2) / Complex.I) := by
  have hx := Power.isIntegral_one "x"
  have hden : (1 : ℂ) + Complex.I * 2 ≠ 0 := by
    intro h
    simpa using congrArg Complex.re h
  have hu : (Scalar.fraction .sample).Denotes .twos (2 / (1 + Complex.I * 2)) := by
    refine ⟨2, 1 + Complex.I * 2, ⟨?_, ?_⟩, ⟨?_, ?_⟩, hden, rfl⟩
    · simpa [Fraction.sample, Term.named, Term.IsIntegral] using hx
    · simp [Term.named, Term.value, Term.monomial, Power.product, Power.value, Poly.degree,
        Term.one, Term.number, Valuation.twos]
    · simpa [Fraction.sample, Term.AllIntegral, Term.IsIntegral, Term.one, Term.number] using hx
    · simp [Term.total, Term.value, Term.monomial, Power.product, Power.value, Poly.degree,
        Term.one, Term.number, Valuation.twos]
  have hv : (Scalar.poly (.term .imaginaryUnit)).Denotes .twos Complex.I := by
    refine ⟨by simp [Term.imaginaryUnit, Term.IsIntegral], ?_⟩
    simp [Term.imaginaryUnit, Term.value, Term.monomial, Power.product, Valuation.twos]
  exact ⟨hu, hv, Complex.I_ne_zero,
    (Value.arithmetic_denotes .twos hu hv).2.2.2.1 Complex.I_ne_zero⟩

end SymCalc
