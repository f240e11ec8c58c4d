import Mathlib
import SymCalc.Proofs.OrderAndEquality
import SymCalc.Proofs.FormalSums

/-!
# Canonical sums are told apart

On canonical sums the order of terms finds no difference exactly where equality holds, so a
canonical sum is a list without repetitions that is determined by its members. Main statement:
canonical sums that are read as the same element in every ring of formal sums are equal, for
exponents nested to any depth.
-/

namespace SymCalc

section Lists

variable {α : Type} {R : α → α → Prop} {xs ys : List α}

/-- What holds of any two members of a list holds of any two members of a list related to it. -/
theorem pairwise_of_forall₂ {P Q : α → α → Prop} (hR : List.Forall₂ R xs ys)
    (h : ∀ x ∈ xs, ∀ x' ∈ xs, ∀ y ∈ ys, ∀ y' ∈ ys, R x y → R x' y' → P x x' → Q y y')
    (hxs : xs.Pairwise P) : ys.Pairwise Q := by
  induction hR with
  | nil => exact .nil
  | @cons x y xs ys hxy hrest ih =>
    obtain ⟨hx, hpairs⟩ := List.pairwise_cons.mp hxs
    refine List.pairwise_cons.mpr ⟨fun y' hy' => ?_, ih (fun a ha a' ha' b hb b' hb' => ?_) hpairs⟩
    · obtain ⟨i, hi, rfl⟩ := List.getElem_of_mem hy'
      have hlength : i < xs.length := hrest.length_eq ▸ hi
      exact h x List.mem_cons_self _ (List.mem_cons_of_mem x (List.getElem_mem hlength)) y
        List.mem_cons_self _ (List.mem_cons_of_mem y hy') hxy (hrest.get hlength hi)
        (hx _ (List.getElem_mem hlength))
    · exact h a (List.mem_cons_of_mem x ha) a' (List.mem_cons_of_mem x ha') b
        (List.mem_cons_of_mem y hb) b' (List.mem_cons_of_mem y hb')

/-- Lists without repetitions that are in order and have the same members up to the order are
the same up to the order. -/
theorem forall₂_of_sorted {order : α → α → Ordering} (laws : ∀ a, OrdersFrom order a)
    (hxs : xs.Pairwise fun a b => order a b = .lt) (hys : ys.Pairwise fun a b => order a b = .lt)
    (hx : ∀ x ∈ xs, ∃ y ∈ ys, order x y = .eq) (hy : ∀ y ∈ ys, ∃ x ∈ xs, order x y = .eq) :
    List.Forall₂ (fun x y => order x y = .eq) xs ys := by
  -- A member of a list in order does not come before the first.
  have hfirst {a b : α} {as : List α} (has : (a :: as).Pairwise fun a b => order a b = .lt)
      (hb : b ∈ a :: as) : order a b ≠ .gt := by
    rcases List.mem_cons.mp hb with rfl | hb
    · rw [(laws _).self]
      decide
    · rw [(List.pairwise_cons.mp has).1 b hb]
      decide
  induction xs generalizing ys with
  | nil =>
    cases ys with
    | nil => exact .nil
    | cons y ys =>
      obtain ⟨x, hmem, -⟩ := hy y List.mem_cons_self
      cases hmem
  | cons x xs ih =>
    cases ys with
    | nil =>
      obtain ⟨y, hmem, -⟩ := hx x List.mem_cons_self
      cases hmem
    | cons y ys =>
      obtain ⟨hbefore, hxs'⟩ := List.pairwise_cons.mp hxs
      obtain ⟨hbefore', hys'⟩ := List.pairwise_cons.mp hys
      have hxy : order x y = .eq := by
        obtain ⟨y', hy', heq⟩ := hx x List.mem_cons_self
        obtain ⟨x', hx', heq'⟩ := hy y List.mem_cons_self
        have hge : order x y ≠ .lt := by
          rw [(laws x).congr y' y heq, (laws y).swap y']
          cases h : order y y' with
          | gt => exact absurd h (hfirst hys hy')
          | lt | eq => decide
        have hle : order x y ≠ .gt := by
          rw [(laws y).swap x, ← (laws x').congr y x heq', ← (laws x').swap x]
          exact hfirst hxs hx'
        cases h : order x y with
        | eq => rfl
        | lt => exact absurd h hge
        | gt => exact absurd h hle
      -- What corresponds to the first member of the one list is the first of the other.
      refine .cons hxy (ih hxs' hys' (fun a ha => ?_) fun b hb => ?_)
      · obtain ⟨b, hb, heq⟩ := hx a (List.mem_cons_of_mem x ha)
        rcases List.mem_cons.mp hb with rfl | hb
        · have hlt := hbefore a ha
          rw [(laws x).congr b a hxy, (laws a).swap b, heq] at hlt
          cases hlt
        · exact ⟨b, hb, heq⟩
      · obtain ⟨a, ha, heq⟩ := hy b (List.mem_cons_of_mem y hb)
        rcases List.mem_cons.mp ha with rfl | ha
        · have hlt := hbefore' b hb
          rw [← (laws a).congr y b hxy, heq] at hlt
          cases hlt
        · exact ⟨a, ha, heq⟩

end Lists

/-- The order does not tell canonical terms apart when they have the same signature and
magnitude, and canonical sums when they are equal. -/
theorem Term.order_eq_eq_iff_nested :
    (∀ t u : Term ℚ, t.Canonical → u.Canonical →
      (Term.order t u = .eq ↔ t.sameSignature u = true ∧ t.magnitude = u.magnitude)) ∧
    ∀ p q : Poly ℚ, p.Canonical → q.Canonical → (Poly.order p q = .eq ↔ p.equal q = true) := by
  have hover := Term.over_univ_nested (M := ℚ)
  have hiff := Term.order_eq_eq_iff_over Magnitude.totallyOrdered_rat
  refine ⟨fun t u ht hu => ?_, fun p q hp hq => hiff.2 p q hp (hover.2 p) hq (hover.2 q)⟩
  rw [hiff.1 t u ht (hover.1 t) hu (hover.1 u), beq_iff_eq]

/-- The terms of a canonical sum are in order and of different signatures. -/
theorem Poly.Canonical.terms_pairwise {p : Poly ℚ} (hp : p.Canonical) :
    p.terms.Pairwise fun t u => Term.order t u ≠ .gt ∧ t.sameSignature u = false := by
  cases hp with
  | term ht =>
    rw [Poly.terms]
    split
    · exact .nil
    · exact List.pairwise_singleton _ _
  | sum terms nonzero sorted distinct => exact sorted.and distinct

/-- The terms of a canonical sum are in strict order. -/
theorem Poly.Canonical.terms_lt {p : Poly ℚ} (hp : p.Canonical) :
    p.terms.Pairwise fun t u => Term.order t u = .lt := by
  have hmem := hp.mem_terms
  refine hp.terms_pairwise.imp_of_mem fun {t u} ht hu h => ?_
  have hne : Term.order t u ≠ .eq := by
    intro heq
    have hsame := (Term.order_eq_eq_iff_nested.1 t u (hmem t ht).1 (hmem u hu).1).mp heq
    rw [h.2] at hsame
    cases hsame.1
  cases horder : Term.order t u with
  | lt => rfl
  | eq => exact absurd horder hne
  | gt => exact absurd horder h.1

/-- The exponents of a sum are nested at most so deep. -/
def Poly.Within : ℕ → Poly ℚ → Prop
  | 0, p => ∀ t ∈ p.terms, t.powers = []
  | n + 1, p => ∀ t ∈ p.terms, ∀ w ∈ t.powers, Within n w.exponent

namespace Poly

/-- What is nested at most so deep is nested at most one deeper. -/
theorem Within.succ {n : ℕ} {p : Poly ℚ} (h : p.Within n) : p.Within (n + 1) := by
  induction n generalizing p with
  | zero =>
    intro t ht w hw
    rw [h t ht] at hw
    cases hw
  | succ n ih => exact fun t ht w hw => ih (h t ht w hw)

/-- What is nested at most so deep is nested at most deeper. -/
theorem Within.mono {m n : ℕ} (hmn : m ≤ n) {p : Poly ℚ} (h : p.Within m) : p.Within n := by
  induction hmn with
  | refl => exact h
  | step _ ih => exact ih.succ

/-- A sum without terms is not nested. -/
theorem within_of_terms_nil {p : Poly ℚ} (h : p.terms = []) (n : ℕ) : p.Within n := by
  refine Within.mono (Nat.zero_le n) fun t ht => ?_
  rw [h] at ht
  cases ht

/-- Finitely many bounds that can be raised have a common one. -/
theorem exists_bound {α : Type} {P : ℕ → α → Prop} (hmono : ∀ {m n x}, m ≤ n → P m x → P n x)
    {xs : List α} (h : ∀ x ∈ xs, ∃ n, P n x) : ∃ n, ∀ x ∈ xs, P n x := by
  induction xs with
  | nil => exact ⟨0, List.forall_mem_nil _⟩
  | cons x xs ih =>
    obtain ⟨hx, hxs⟩ := List.forall_mem_cons.mp h
    obtain ⟨m, hm⟩ := hx
    obtain ⟨n, hn⟩ := ih hxs
    have hfirst : P (max m n) x := hmono (le_max_left m n) hm
    have hrest : ∀ y ∈ xs, P (max m n) y := fun y hy => hmono (le_max_right m n) (hn y hy)
    exact ⟨max m n, List.forall_mem_cons.mpr ⟨hfirst, hrest⟩⟩

/-- Exponents are nested to some depth. -/
theorem exists_within (p : Poly ℚ) : ∃ n, p.Within n := by
  refine (Term.terms_induction (P := fun t => ∃ n, ∀ w ∈ t.powers, w.exponent.Within n)
    (Q := fun p => ∃ n, p.Within n) ?_ ?_).2 p
  · exact fun t hexp => exists_bound (P := fun n (w : Power ℚ) => w.exponent.Within n)
      (fun hmn h => h.mono hmn) hexp
  · intro p hterms
    obtain ⟨n, hn⟩ := exists_bound (fun hmn h w hw => (h w hw).mono hmn) hterms
    exact ⟨n + 1, hn⟩

end Poly

namespace Reading

variable (r : Reading)

/-- A name that does not occur has the exponent zero. -/
theorem powers_apply_of_ne {ps : List (Power ℚ)} {x : Text} (h : ∀ p ∈ ps, p.name ≠ x) :
    r.powers ps x = 0 := by
  induction ps with
  | nil => rfl
  | cons p ps ih =>
    obtain ⟨hp, hps⟩ := List.forall_mem_cons.mp h
    rw [powers_cons, Finsupp.add_apply, Finsupp.single_eq_of_ne hp.symm, ih hps, add_zero]

/-- Of powers in strict order the first has its own exponent. -/
theorem powers_apply_first {p : Power ℚ} {ps : List (Power ℚ)}
    (h : (p :: ps).Pairwise fun p q => Text.order p.name q.name = .lt) :
    r.powers (p :: ps) p.name = r.eval p.exponent := by
  have hothers : ∀ q ∈ ps, q.name ≠ p.name := by
    intro q hq heq
    have hlt := (List.pairwise_cons.mp h).1 q hq
    rw [heq, Text.order_eq_eq_iff.mpr rfl] at hlt
    cases hlt
  rw [powers_cons, Finsupp.add_apply, Finsupp.single_eq_same, r.powers_apply_of_ne hothers,
    add_zero]

/-- A name before the first of powers in strict order does not occur among them. -/
theorem powers_apply_before {x : Text} {q : Power ℚ} {qs : List (Power ℚ)}
    (h : (q :: qs).Pairwise fun p q => Text.order p.name q.name = .lt)
    (hx : Text.order x q.name = .lt) : r.powers (q :: qs) x = 0 := by
  have hbefore : ∀ p ∈ q :: qs, Text.order x p.name = .lt := by
    refine List.forall_mem_cons.mpr ⟨hx, fun p hp => ?_⟩
    have hle : Text.order q.name p.name ≠ .gt := by
      rw [(List.pairwise_cons.mp h).1 p hp]
      decide
    exact (Text.order_laws x).lt_trans _ _ hx hle
  refine r.powers_apply_of_ne fun p hp heq => ?_
  have hlt := hbefore p hp
  rw [heq, Text.order_eq_eq_iff.mpr rfl] at hlt
  cases hlt

/-- Powers in strict order with exponents other than zero, which are told apart, are told
apart. -/
theorem equalAll_of_powers_eq {ps qs : List (Power ℚ)}
    (hps : ps.Pairwise fun p q => Text.order p.name q.name = .lt)
    (hqs : qs.Pairwise fun p q => Text.order p.name q.name = .lt)
    (hp : ∀ p ∈ ps, r.eval p.exponent ≠ 0) (hq : ∀ q ∈ qs, r.eval q.exponent ≠ 0)
    (hapart : ∀ p ∈ ps, ∀ q ∈ qs, r.eval p.exponent = r.eval q.exponent →
      p.exponent.equal q.exponent = true)
    (h : r.powers ps = r.powers qs) : Power.equalAll ps qs = true := by
  induction ps generalizing qs with
  | nil =>
    cases qs with
    | nil => rfl
    | cons q qs =>
      have hzero : r.powers (q :: qs) q.name = 0 := by rw [← h]; rfl
      rw [r.powers_apply_first hqs] at hzero
      exact absurd hzero (hq q List.mem_cons_self)
  | cons p ps ih =>
    cases qs with
    | nil =>
      have hzero : r.powers (p :: ps) p.name = 0 := by rw [h]; rfl
      rw [r.powers_apply_first hps] at hzero
      exact absurd hzero (hp p List.mem_cons_self)
    | cons q qs =>
      have hpfirst := r.powers_apply_first hps
      have hqfirst := r.powers_apply_first hqs
      -- The first names are the same, or the earlier one has two different exponents.
      have hname : p.name = q.name := by
        cases horder : Text.order p.name q.name with
        | eq => exact Text.order_eq_eq_iff.mp horder
        | lt =>
          rw [h, r.powers_apply_before hqs horder] at hpfirst
          exact absurd hpfirst.symm (hp p List.mem_cons_self)
        | gt =>
          have hbefore : Text.order q.name p.name = .lt := by
            rw [(Text.order_laws p.name).swap, horder]
            rfl
          rw [← h, r.powers_apply_before hps hbefore] at hqfirst
          exact absurd hqfirst.symm (hq q List.mem_cons_self)
      have heval : r.eval p.exponent = r.eval q.exponent := by
        rw [← hpfirst, ← hqfirst, h, hname]
      have hrest : r.powers ps = r.powers qs := by
        rw [powers_cons, powers_cons, hname, heval] at h
        exact add_left_cancel h
      have hhead : Power.equal p q = true :=
        Power.equal_iff.mpr ⟨hname, hapart p List.mem_cons_self q List.mem_cons_self heval⟩
      have htail : Power.equalAll ps qs = true := by
        refine ih (List.pairwise_cons.mp hps).2 (List.pairwise_cons.mp hqs).2
          (List.forall_mem_cons.mp hp).2 (List.forall_mem_cons.mp hq).2 ?_ hrest
        exact fun a ha b hb => hapart a (List.mem_cons_of_mem p ha) b (List.mem_cons_of_mem q hb)
      rw [Power.equalAll, hhead, htail]
      rfl

/-- How often a real or imaginary monomial occurs in an element. -/
def coefficient (i : Bool) (μ : r.Monomial) (x : r.Ring) : ℚ :=
  if i then x.im.coeff μ else x.re.coeff μ

/-- Coefficients of a sum are added. -/
theorem coefficient_add (i : Bool) (μ : r.Monomial) (x y : r.Ring) :
    r.coefficient i μ (x + y) = r.coefficient i μ x + r.coefficient i μ y := by
  cases i <;> rfl

/-- A term has its magnitude for the only coefficient. -/
theorem coefficient_term (t : Term ℚ) :
    r.coefficient t.imaginary (r.powers t.powers) (r.term t) = t.magnitude := by
  cases h : t.imaginary <;> simp [coefficient, term, part, h]

/-- All other coefficients of a term are zero. -/
theorem coefficient_term_of_ne {i : Bool} {μ : r.Monomial} {t : Term ℚ}
    (h : t.imaginary = i → r.powers t.powers ≠ μ) : r.coefficient i μ (r.term t) = 0 := by
  cases ht : t.imaginary <;> cases i <;> simp_all [coefficient, term, part]

/-- A coefficient that is not zero comes from a term of the list. -/
theorem exists_of_coefficient_ne_zero {i : Bool} {μ : r.Monomial} {ts : List (Term ℚ)}
    (h : r.coefficient i μ (r.total ts) ≠ 0) :
    ∃ t ∈ ts, t.imaginary = i ∧ r.powers t.powers = μ := by
  induction ts with
  | nil =>
    cases i <;> exact absurd rfl h
  | cons t ts ih =>
    by_cases ht : t.imaginary = i ∧ r.powers t.powers = μ
    · exact ⟨t, List.mem_cons_self, ht⟩
    · have hzero := r.coefficient_term_of_ne (i := i) (μ := μ) (t := t) fun hi hμ => ht ⟨hi, hμ⟩
      rw [total_cons, coefficient_add, hzero, zero_add] at h
      obtain ⟨u, hu, hsame⟩ := ih h
      exact ⟨u, List.mem_cons_of_mem t hu, hsame⟩

/-- In a list of terms of which no two have the same monomial, a term has its magnitude for the
coefficient. -/
theorem coefficient_total {ts : List (Term ℚ)}
    (hdistinct : ts.Pairwise fun t u =>
      t.imaginary = u.imaginary → r.powers t.powers ≠ r.powers u.powers)
    {t : Term ℚ} (ht : t ∈ ts) :
    r.coefficient t.imaginary (r.powers t.powers) (r.total ts) = t.magnitude := by
  induction ts with
  | nil => cases ht
  | cons u us ih =>
    obtain ⟨hu, hus⟩ := List.pairwise_cons.mp hdistinct
    rw [total_cons, coefficient_add]
    rcases List.mem_cons.mp ht with rfl | ht
    · have hrest : r.coefficient t.imaginary (r.powers t.powers) (r.total us) = 0 := by
        by_contra hne
        obtain ⟨w, hw, hi, hμ⟩ := r.exists_of_coefficient_ne_zero hne
        exact hu w hw hi.symm hμ.symm
      rw [hrest, coefficient_term, add_zero]
    · have hfirst : r.coefficient t.imaginary (r.powers t.powers) (r.term u) = 0 :=
        r.coefficient_term_of_ne (hu t ht)
      rw [hfirst, ih hus ht, zero_add]

/-- A reading tells sums of a class apart, among them zero. -/
structure Separates (C : Poly ℚ → Prop) : Prop where
  /-- Sums of the class that are read as the same are equal. -/
  apart : ∀ {p q : Poly ℚ}, C p → C q → p.Canonical → q.Canonical → r.eval p = r.eval q →
    p.equal q = true
  /-- Zero belongs to the class. -/
  zero : C (.term .zero)

variable {r} {C : Poly ℚ → Prop}

/-- A canonical sum of the class with a term is not read as zero. -/
theorem Separates.eval_ne_zero (hr : r.Separates C) {p : Poly ℚ} (hC : C p) (hp : p.Canonical)
    (hterms : p.terms ≠ []) : r.eval p ≠ 0 := by
  intro hzero
  have hnone : (Poly.term (Term.zero : Term ℚ)).terms = [] := rfl
  have hequal := hr.apart hC hr.zero hp Poly.zero_canonical (hzero.trans (r.eval_zero _ hnone).symm)
  have hp := hp.mem_terms
  rw [Poly.equal_eq_equalAll (fun t h => (hp t h).2) (by simp [hnone]), hnone,
    Term.equalAll_iff, List.forall₂_nil_right_iff] at hequal
  exact hterms hequal

/-- Canonical terms with exponents of the class that have the same monomial have the same
signature. -/
theorem Separates.sameSignature (hr : r.Separates C) {t u : Term ℚ} (ht : t.Canonical)
    (hu : u.Canonical) (htC : ∀ w ∈ t.powers, C w.exponent) (huC : ∀ w ∈ u.powers, C w.exponent)
    (hi : t.imaginary = u.imaginary) (hμ : r.powers t.powers = r.powers u.powers) :
    t.sameSignature u = true := by
  obtain ⟨tnames, texponents, tnonzero⟩ := ht
  obtain ⟨unames, uexponents, unonzero⟩ := hu
  have hpowers : Power.equalAll t.powers u.powers = true := by
    refine r.equalAll_of_powers_eq tnames unames ?_ ?_ ?_ hμ
    · exact fun p hp => hr.eval_ne_zero (htC p hp) (texponents p hp) (tnonzero p hp)
    · exact fun q hq => hr.eval_ne_zero (huC q hq) (uexponents q hq) (unonzero q hq)
    · exact fun p hp q hq =>
        hr.apart (htC p hp) (huC q hq) (texponents p hp) (uexponents q hq)
  rw [Term.sameSignature, hi, hpowers, beq_self_eq_true]
  rfl

/-- To a term of a canonical sum belongs an equal one of any canonical sum that is read as the
same element, if the exponents are of the class. -/
theorem Separates.exists_equal (hr : r.Separates C) {p q : Poly ℚ} (hp : p.Canonical)
    (hq : q.Canonical) (hpC : ∀ t ∈ p.terms, ∀ w ∈ t.powers, C w.exponent)
    (hqC : ∀ t ∈ q.terms, ∀ w ∈ t.powers, C w.exponent) (h : r.sum p = r.sum q) {t : Term ℚ}
    (ht : t ∈ p.terms) :
    ∃ u ∈ q.terms, t.sameSignature u = true ∧ t.magnitude = u.magnitude := by
  -- Of the terms of a canonical sum no two have the same monomial.
  have hdistinct : ∀ p : Poly ℚ, p.Canonical → (∀ t ∈ p.terms, ∀ w ∈ t.powers, C w.exponent) →
      p.terms.Pairwise fun t u =>
        t.imaginary = u.imaginary → r.powers t.powers ≠ r.powers u.powers := by
    intro p hp hpC
    have hmem := hp.mem_terms
    refine hp.terms_pairwise.imp_of_mem fun {t u} ht hu hne hi hμ => ?_
    have hsame := hr.sameSignature (hmem t ht).1 (hmem u hu).1 (hpC t ht) (hpC u hu) hi hμ
    rw [hne.2] at hsame
    cases hsame
  obtain ⟨htcanonical, htzero⟩ := hp.mem_terms t ht
  have hmagnitude : t.magnitude ≠ 0 := (Magnitude.isZero_rat_false _).mp htzero
  have hcoefficient : r.coefficient t.imaginary (r.powers t.powers) (r.total q.terms) =
      t.magnitude := by
    rw [← sum_eq_total, ← h, sum_eq_total]
    exact r.coefficient_total (hdistinct p hp hpC) ht
  obtain ⟨u, hu, hi, hμ⟩ := r.exists_of_coefficient_ne_zero (hcoefficient ▸ hmagnitude)
  have hsame := hr.sameSignature htcanonical (hq.mem_terms u hu).1 (hpC t ht) (hqC u hu) hi.symm
    hμ.symm
  refine ⟨u, hu, hsame, ?_⟩
  rw [← hcoefficient, ← hi, ← hμ]
  exact r.coefficient_total (hdistinct q hq hqC) hu

/-- Canonical sums with exponents of the class that are read as the same element are equal. -/
theorem Separates.equal_of_sum_eq (hr : r.Separates C) {p q : Poly ℚ} (hp : p.Canonical)
    (hq : q.Canonical) (hpC : ∀ t ∈ p.terms, ∀ w ∈ t.powers, C w.exponent)
    (hqC : ∀ t ∈ q.terms, ∀ w ∈ t.powers, C w.exponent) (h : r.sum p = r.sum q) :
    p.equal q = true := by
  have hpterms := hp.mem_terms
  have hqterms := hq.mem_terms
  have hiff : ∀ t ∈ p.terms, ∀ u ∈ q.terms, (Term.order t u = .eq ↔
      t.sameSignature u = true ∧ t.magnitude = u.magnitude) :=
    fun t ht u hu => Term.order_eq_eq_iff_nested.1 t u (hpterms t ht).1 (hqterms u hu).1
  have hleft : ∀ t ∈ p.terms, ∃ u ∈ q.terms, Term.order t u = .eq := by
    intro t ht
    obtain ⟨u, hu, hsame⟩ := hr.exists_equal hp hq hpC hqC h ht
    exact ⟨u, hu, (hiff t ht u hu).mpr hsame⟩
  have hright : ∀ u ∈ q.terms, ∃ t ∈ p.terms, Term.order t u = .eq := by
    intro u hu
    obtain ⟨t, ht, hsame, hmagnitude⟩ := hr.exists_equal hq hp hqC hpC h.symm hu
    exact ⟨t, ht, (hiff t ht u hu).mpr ⟨Term.sameSignature_symm hsame, hmagnitude.symm⟩⟩
  have hlists := forall₂_of_sorted Term.order_laws hp.terms_lt hq.terms_lt hleft hright
  have horder : Poly.order p q = .eq := by
    rw [Poly.order_eq, Term.orderAll_eq, compareLex_eq_eq_iff]
    exact hlists
  exact (Term.order_eq_eq_iff_nested.2 p q hp hq).mp horder

/-- Canonical sums that are nested at most so deep are told apart at that stage. -/
theorem equal_of_stage_eq (n : ℕ) {p q : Poly ℚ} (hp : p.Canonical) (hq : q.Canonical)
    (hpn : p.Within n) (hqn : q.Within n) (h : (stage n).sum p = (stage n).sum q) :
    p.equal q = true := by
  induction n generalizing p q with
  | zero =>
    -- Without exponents there is nothing to tell apart but zero.
    have hzero : (stage 0).Separates fun e => e.terms = [] := by
      refine ⟨fun {e e'} he he' hec hec' _ => ?_, rfl⟩
      rw [Poly.equal_eq_equalAll (by simp [he]) (by simp [he']), he, he']
      rfl
    refine hzero.equal_of_sum_eq hp hq (fun t ht w hw => ?_) (fun t ht w hw => ?_) h
    · rw [hpn t ht] at hw
      cases hw
    · rw [hqn t ht] at hw
      cases hw
  | succ n ih =>
    have hstage : (stage (n + 1)).Separates fun e => e.Within n :=
      ⟨fun he he' hec hec' heval => ih hec hec' he he' heval,
        Poly.within_of_terms_nil rfl n⟩
    exact hstage.equal_of_sum_eq hp hq hpn hqn h

end Reading

/-- Canonical sums that are read as the same element in every ring of formal sums are equal. -/
theorem Poly.equal_of_sum_eq {p q : Poly ℚ} (hp : p.Canonical) (hq : q.Canonical)
    (h : ∀ r : Reading, r.sum p = r.sum q) : p.equal q = true := by
  obtain ⟨m, hm⟩ := p.exists_within
  obtain ⟨n, hn⟩ := q.exists_within
  exact Reading.equal_of_stage_eq (max m n) hp hq (hm.mono (le_max_left m n))
    (hn.mono (le_max_right m n)) (h _)

end SymCalc
