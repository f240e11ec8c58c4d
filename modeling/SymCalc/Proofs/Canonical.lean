import Mathlib
import SymCalc.Proofs.TermOrder
import SymCalc.Algebra.Scalar

/-!
# Canonical terms and sums

A term is canonical when its powers are in the order of their names, each name once, with
exponents that are canonical and not zero. A list of terms is canonical when its terms are,
none of them is zero, they are sorted and no two of them could be added into one. Main
statements: equality of sums is symmetric, and on canonical sums it is transitive, whatever is
nested in the exponents.
-/

namespace SymCalc

/-- A symmetry that holds of the members of a list holds of lists member by member. -/
theorem forall₂_symm_of_mem {α : Type} {R : α → α → Prop} {xs ys : List α}
    (h : ∀ x ∈ xs, ∀ y, R x y → R y x) (hxy : List.Forall₂ R xs ys) : List.Forall₂ R ys xs := by
  induction hxy with
  | nil => exact .nil
  | cons hr _ ih =>
    obtain ⟨hx, hxs⟩ := List.forall_mem_cons.mp h
    exact .cons (hx _ hr) (ih hxs)

/-- A transitivity that holds of the members of lists holds of lists member by member. -/
theorem forall₂_trans_of_mem {α : Type} {R : α → α → Prop} {xs ys zs : List α}
    (h : ∀ x ∈ xs, ∀ y ∈ ys, ∀ z ∈ zs, R x y → R y z → R x z) (hxy : List.Forall₂ R xs ys)
    (hyz : List.Forall₂ R ys zs) : List.Forall₂ R xs zs := by
  induction hxy generalizing zs with
  | nil => exact hyz
  | cons hr _ ih =>
    cases hyz with
    | cons hs htail =>
      refine .cons (h _ List.mem_cons_self _ List.mem_cons_self _ List.mem_cons_self hr hs) ?_
      refine ih (fun x hx y hy z hz => ?_) htail
      exact h x (List.mem_cons_of_mem _ hx) y (List.mem_cons_of_mem _ hy) z
        (List.mem_cons_of_mem _ hz)

variable {M : Type} [Magnitude M]

mutual

/-- A term whose powers are in order, each name once, with canonical exponents that have at
least one term other than zero. -/
inductive Term.Canonical : Term M → Prop where
  /-- The conditions on the powers of a term. -/
  | intro {t : Term M} (names : t.powers.Pairwise fun p q => Text.order p.name q.name = .lt)
    (exponents : ∀ p ∈ t.powers, p.exponent.Canonical)
    (nonzero : ∀ p ∈ t.powers, p.exponent.terms ≠ []) : t.Canonical

/-- A sum whose terms are canonical. Terms in a list are not zero, sorted, and of different
signatures. -/
inductive Poly.Canonical : Poly M → Prop where
  /-- A single canonical term, which may be zero. -/
  | term {t : Term M} (h : t.Canonical) : (Poly.term t).Canonical
  /-- The conditions on a list of terms. -/
  | sum {ts : List (Term M)} (terms : ∀ t ∈ ts, t.Canonical)
    (nonzero : ∀ t ∈ ts, t.isZero = false)
    (sorted : ts.Pairwise fun t u => Term.order t u ≠ .gt)
    (distinct : ts.Pairwise fun t u => t.sameSignature u = false) : (Poly.sum ts).Canonical

end

/-- Powers are equal when their names and their exponents are. -/
theorem Power.equal_iff {p q : Power M} :
    Power.equal p q = true ↔ p.name = q.name ∧ Poly.equal p.exponent q.exponent = true := by
  obtain ⟨x, e⟩ := p
  obtain ⟨y, f⟩ := q
  simp only [Power.equal, Bool.and_eq_true, decide_eq_true_eq]

/-- Lists of powers are equal when their members are, in order. -/
theorem Power.equalAll_iff {ps qs : List (Power M)} :
    Power.equalAll ps qs = true ↔ List.Forall₂ (fun p q => Power.equal p q = true) ps qs := by
  induction ps generalizing qs with
  | nil => cases qs <;> simp [Power.equalAll]
  | cons p ps ih => cases qs <;> simp [Power.equalAll, ih]

/-- Lists of terms are equal when their members are, in order. -/
theorem Term.equalAll_iff {ts us : List (Term M)} :
    Term.equalAll ts us = true ↔ List.Forall₂ (fun t u => Term.equal t u = true) ts us := by
  induction ts generalizing us with
  | nil => cases us <;> simp [Term.equalAll]
  | cons t ts ih => cases us <;> simp [Term.equalAll, ih]

/-- Terms are equal when both are zero, or when neither is and all their parts are equal. -/
theorem Term.equal_iff {t u : Term M} :
    Term.equal t u = true ↔ (t.isZero = true ∧ u.isZero = true) ∨
      (t.isZero = false ∧ u.isZero = false ∧ (t.magnitude == u.magnitude) = true ∧
        t.sameSignature u = true) := by
  obtain ⟨m, i, ps⟩ := t
  obtain ⟨n, j, qs⟩ := u
  simp only [Term.equal, Term.isZero, Term.sameSignature]
  cases Magnitude.isZero m <;> cases Magnitude.isZero n <;> simp [and_assoc]

/-- A term is equal to a list of terms other than zero when it is the list. -/
theorem Term.equal_sum (t : Term M) (us : List (Term M)) (hu : ∀ u ∈ us, u.isZero = false) :
    Poly.equal (.term t) (.sum us) = Term.equalAll (Poly.term t).terms us := by
  rw [Poly.terms]
  cases hz : t.isZero with
  | true =>
    rw [if_pos rfl]
    rcases us with _ | ⟨u, _ | ⟨v, us⟩⟩
    · simp [Poly.equal, Term.equalAll, hz]
    · have hne : ¬Term.equal t u = true := by
        rw [Term.equal_iff, hz, hu u (List.mem_singleton_self u)]
        simp
      simpa [Poly.equal, Term.equalAll] using hne
    · simp [Poly.equal, Term.equalAll]
  | false =>
    rw [if_neg Bool.false_ne_true]
    rcases us with _ | ⟨u, _ | ⟨v, us⟩⟩
    · simp [Poly.equal, Term.equalAll, hz]
    · simp [Poly.equal, Term.equalAll]
    · simp [Poly.equal, Term.equalAll]

/-- A list of terms other than zero is equal to a term when it is the list of that term. -/
theorem Term.equalOnly_eq (ts : List (Term M)) (u : Term M) (ht : ∀ t ∈ ts, t.isZero = false) :
    Term.equalOnly ts u = Term.equalAll ts (Poly.term u).terms := by
  rw [Poly.terms]
  rcases ts with _ | ⟨t, _ | ⟨v, ts⟩⟩
  · cases hu : u.isZero <;> simp [Term.equalOnly, Term.equalAll, hu]
  · have ht := ht t (List.mem_singleton_self t)
    cases hu : u.isZero with
    | true =>
      have hne : ¬Term.equal t u = true := by
        rw [Term.equal_iff, ht, hu]
        simp
      simpa [Term.equalOnly, Term.equalAll] using hne
    | false => simp [Term.equalOnly, Term.equalAll]
  · cases hu : u.isZero <;> simp [Term.equalOnly, Term.equalAll]

/-- Sums of terms other than zero are equal when their lists of terms are. -/
theorem Poly.equal_eq_equalAll {p q : Poly M} (hp : ∀ t ∈ p.terms, t.isZero = false)
    (hq : ∀ t ∈ q.terms, t.isZero = false) :
    p.equal q = true ↔ Term.equalAll p.terms q.terms = true := by
  cases p with
  | term t =>
    cases q with
    | term u =>
      rw [Poly.equal, Term.equal_iff, Poly.terms, Poly.terms]
      cases ht : t.isZero <;> cases hu : u.isZero <;>
        simp [Term.equalAll, Term.equal_iff, ht, hu]
    | sum us => rw [Term.equal_sum t us hq, Poly.terms_sum]
  | sum ts =>
    cases q with
    | term u => rw [Poly.equal, Term.equalOnly_eq ts u hp, Poly.terms_sum]
    | sum us => rw [Poly.equal, Poly.terms_sum, Poly.terms_sum]

/-- Having the same signature does not depend on the order of the terms, if equality of their
exponents does not. -/
theorem Term.sameSignature_symm_of {t u : Term M}
    (hexp : ∀ p ∈ t.powers, ∀ q, p.exponent.equal q = true → q.equal p.exponent = true)
    (h : t.sameSignature u = true) : u.sameSignature t = true := by
  rw [Term.sameSignature, Bool.and_eq_true, beq_iff_eq, Power.equalAll_iff] at h ⊢
  refine ⟨h.1.symm, forall₂_symm_of_mem (fun p hp q hpq => ?_) h.2⟩
  rw [Power.equal_iff] at hpq ⊢
  exact ⟨hpq.1.symm, hexp p hp q.exponent hpq.2⟩

/-- The terms of a canonical sum are canonical and not zero. -/
theorem Poly.Canonical.mem_terms {p : Poly M} (hp : p.Canonical) :
    ∀ t ∈ p.terms, t.Canonical ∧ t.isZero = false := by
  intro t ht
  cases hp with
  | term h =>
    obtain ⟨rfl, hzero⟩ := Poly.mem_terms_term.mp ht
    exact ⟨h, hzero⟩
  | sum terms nonzero _ _ => exact ⟨terms t ht, nonzero t ht⟩

/-- Having the same signature is transitive, if equality of the exponents is. -/
theorem Term.sameSignature_trans_of {t u w : Term M} (ht : t.Canonical) (hu : u.Canonical)
    (hw : w.Canonical)
    (hexp : ∀ p ∈ t.powers, ∀ q r : Poly M, p.exponent.Canonical → q.Canonical → r.Canonical →
      p.exponent.equal q = true → q.equal r = true → p.exponent.equal r = true)
    (htu : t.sameSignature u = true) (huw : u.sameSignature w = true) :
    t.sameSignature w = true := by
  obtain ⟨_, ht, _⟩ := ht
  obtain ⟨_, hu, _⟩ := hu
  obtain ⟨_, hw, _⟩ := hw
  rw [Term.sameSignature, Bool.and_eq_true, beq_iff_eq, Power.equalAll_iff] at htu huw ⊢
  refine ⟨htu.1.trans huw.1, forall₂_trans_of_mem (fun p hp q hq r hr hpq hqr => ?_) htu.2 huw.2⟩
  rw [Power.equal_iff] at hpq hqr ⊢
  exact ⟨hpq.1.trans hqr.1, hexp p hp q.exponent r.exponent (ht p hp) (hu q hq) (hw r hr)
    hpq.2 hqr.2⟩

variable [LawfulMagnitude M]

/-- Equality of terms and of sums does not depend on the order of the operands. -/
theorem Term.equal_symm_nested :
    (∀ t u : Term M, Term.equal t u = true → Term.equal u t = true) ∧
      ∀ p q : Poly M, p.equal q = true → q.equal p = true := by
  refine Term.nested_induction ?_ ?_ ?_
  · intro t hexp u h
    rw [Term.equal_iff] at h ⊢
    obtain ⟨ht, hu⟩ | ⟨ht, hu, hm, hs⟩ := h
    · exact .inl ⟨hu, ht⟩
    · exact .inr ⟨hu, ht, LawfulMagnitude.beq_symm hm, Term.sameSignature_symm_of hexp hs⟩
  · intro t ht q h
    match q, h with
    | .term u, h => simpa only [Poly.equal] using ht u (by simpa only [Poly.equal] using h)
    | .sum [], h => simpa only [Poly.equal, Term.equalOnly] using h
    | .sum [u], h =>
      simpa only [Poly.equal, Term.equalOnly] using ht u (by simpa only [Poly.equal] using h)
    | .sum (_ :: _ :: _), h => simp [Poly.equal] at h
  · intro ts hts q h
    match ts, q, hts, h with
    | [], .term u, _, h => simpa only [Poly.equal, Term.equalOnly] using h
    | [t], .term u, hts, h =>
      have ht := hts t (List.mem_singleton_self t) u
      simpa only [Poly.equal] using ht (by simpa only [Poly.equal, Term.equalOnly] using h)
    | _ :: _ :: _, .term u, _, h => simp [Poly.equal, Term.equalOnly] at h
    | ts, .sum us, hts, h =>
      simp only [Poly.equal, Term.equalAll_iff] at h ⊢
      exact forall₂_symm_of_mem hts h

/-- Equality of sums does not depend on the order of the operands. -/
theorem Poly.equal_symm {p q : Poly M} (h : p.equal q = true) : q.equal p = true :=
  Term.equal_symm_nested.2 p q h

/-- Having the same signature does not depend on the order of the terms. -/
theorem Term.sameSignature_symm {t u : Term M} (h : t.sameSignature u = true) :
    u.sameSignature t = true :=
  Term.sameSignature_symm_of (fun _ _ _ => Poly.equal_symm) h

/-- Equality of canonical terms and of canonical sums is transitive. -/
theorem Term.equal_trans_nested :
    (∀ t u w : Term M, t.Canonical → u.Canonical → w.Canonical →
      Term.equal t u = true → Term.equal u w = true → Term.equal t w = true) ∧
    ∀ p q r : Poly M, p.Canonical → q.Canonical → r.Canonical →
      p.equal q = true → q.equal r = true → p.equal r = true := by
  refine Term.terms_induction ?_ ?_
  · intro t hexp u w ht hu hw htu huw
    rw [Term.equal_iff] at htu huw ⊢
    obtain ⟨ht0, hu0⟩ | ⟨ht0, hu0, hm, hs⟩ := htu
    · obtain ⟨_, hw0⟩ | ⟨hu1, _⟩ := huw
      · exact .inl ⟨ht0, hw0⟩
      · rw [hu0] at hu1
        cases hu1
    · obtain ⟨hu1, _⟩ | ⟨_, hw0, hm', hs'⟩ := huw
      · rw [hu0] at hu1
        cases hu1
      · exact .inr ⟨ht0, hw0, LawfulMagnitude.beq_trans hm hm',
          Term.sameSignature_trans_of ht hu hw hexp hs hs'⟩
  · intro p hterms q r hp hq hr hpq hqr
    have hp := hp.mem_terms
    have hq := hq.mem_terms
    have hr := hr.mem_terms
    rw [Poly.equal_eq_equalAll (fun t h => (hp t h).2) (fun t h => (hq t h).2),
      Term.equalAll_iff] at hpq
    rw [Poly.equal_eq_equalAll (fun t h => (hq t h).2) (fun t h => (hr t h).2),
      Term.equalAll_iff] at hqr
    rw [Poly.equal_eq_equalAll (fun t h => (hp t h).2) (fun t h => (hr t h).2),
      Term.equalAll_iff]
    refine forall₂_trans_of_mem (fun t ht u hu w hw => ?_) hpq hqr
    exact hterms t ht u w (hp t ht).1 (hq u hu).1 (hr w hw).1

/-- Having the same signature is transitive among canonical terms. -/
theorem Term.sameSignature_trans {t u w : Term M} (ht : t.Canonical) (hu : u.Canonical)
    (hw : w.Canonical) (htu : t.sameSignature u = true) (huw : u.sameSignature w = true) :
    t.sameSignature w = true :=
  Term.sameSignature_trans_of ht hu hw (fun p _ => Term.equal_trans_nested.2 p.exponent) htu huw

end SymCalc
