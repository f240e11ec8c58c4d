import Mathlib
import SymCalc.Proofs.CanonicalRun
import SymCalc.Proofs.Separation

/-!
# Sums of terms form a commutative ring

Over exact magnitudes the laws of commutative rings hold of canonical sums of terms up to
equality: they hold in every ring of formal sums, and those rings tell canonical sums apart. Zero
is any sum without terms, so also a term of magnitude zero whose powers are in no order at all.
-/

namespace SymCalc

/-- What holds of the left members of related lists holds in another form of the right ones. -/
theorem forall_mem_of_forall₂ {α : Type} {R : α → α → Prop} {Q : α → Prop} {xs ys : List α}
    (h : List.Forall₂ R xs ys) (hQ : ∀ x ∈ xs, ∀ y, R x y → Q y) : ∀ y ∈ ys, Q y := by
  induction h with
  | nil => exact List.forall_mem_nil _
  | cons hxy _ ih =>
    obtain ⟨hx, hxs⟩ := List.forall_mem_cons.mp hQ
    exact List.forall_mem_cons.mpr ⟨hx _ hxy, ih hxs⟩

namespace Poly

/-- A sum that is equal to one with terms other than zero has equal terms. -/
theorem forall₂_of_equal {p q : Poly ℚ} (hp : ∀ t ∈ p.terms, t.isZero = false)
    (hne : p.terms ≠ []) (h : p.equal q = true) :
    List.Forall₂ (fun t u => t.equal u = true) p.terms q.terms := by
  -- A term that is equal to one other than zero is not zero.
  have hnonzero {t u : Term ℚ} (ht : t.isZero = false) (htu : t.equal u = true) :
      u.isZero = false := by
    rcases Term.equal_iff.mp htu with ⟨hzero, -⟩ | ⟨-, hu, -⟩
    · rw [ht] at hzero
      cases hzero
    · exact hu
  have hq : ∀ u ∈ q.terms, u.isZero = false := by
    cases q with
    | term u =>
      intro w hw
      obtain ⟨rfl, hzero⟩ := Poly.mem_terms_term.mp hw
      exact hzero
    | sum us =>
      cases p with
      | sum ts =>
        rw [Poly.equal, Term.equalAll_iff] at h
        exact forall_mem_of_forall₂ h fun t ht u htu => hnonzero (hp t ht) htu
      | term t =>
        have ht : t.isZero = false := by
          obtain ⟨u, hu⟩ := List.exists_mem_of_ne_nil _ hne
          exact (Poly.mem_terms_term.mp hu).2
        rcases us with _ | ⟨u, _ | ⟨v, us⟩⟩
        · exact List.forall_mem_nil _
        · have htu : t.equal u = true := by simpa only [Poly.equal] using h
          exact List.forall_mem_singleton.mpr (hnonzero ht htu)
        · simp [Poly.equal] at h
  exact Term.equalAll_iff.mp ((Poly.equal_eq_equalAll hp hq).mp h)

end Poly

/-- A term with the signature of a canonical one is canonical, and so is a sum that is equal to a
canonical one other than zero. -/
theorem Term.canonical_of_sameSignature_nested :
    (∀ t u : Term ℚ, t.Canonical → t.sameSignature u = true → u.Canonical) ∧
    ∀ p q : Poly ℚ, p.Canonical → p.terms ≠ [] → p.equal q = true →
      q.Canonical ∧ q.terms ≠ [] := by
  refine Term.terms_induction ?_ ?_
  · intro t hexp u ht hsame
    obtain ⟨names, exponents, nonzero⟩ := ht
    rw [Term.sameSignature, Bool.and_eq_true, Power.equalAll_iff] at hsame
    have hpowers := hsame.2
    have hnames : u.powers.Pairwise fun p q => Text.order p.name q.name = .lt := by
      refine pairwise_of_forall₂ hpowers ?_ names
      intro p _ p' _ q _ q' _ hpq hpq' hlt
      rw [← (Power.equal_iff.mp hpq).1, ← (Power.equal_iff.mp hpq').1]
      exact hlt
    have hexponents : ∀ q ∈ u.powers, q.exponent.Canonical ∧ q.exponent.terms ≠ [] := by
      refine forall_mem_of_forall₂ hpowers fun p hp q hpq => ?_
      exact hexp p hp q.exponent (exponents p hp) (nonzero p hp) (Power.equal_iff.mp hpq).2
    exact .intro hnames (fun q hq => (hexponents q hq).1) fun q hq => (hexponents q hq).2
  · intro p hterms q hp hne h
    have hmem := hp.mem_terms
    have hlists := Poly.forall₂_of_equal (fun t ht => (hmem t ht).2) hne h
    have hqne : q.terms ≠ [] := by
      intro hnil
      rw [hnil, List.forall₂_nil_right_iff] at hlists
      exact hne hlists
    -- Each term of `q` has the signature and the magnitude of a term of `p`.
    have hparts : ∀ t ∈ p.terms, ∀ u : Term ℚ, t.equal u = true →
        u.Canonical ∧ u.isZero = false ∧ t.sameSignature u = true ∧ t.magnitude = u.magnitude := by
      intro t ht u htu
      rcases Term.equal_iff.mp htu with ⟨hzero, -⟩ | ⟨-, hu, hmagnitude, hsame⟩
      · rw [(hmem t ht).2] at hzero
        cases hzero
      · exact ⟨hterms t ht u (hmem t ht).1 hsame, hu, hsame, beq_iff_eq.mp hmagnitude⟩
    have hqmem : ∀ u ∈ q.terms, u.Canonical ∧ u.isZero = false :=
      forall_mem_of_forall₂ hlists fun t ht u htu =>
        ⟨(hparts t ht u htu).1, (hparts t ht u htu).2.1⟩
    have horder : ∀ t ∈ p.terms, ∀ u ∈ q.terms, t.equal u = true → Term.order t u = .eq :=
      fun t ht u hu htu => (Term.order_eq_eq_iff_nested.1 t u (hmem t ht).1 (hqmem u hu).1).mpr
        (hparts t ht u htu).2.2
    have hpairs : q.terms.Pairwise fun u w =>
        Term.order u w ≠ .gt ∧ u.sameSignature w = false := by
      refine pairwise_of_forall₂ hlists ?_ hp.terms_pairwise
      intro t ht t' ht' u hu u' hu' htu htu' hpair
      have heq := horder t ht u hu htu
      have heq' := horder t' ht' u' hu' htu'
      constructor
      · rw [← (Term.order_laws t).congr u u' heq, (Term.order_laws u').swap t,
          ← (Term.order_laws t').congr u' t heq', ← (Term.order_laws t').swap t]
        exact hpair.1
      · have hsame := (hparts t ht u htu).2.2.1
        have hsame' := (hparts t' ht' u' htu').2.2.1
        have hne' := hpair.2
        rw [← Bool.not_eq_true] at hne' ⊢
        intro huu'
        have htu' := Term.sameSignature_trans (hmem t ht).1 (hqmem u hu).1 (hqmem u' hu').1 hsame
          huu'
        exact hne' (Term.sameSignature_trans (hmem t ht).1 (hqmem u' hu').1 (hmem t' ht').1 htu'
          (Term.sameSignature_symm hsame'))
    refine ⟨?_, hqne⟩
    cases q with
    | term u =>
      obtain ⟨w, hw⟩ := List.exists_mem_of_ne_nil _ hqne
      have hcanonical := (hqmem w hw).1
      rw [(Poly.mem_terms_term.mp hw).1] at hcanonical
      exact .term hcanonical
    | sum us =>
      exact .sum (fun u hu => (hqmem u hu).1) (fun u hu => (hqmem u hu).2)
        (hpairs.imp And.left) (hpairs.imp And.right)

/-- A term with the signature of a canonical one is canonical. -/
theorem Term.Canonical.of_sameSignature {t u : Term ℚ} (ht : t.Canonical)
    (h : t.sameSignature u = true) : u.Canonical :=
  Term.canonical_of_sameSignature_nested.1 t u ht h

namespace Poly

/-- The sums without terms are the terms of magnitude zero and the empty list. -/
theorem terms_eq_nil_iff {z : Poly ℚ} :
    z.terms = [] ↔ (∃ t : Term ℚ, t.isZero = true ∧ z = .term t) ∨ z = .sum [] := by
  cases z with
  | term t => cases h : t.isZero <;> simp [Poly.terms, h]
  | sum ts => simp

/-- Leaving out a term that is zero does not change a tidy list. -/
theorem tidy_append_zero {z : Term ℚ} (hz : z.isZero = true) (ts : List (Term ℚ)) :
    tidy (ts ++ [z]) = tidy ts := by
  have hfilter : [z].filter (fun t => !t.isZero) = [] := by simp [hz]
  rw [tidy, tidy, List.filter_append, hfilter, List.append_nil]

/-- A term whose signature does not occur is put at the end. -/
theorem addInto_eq_append {z : Term ℚ} {us : List (Term ℚ)}
    (h : ∀ u ∈ us, z.sameSignature u = false) : addInto z us = us ++ [z] := by
  induction us with
  | nil => rfl
  | cons u us ih =>
    obtain ⟨hu, hus⟩ := List.forall_mem_cons.mp h
    rw [addInto, hu, if_neg Bool.false_ne_true, ih hus, List.cons_append]

/-- A canonical sum stays canonical when zero is added, however zero is written. -/
theorem add_zero_canonical {p z : Poly ℚ} (hp : p.Canonical) (hz : z.terms = []) :
    (p.add z).Canonical ∧ (z.add p).Canonical := by
  cases z with
  | sum us =>
    rw [terms_sum] at hz
    subst hz
    have hnone : (Poly.sum ([] : List (Term ℚ))).Canonical :=
      .sum (List.forall_mem_nil _) (List.forall_mem_nil _) .nil .nil
    exact ⟨add_canonical hp hnone, add_canonical hnone hp⟩
  | term z =>
    have hzero : z.isZero = true := by simpa using terms_eq_nil_iff.mp hz
    by_cases hcanonical : z.Canonical
    · exact ⟨add_canonical hp (.term hcanonical), add_canonical (.term hcanonical) hp⟩
    -- No canonical term has the signature of one that is not canonical.
    have hother {t : Term ℚ} (ht : t.Canonical) :
        t.sameSignature z = false ∧ z.sameSignature t = false := by
      have hleft : ¬t.sameSignature z = true := fun h => hcanonical (ht.of_sameSignature h)
      have hright : ¬z.sameSignature t = true := fun h => hleft (Term.sameSignature_symm h)
      exact ⟨Bool.not_eq_true _ ▸ hleft, Bool.not_eq_true _ ▸ hright⟩
    cases hp with
    | @term t ht =>
      have hone : (Poly.sum (tidy [t])).Canonical :=
        tidy_canonical (List.forall_mem_singleton.mpr ht) (List.pairwise_singleton _ _)
      have hafter : tidy [t, z] = tidy [t] := tidy_append_zero hzero [t]
      have hbefore : tidy [z, t] = tidy [t] := by
        have hfilter : [z, t].filter (fun t => !t.isZero) = [t].filter fun t => !t.isZero := by
          rw [List.filter_cons_of_neg (by simp [hzero])]
        rw [tidy, tidy, hfilter]
      simp only [add, addTerms, (hother ht).1, (hother ht).2, Bool.false_eq_true, if_false,
        ofTerms, hafter, hbefore]
      exact ⟨hone, hone⟩
    | @sum ts terms nonzero sorted distinct =>
      have hlist : addTerm z ts = tidy ts := by
        rw [addTerm, addInto_eq_append fun t ht => (hother (terms t ht)).2,
          tidy_append_zero hzero]
      simp only [add, hlist]
      exact ⟨tidy_canonical terms distinct, tidy_canonical terms distinct⟩

/-- A canonical sum is equal to zero, however zero is written, when it has no terms. -/
theorem equal_zero_iff {p z : Poly ℚ} (hp : p.Canonical) (hz : z.terms = []) :
    p.equal z = true ↔ p.terms = [] := by
  have hmem := hp.mem_terms
  rw [equal_eq_equalAll (fun t ht => (hmem t ht).2) (by simp [hz]), hz, Term.equalAll_iff,
    List.forall₂_nil_right_iff]

end Poly

/-- Sums of terms form a commutative ring. Over the rationals, for canonical sums with
exponents nested to any depth: sums and products respect equality, both are commutative and
associative, products distribute over sums on either side, the term one is neutral for products,
and zero, be it a term of magnitude zero with any powers or the empty list, is neutral for sums and
is what a sum and its negative add up to. -/
theorem sums_form_commutative_ring (a b c : Poly ℚ) (ha : a.Canonical) (hb : b.Canonical)
    (hc : c.Canonical) :
    (a.equal b = true → (a.add c).equal (b.add c) = true ∧ (a.mul c).equal (b.mul c) = true) ∧
    (a.add b).equal (b.add a) = true ∧
    ((a.add b).add c).equal (a.add (b.add c)) = true ∧
    (a.mul b).equal (b.mul a) = true ∧
    ((a.mul b).mul c).equal (a.mul (b.mul c)) = true ∧
    (a.mul (b.add c)).equal ((a.mul b).add (a.mul c)) = true ∧
    ((a.add b).mul c).equal ((a.mul c).add (b.mul c)) = true ∧
    (a.mul (.term .one)).equal a = true ∧
    (Poly.mul (.term .one) a).equal a = true ∧
    ∀ z : Poly ℚ, (∃ t : Term ℚ, t.isZero = true ∧ z = .term t) ∨ z = .sum [] →
      (a.add z).equal a = true ∧ (z.add a).equal a = true ∧ (a.add a.neg).equal z = true := by
  have hab := Poly.add_canonical ha hb
  have hbc := Poly.add_canonical hb hc
  have hab' := Poly.mul_canonical ha hb
  have hac' := Poly.mul_canonical ha hc
  have hbc' := Poly.mul_canonical hb hc
  have hone : (Poly.term (.one : Term ℚ)).Canonical := .term (.of_powers_nil rfl)
  refine ⟨fun h => ⟨?_, ?_⟩, ?_, ?_, ?_, ?_, ?_, ?_, ?_, ?_, fun z hzero => ?_⟩
  · refine Poly.equal_of_sum_eq (Poly.add_canonical ha hc) hbc fun r => ?_
    rw [r.sum_add, r.sum_add, r.sum_equal h]
  · refine Poly.equal_of_sum_eq hac' hbc' fun r => ?_
    rw [r.sum_mul, r.sum_mul, r.sum_equal h]
  · refine Poly.equal_of_sum_eq hab (Poly.add_canonical hb ha) fun r => ?_
    rw [r.sum_add, r.sum_add, add_comm]
  · refine Poly.equal_of_sum_eq (Poly.add_canonical hab hc) (Poly.add_canonical ha hbc) fun r => ?_
    rw [r.sum_add, r.sum_add, r.sum_add, r.sum_add, add_assoc]
  · refine Poly.equal_of_sum_eq hab' (Poly.mul_canonical hb ha) fun r => ?_
    rw [r.sum_mul, r.sum_mul, mul_comm]
  · refine Poly.equal_of_sum_eq (Poly.mul_canonical hab' hc) (Poly.mul_canonical ha hbc')
      fun r => ?_
    rw [r.sum_mul, r.sum_mul, r.sum_mul, r.sum_mul, mul_assoc]
  · refine Poly.equal_of_sum_eq (Poly.mul_canonical ha hbc) (Poly.add_canonical hab' hac')
      fun r => ?_
    rw [r.sum_mul, r.sum_add, r.sum_add, r.sum_mul, r.sum_mul, mul_add]
  · refine Poly.equal_of_sum_eq (Poly.mul_canonical hab hc) (Poly.add_canonical hac' hbc')
      fun r => ?_
    rw [r.sum_mul, r.sum_add, r.sum_add, r.sum_mul, r.sum_mul, add_mul]
  · refine Poly.equal_of_sum_eq (Poly.mul_canonical ha hone) ha fun r => ?_
    rw [r.sum_mul, Reading.sum, r.term_one, mul_one]
  · refine Poly.equal_of_sum_eq (Poly.mul_canonical hone ha) ha fun r => ?_
    rw [r.sum_mul, Reading.sum, r.term_one, one_mul]
  · have hz := Poly.terms_eq_nil_iff.mpr hzero
    refine ⟨?_, ?_, ?_⟩
    · refine Poly.equal_of_sum_eq (Poly.add_zero_canonical ha hz).1 ha fun r => ?_
      rw [r.sum_add, r.sum_eq_zero hz, add_zero]
    · refine Poly.equal_of_sum_eq (Poly.add_zero_canonical ha hz).2 ha fun r => ?_
      rw [r.sum_add, r.sum_eq_zero hz, zero_add]
    · have hsum := Poly.add_canonical ha (Poly.neg_canonical ha)
      have hcancel : (a.add a.neg).equal (.term .zero) = true := by
        refine Poly.equal_of_sum_eq hsum Poly.zero_canonical fun r => ?_
        rw [r.sum_add, r.sum_neg, add_neg_cancel, r.sum_eq_zero rfl]
      exact (Poly.equal_zero_iff hsum hz).mpr ((Poly.equal_zero_iff hsum rfl).mp hcancel)

/-- The laws for an imaginary power with a symbolic exponent, a sum of two terms and a single
term, with a zero that repeats a name with exponent zero. -/
theorem symbolic_power_ring_laws :
    let a : Poly ℚ := .term ⟨2, true, [⟨"x", .term (.named "n")⟩]⟩
    let b : Poly ℚ := Poly.add (.term (.named "x")) (.term .one)
    let c : Poly ℚ := .term (.named "n")
    let z : Term ℚ := ⟨0, false, [⟨"x", .term .zero⟩, ⟨"x", c⟩]⟩
    ((a.add b).mul c).equal ((a.mul c).add (b.mul c)) = true ∧
    (b.add (.term z)).equal b = true ∧ (b.add b.neg).equal (.term z) = true ∧
    ((a.add b).add c).equal ((b.add a).add c) = true := by
  intro a b c z
  have hone : Magnitude.isZero (1 : ℚ) = false := by simp
  have ha : a.Canonical :=
    .term (Term.single_canonical _ _ _ (Term.named_canonical hone _) hone)
  have hb : b.Canonical :=
    Poly.add_canonical (.term (Term.named_canonical hone _)) (.term (.of_powers_nil rfl))
  have hc : c.Canonical := .term (Term.named_canonical hone _)
  obtain ⟨-, hcomm, -, -, -, -, hright, -, -, -⟩ := sums_form_commutative_ring a b c ha hb hc
  obtain ⟨-, -, -, -, -, -, -, -, -, hzero⟩ := sums_form_commutative_ring b a c hb ha hc
  obtain ⟨hneutral, -, hcancel⟩ := hzero (.term z) (.inl ⟨z, by simp [z, Term.isZero], rfl⟩)
  have hcongr := (sums_form_commutative_ring (a.add b) (b.add a) c (Poly.add_canonical ha hb)
    (Poly.add_canonical hb ha) hc).1 hcomm
  exact ⟨hright, hneutral, hcancel, hcongr.1⟩

end SymCalc
