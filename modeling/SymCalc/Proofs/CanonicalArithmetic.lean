import Mathlib
import SymCalc.Proofs.Canonical

/-!
# Arithmetic keeps sums canonical

Sums that cancel disappear from lists and from exponents, and terms that could be added are
added. Main statements: the sum, the product and the quotient of canonical sums of terms are
canonical.
-/

namespace SymCalc

variable {M : Type} [Magnitude M] [LawfulMagnitude M]

omit [LawfulMagnitude M] in
/-- Terms are canonical by their powers alone. -/
theorem Term.Canonical.of_powers {t u : Term M} (ht : t.Canonical) (h : u.powers = t.powers) :
    u.Canonical := by
  obtain ⟨names, exponents, nonzero⟩ := ht
  rw [← h] at names exponents nonzero
  exact ⟨names, exponents, nonzero⟩

omit [LawfulMagnitude M] in
/-- A term without variables is canonical. -/
theorem Term.Canonical.of_powers_nil {t : Term M} (h : t.powers = []) : t.Canonical := by
  constructor <;> simp [h]

omit [LawfulMagnitude M] in
/-- A power of one variable is canonical if its exponent is a canonical term other than zero. -/
theorem Term.single_canonical (m : M) (i : Bool) (name : Text) {t : Term M} (ht : t.Canonical)
    (hz : t.isZero = false) : (⟨m, i, [⟨name, .term t⟩]⟩ : Term M).Canonical := by
  have hterms : (Poly.term t).terms = [t] := by
    rw [Poly.terms, hz]
    rfl
  refine .intro (List.pairwise_singleton _ _) (List.forall_mem_singleton.mpr (.term ht)) ?_
  refine List.forall_mem_singleton.mpr ?_
  rw [hterms]
  exact List.cons_ne_nil t []

omit [LawfulMagnitude M] in
/-- A literal variable is canonical. -/
theorem Term.named_canonical (hone : Magnitude.isZero (1 : M) = false) (name : Text) :
    (Term.named name : Term M).Canonical :=
  Term.single_canonical 1 false name (.of_powers_nil rfl) hone

omit [LawfulMagnitude M] in
/-- A list of one canonical term other than zero is canonical. -/
theorem Poly.singleton_canonical {t : Term M} (ht : t.Canonical) (hz : t.isZero = false) :
    (Poly.sum [t]).Canonical :=
  .sum (List.forall_mem_singleton.mpr ht) (List.forall_mem_singleton.mpr hz)
    (List.pairwise_singleton _ _) (List.pairwise_singleton _ _)

namespace Poly

/-- Terms of different signatures, sorted and without zeros, are a canonical list. -/
theorem tidy_canonical {ts : List (Term M)} (hc : ∀ t ∈ ts, t.Canonical)
    (hd : ts.Pairwise fun t u => t.sameSignature u = false) : (Poly.sum (tidy ts)).Canonical := by
  have hmem : ∀ t ∈ tidy ts, t ∈ ts ∧ t.isZero = false := by
    intro t ht
    simpa using List.mem_filter.mp (mem_sortBy.mp ht)
  refine .sum (fun t ht => hc t (hmem t ht).1) (fun t ht => (hmem t ht).2)
    (sortBy_pairwise Term.order_laws _) ?_
  refine (sortBy_perm Term.order _).symm.pairwise (hd.filter _) fun htu => ?_
  rw [← Bool.not_eq_true] at htu ⊢
  exact fun h => htu (Term.sameSignature_symm h)

omit [LawfulMagnitude M] in
/-- A term in a list that a term was added into was there before, or has its signature. -/
theorem mem_addInto {t w : Term M} {us : List (Term M)} (hw : w ∈ addInto t us) :
    w ∈ us ∨ (w.imaginary = t.imaginary ∧ w.powers = t.powers) := by
  induction us with
  | nil =>
    rw [List.mem_singleton.mp hw]
    exact .inr ⟨rfl, rfl⟩
  | cons u us ih =>
    rw [addInto] at hw
    split at hw
    · rcases List.mem_cons.mp hw with rfl | hw
      · exact .inr ⟨rfl, rfl⟩
      · exact .inl (List.mem_cons_of_mem u hw)
    · rcases List.mem_cons.mp hw with rfl | hw
      · exact .inl List.mem_cons_self
      · exact (ih hw).imp_left (List.mem_cons_of_mem u)

/-- Adding a term into a list of canonical terms of different signatures gives such a list. -/
theorem addInto_distinct {t : Term M} {us : List (Term M)} (ht : t.Canonical)
    (hc : ∀ u ∈ us, u.Canonical) (hd : us.Pairwise fun t u => t.sameSignature u = false) :
    (addInto t us).Pairwise fun t u => t.sameSignature u = false := by
  induction us with
  | nil => exact List.pairwise_singleton _ _
  | cons u us ih =>
    obtain ⟨hcu, hcus⟩ := List.forall_mem_cons.mp hc
    obtain ⟨hdu, hdus⟩ := List.pairwise_cons.mp hd
    rw [addInto]
    split
    · -- What has the signature of `t` has that of `u`, and no other term of the list has.
      rename_i hsame
      refine List.pairwise_cons.mpr ⟨fun w hw => ?_, hdus⟩
      have hne := hdu w hw
      rw [← Bool.not_eq_true] at hne ⊢
      intro h
      exact hne (Term.sameSignature_trans hcu ht (hcus w hw) (Term.sameSignature_symm hsame) h)
    · rename_i hne
      refine List.pairwise_cons.mpr ⟨fun w hw => ?_, ih hcus hdus⟩
      rcases mem_addInto hw with hw | ⟨hi, hp⟩
      · exact hdu w hw
      · rw [← Bool.not_eq_true]
        intro h
        refine hne (Term.sameSignature_symm ?_)
        rwa [Term.sameSignature, ← hi, ← hp]

/-- Adding a term to a canonical list gives a canonical list. -/
theorem addTerm_canonical {t : Term M} {us : List (Term M)} (ht : t.Canonical)
    (hu : (Poly.sum us).Canonical) : (Poly.sum (addTerm t us)).Canonical := by
  cases hu with
  | sum terms nonzero sorted distinct =>
    refine tidy_canonical (fun w hw => ?_) (addInto_distinct ht terms distinct)
    rcases mem_addInto hw with hw | ⟨_, hp⟩
    · exact terms w hw
    · exact ht.of_powers hp

/-- Adding canonical terms to a canonical list one at a time gives a canonical list. -/
theorem foldl_addTerm_canonical {ts us : List (Term M)} (ht : ∀ t ∈ ts, t.Canonical)
    (hu : (Poly.sum us).Canonical) :
    (Poly.sum (ts.foldl (fun acc t => addTerm t acc) us)).Canonical := by
  induction ts generalizing us with
  | nil => exact hu
  | cons t ts ih =>
    obtain ⟨ht, hts⟩ := List.forall_mem_cons.mp ht
    exact ih hts (addTerm_canonical ht hu)

/-- The sum of two canonical terms is canonical. -/
theorem addTerms_canonical {t u : Term M} (ht : t.Canonical) (hu : u.Canonical) :
    (addTerms t u).Canonical := by
  rw [addTerms]
  split
  · exact .term (ht.of_powers rfl)
  · rename_i hne
    rw [Bool.not_eq_true] at hne
    exact tidy_canonical (by simp [ht, hu]) (by simp [hne])

/-- The sum of two canonical sums is canonical. -/
theorem add_canonical {p q : Poly M} (hp : p.Canonical) (hq : q.Canonical) :
    (p.add q).Canonical := by
  cases p with
  | term t =>
    cases hp with
    | term ht =>
      cases q with
      | term u =>
        cases hq with
        | term hu => exact addTerms_canonical ht hu
      | sum us => exact addTerm_canonical ht hq
  | sum ts =>
    cases q with
    | term u =>
      cases hq with
      | term hu => exact addTerm_canonical hu hp
    | sum us =>
      cases hp with
      | sum terms _ _ _ => exact foldl_addTerm_canonical terms hq

/-- The negative of a canonical sum is canonical. -/
theorem neg_canonical {p : Poly M} (hp : p.Canonical) : p.neg.Canonical := by
  cases hp with
  | term ht => exact .term (ht.of_powers rfl)
  | sum terms nonzero sorted distinct =>
    refine tidy_canonical (fun u hu => ?_) (List.pairwise_map.mpr distinct)
    obtain ⟨t, ht, rfl⟩ := List.mem_map.mp hu
    exact (terms t ht).of_powers rfl

end Poly

/-- Merging neighbours in a list sorted by name gives each name once; no name is new, and the
exponents stay canonical. -/
theorem Power.mergeFrom_canonical (p : Power M) {qs : List (Power M)}
    (hsorted : (p :: qs).Pairwise fun p q => Text.order p.name q.name ≠ .gt)
    (hexp : ∀ q ∈ p :: qs, q.exponent.Canonical) :
    ((mergeFrom p qs).Pairwise fun p q => Text.order p.name q.name = .lt) ∧
      (∀ r ∈ mergeFrom p qs, r.exponent.Canonical) ∧
      ∀ r ∈ mergeFrom p qs, Text.order p.name r.name ≠ .gt := by
  induction qs generalizing p with
  | nil =>
    have hself : Text.order p.name p.name ≠ .gt := by
      rw [Text.order_eq_eq_iff.mpr rfl]
      decide
    simpa [mergeFrom, hself] using hexp
  | cons q qs ih =>
    obtain ⟨hp, hrest⟩ := List.pairwise_cons.mp hsorted
    obtain ⟨hep, heq⟩ := List.forall_mem_cons.mp hexp
    obtain ⟨heq, heqs⟩ := List.forall_mem_cons.mp heq
    obtain ⟨hq, hqs⟩ := List.pairwise_cons.mp hrest
    by_cases hname : p.name = q.name
    · rw [mergeFrom, if_pos hname]
      refine ih ⟨p.name, p.exponent.add q.exponent⟩ ?_ ?_
      · exact List.pairwise_cons.mpr ⟨fun r hr => hp r (List.mem_cons_of_mem q hr), hqs⟩
      · exact List.forall_mem_cons.mpr ⟨Poly.add_canonical hep heq, heqs⟩
    · rw [mergeFrom, if_neg hname]
      obtain ⟨hstrict, hcanonical, hfrom⟩ := ih q hrest (List.forall_mem_cons.mpr ⟨heq, heqs⟩)
      have hlt : Text.order p.name q.name = .lt := by
        cases h : Text.order p.name q.name with
        | lt => rfl
        | eq => exact absurd (Text.order_eq_eq_iff.mp h) hname
        | gt => exact absurd h (hp q List.mem_cons_self)
      have hbefore : ∀ r ∈ mergeFrom q qs, Text.order p.name r.name = .lt :=
        fun r hr => (Text.order_laws p.name).lt_trans _ _ hlt (hfrom r hr)
      refine ⟨List.pairwise_cons.mpr ⟨hbefore, hstrict⟩,
        List.forall_mem_cons.mpr ⟨hep, hcanonical⟩, List.forall_mem_cons.mpr ⟨?_, ?_⟩⟩
      · rw [Text.order_eq_eq_iff.mpr rfl]
        decide
      · intro r hr
        rw [hbefore r hr]
        decide

/-- Powers with canonical exponents, brought into their normal form, make a canonical term. -/
theorem Term.make_canonical (m : M) (i : Bool) {ps : List (Power M)}
    (hexp : ∀ p ∈ ps, p.exponent.Canonical) : (make m i ps).Canonical := by
  have hsorted : (sortBy (fun p q : Power M => Text.order p.name q.name) ps).Pairwise
      fun p q => Text.order p.name q.name ≠ .gt :=
    sortBy_pairwise (fun p => OrdersFrom.comap Power.name (Text.order_laws p.name)) ps
  have hmerge : ((Power.merge (sortBy (fun p q : Power M => Text.order p.name q.name) ps)).Pairwise
      fun p q => Text.order p.name q.name = .lt) ∧
      ∀ r ∈ Power.merge (sortBy (fun p q : Power M => Text.order p.name q.name) ps),
        r.exponent.Canonical := by
    have hexp : ∀ p ∈ sortBy (fun p q : Power M => Text.order p.name q.name) ps,
        p.exponent.Canonical := fun p hp => hexp p (mem_sortBy.mp hp)
    cases hs : sortBy (fun p q : Power M => Text.order p.name q.name) ps with
    | nil => simp [Power.merge]
    | cons p qs =>
      rw [hs] at hsorted hexp
      obtain ⟨hstrict, hcanonical, _⟩ := Power.mergeFrom_canonical p hsorted hexp
      exact ⟨hstrict, hcanonical⟩
  refine .intro (hmerge.1.filter _) (fun p hp => hmerge.2 p (List.mem_filter.mp hp).1) ?_
  intro p hp
  simpa using (List.mem_filter.mp hp).2

omit [LawfulMagnitude M] in
/-- The exponents of a canonical term are canonical. -/
theorem Term.Canonical.exponent {t : Term M} (ht : t.Canonical) :
    ∀ p ∈ t.powers, p.exponent.Canonical := by
  obtain ⟨_, hexp, _⟩ := ht
  exact hexp

/-- The product of two canonical terms is canonical. -/
theorem Term.mul_canonical {t u : Term M} (ht : t.Canonical) (hu : u.Canonical) :
    (t.mul u).Canonical :=
  Term.make_canonical _ _ fun p hp => (List.mem_append.mp hp).elim (ht.exponent p) (hu.exponent p)

/-- The quotient of two canonical terms is canonical. -/
theorem Term.div_canonical {t u : Term M} (ht : t.Canonical) (hu : u.Canonical) :
    (t.div u).Canonical := by
  have hinverse : ∀ p ∈ u.inverse.powers, p.exponent.Canonical := by
    intro p hp
    obtain ⟨q, hq, rfl⟩ := List.mem_map.mp hp
    exact Poly.neg_canonical (hu.exponent q hq)
  have hmul : (t.mul u.inverse).Canonical :=
    Term.make_canonical _ _ fun p hp => (List.mem_append.mp hp).elim (ht.exponent p) (hinverse p)
  exact hmul.of_powers rfl

namespace Poly

omit [LawfulMagnitude M] in
/-- Zero is canonical. -/
theorem zero_canonical : (Poly.term (.zero : Term M)).Canonical :=
  .term (.of_powers_nil rfl)

/-- Combining canonical terms gives a canonical sum. -/
theorem combine_canonical {ts : List (Term M)} (ht : ∀ t ∈ ts, t.Canonical) :
    (combine ts).Canonical := by
  have hgroup : ∀ (us : List (Term M)) (p : Poly M), (∀ u ∈ us, u.Canonical) → p.Canonical →
      (us.foldl (fun acc u => add (.term u) acc) p).Canonical := by
    intro us
    induction us with
    | nil => exact fun p _ hp => hp
    | cons u us ih =>
      intro p hu hp
      obtain ⟨hu, hus⟩ := List.forall_mem_cons.mp hu
      exact ih _ hus (add_canonical (.term hu) hp)
  have hgroups : ∀ (gs : List (Term M × List (Term M))) (p : Poly M),
      (∀ t ∈ gs.flatMap fun g => g.1 :: g.2, t.Canonical) → p.Canonical →
      (gs.foldl (fun acc g => add acc (sumGroup g)) p).Canonical := by
    intro gs
    induction gs with
    | nil => exact fun p _ hp => hp
    | cons g gs ih =>
      intro p hg hp
      rw [List.flatMap_cons] at hg
      obtain ⟨hg, hgs⟩ := List.forall_mem_append.mp hg
      exact ih _ hgs (add_canonical hp (hgroup _ _ hg zero_canonical))
  exact hgroups _ _ (fun t h => ht t ((groups_perm ts).mem_iff.mp h)) zero_canonical

omit [LawfulMagnitude M] in
/-- The terms of a canonical list are canonical. -/
theorem Canonical.of_mem {ts : List (Term M)} (h : (Poly.sum ts).Canonical) :
    ∀ t ∈ ts, t.Canonical := by
  cases h with
  | sum terms => exact terms

/-- The product of two canonical sums is canonical. -/
theorem mul_canonical {p q : Poly M} (hp : p.Canonical) (hq : q.Canonical) :
    (p.mul q).Canonical := by
  cases hp with
  | term ht =>
    cases hq with
    | term hu => exact .term (Term.mul_canonical ht hu)
    | sum terms =>
      refine combine_canonical fun w hw => ?_
      obtain ⟨u, hu, rfl⟩ := List.mem_map.mp hw
      exact Term.mul_canonical (terms u hu) ht
  | sum terms =>
    cases hq with
    | term hu =>
      refine combine_canonical fun w hw => ?_
      obtain ⟨t, ht, rfl⟩ := List.mem_map.mp hw
      exact Term.mul_canonical (terms t ht) hu
    | sum others =>
      refine combine_canonical fun w hw => ?_
      obtain ⟨t, ht, hw⟩ := List.mem_flatMap.mp hw
      obtain ⟨u, hu, rfl⟩ := List.mem_map.mp hw
      exact Term.mul_canonical (terms t ht) (others u hu)

omit [LawfulMagnitude M] in
/-- The only term of a canonical sum is canonical. -/
theorem asTerm?_canonical {p : Poly M} {t : Term M} (hp : p.Canonical) (h : p.asTerm? = some t) :
    t.Canonical := by
  unfold asTerm? at h
  split at h
  · cases h
    cases hp with
    | term ht => exact ht
  · cases h
    exact .of_powers_nil rfl
  · cases h
    exact hp.of_mem _ List.mem_cons_self
  · cases h

/-- The quotient of a canonical sum by a canonical term is canonical. -/
theorem divTerm_canonical {p : Poly M} {u : Term M} (hp : p.Canonical) (hu : u.Canonical) :
    (p.divTerm u).Canonical := by
  cases hp with
  | term ht => exact .term (Term.div_canonical ht hu)
  | sum terms =>
    refine combine_canonical fun w hw => ?_
    obtain ⟨t, ht, rfl⟩ := List.mem_map.mp hw
    exact Term.div_canonical (terms t ht) hu

end Poly

end SymCalc
