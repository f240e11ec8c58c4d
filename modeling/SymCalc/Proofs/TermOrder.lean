import Mathlib
import SymCalc.Proofs.Magnitude

/-!
# The order of terms

Terms are sorted by an order that goes down into the exponents. It is a total preorder as soon
as the order of magnitudes is one, for exponents nested to any depth, so that sorting gives a
sorted list. The induction over nested terms is packaged once, as `Term.nested_induction`.
-/

namespace SymCalc

/-- What a comparison does when an element is compared with all others, as in a total preorder.
The statement is about one element, so that it can be proved by recursion on it. -/
structure OrdersFrom {α : Type*} (order : α → α → Ordering) (a : α) : Prop where
  /-- Exchanging the operands turns the answer around. -/
  swap : ∀ b, order b a = (order a b).swap
  /-- An element that is equal can stand in its place. -/
  congr : ∀ b c, order a b = .eq → order a c = order b c
  /-- It comes before all that an element after it does not come after. -/
  lt_trans : ∀ b c, order a b = .lt → order b c ≠ .gt → order a c = .lt

namespace OrdersFrom

variable {α β γ : Type*} {order : α → α → Ordering} {a b c : α}

/-- The element does not differ from itself. -/
theorem self (h : OrdersFrom order a) : order a a = .eq := by
  have hswap := h.swap a
  cases heq : order a a <;> simp_all

/-- The relation that the element does not come after another one is transitive. -/
theorem le_trans (h : OrdersFrom order a) (hab : order a b ≠ .gt) (hbc : order b c ≠ .gt) :
    order a c ≠ .gt := by
  cases hb : order a b with
  | lt =>
    rw [h.lt_trans b c hb hbc]
    decide
  | eq => rwa [h.congr b c hb]
  | gt => exact absurd hb hab

/-- An element that does not come before another one does not precede it. -/
theorem le_of_not_lt (h : OrdersFrom order a) (hlt : order a b ≠ .lt) : order b a ≠ .gt := by
  rw [h.swap b]
  cases hb : order a b with
  | lt => exact absurd hb hlt
  | eq => decide
  | gt => decide

/-- The comparisons of the standard library are total preorders. -/
theorem of_transCmp (order : α → α → Ordering) [Std.TransCmp order] (a : α) :
    OrdersFrom order a where
  swap b := Std.OrientedCmp.eq_swap
  congr b c h := Std.TransCmp.congr_left h
  lt_trans b c hab hbc := by
    have hle : (order b c).isLE = true := by
      cases hb : order b c with
      | lt => rfl
      | eq => rfl
      | gt => exact absurd hb hbc
    exact Std.TransCmp.lt_of_lt_of_isLE hab hle

/-- A comparison of images is a total preorder if the comparison is. -/
theorem comap {order : β → β → Ordering} (f : α → β) (h : OrdersFrom order (f a)) :
    OrdersFrom (fun x y => order (f x) (f y)) a where
  swap b := h.swap (f b)
  congr b c := h.congr (f b) (f c)
  lt_trans b c := h.lt_trans (f b) (f c)

/-- A second comparison that decides where the first one finds no difference. -/
theorem and_then {first : β → β → Ordering} {second : γ → γ → Ordering} (f : α → β) (g : α → γ)
    (hf : OrdersFrom first (f a)) (hg : OrdersFrom second (g a)) :
    OrdersFrom (fun x y => (first (f x) (f y)).then (second (g x) (g y))) a where
  swap b := by
    simp only [hf.swap (f b), hg.swap (g b), Ordering.swap_then]
  congr b c h := by
    obtain ⟨h₁, h₂⟩ := Ordering.then_eq_eq.mp h
    simp only [hf.congr (f b) (f c) h₁, hg.congr (g b) (g c) h₂]
  lt_trans b c hab hbc := by
    have hbc₁ : first (f b) (f c) ≠ .gt := by
      intro h
      simp [h] at hbc
    obtain h₁ | ⟨h₁, h₂⟩ := Ordering.then_eq_lt.mp hab
    · simp only [hf.lt_trans (f b) (f c) h₁ hbc₁, Ordering.lt_then]
    · simp only [hf.congr (f b) (f c) h₁]
      cases h : first (f b) (f c) with
      | lt => rfl
      | eq =>
        rw [h, Ordering.eq_then] at hbc
        rw [Ordering.eq_then, hg.lt_trans (g b) (g c) h₂ hbc]
      | gt => exact absurd h hbc₁

/-- Lists are compared by the first difference. -/
theorem compareLex {as : List α} (h : ∀ a ∈ as, OrdersFrom order a) :
    OrdersFrom (List.compareLex order) as := by
  induction as with
  | nil =>
    refine ⟨fun bs => ?_, fun bs cs hbs => ?_, fun bs cs hbs hcs => ?_⟩
    · cases bs <;> rfl
    · cases bs with
      | nil => rfl
      | cons b bs => cases hbs
    · cases bs with
      | nil => cases hbs
      | cons b bs =>
        cases cs with
        | nil => exact absurd rfl hcs
        | cons c cs => rfl
  | cons a as ih =>
    obtain ⟨ha, has⟩ := List.forall_mem_cons.mp h
    have ih := ih has
    -- Two lists that are not empty are compared as pairs of a head and a tail are.
    have hpair := and_then (a := (a, as)) Prod.fst Prod.snd ha ih
    refine ⟨fun bs => ?_, fun bs cs hbs => ?_, fun bs cs hbs hcs => ?_⟩
    · cases bs with
      | nil => rfl
      | cons b bs => simpa only [List.compareLex_cons_cons] using hpair.swap (b, bs)
    · cases bs with
      | nil => cases hbs
      | cons b bs =>
        cases cs with
        | nil => rfl
        | cons c cs =>
          simp only [List.compareLex_cons_cons] at hbs ⊢
          exact hpair.congr (b, bs) (c, cs) hbs
    · cases bs with
      | nil => cases hbs
      | cons b bs =>
        cases cs with
        | nil => exact absurd rfl hcs
        | cons c cs =>
          simp only [List.compareLex_cons_cons] at hbs hcs ⊢
          exact hpair.lt_trans (b, bs) (c, cs) hbs hcs

end OrdersFrom

variable {α : Type} {order : α → α → Ordering}

/-- Inserting into a sorted list gives a sorted list. -/
theorem insertSorted_pairwise (h : ∀ a, OrdersFrom order a) (x : α) {ys : List α}
    (hys : ys.Pairwise fun a b => order a b ≠ .gt) :
    (insertSorted order x ys).Pairwise fun a b => order a b ≠ .gt := by
  induction ys with
  | nil => exact List.pairwise_singleton _ x
  | cons y ys ih =>
    obtain ⟨hy, htail⟩ := List.pairwise_cons.mp hys
    by_cases hlt : order y x = .lt
    · rw [insertSorted, if_pos hlt]
      refine List.pairwise_cons.mpr ⟨?_, ih htail⟩
      intro z hz
      rcases List.mem_cons.mp ((insertSorted_perm order x ys).mem_iff.mp hz) with rfl | hz
      · rw [hlt]
        decide
      · exact hy z hz
    · rw [insertSorted, if_neg hlt]
      have hxy := (h y).le_of_not_lt hlt
      refine List.pairwise_cons.mpr ⟨?_, hys⟩
      intro z hz
      rcases List.mem_cons.mp hz with rfl | hz
      · exact hxy
      · exact (h x).le_trans hxy (hy z hz)

/-- Sorting gives a sorted list. -/
theorem sortBy_pairwise (h : ∀ a, OrdersFrom order a) (xs : List α) :
    (sortBy order xs).Pairwise fun a b => order a b ≠ .gt := by
  induction xs with
  | nil => exact .nil
  | cons x xs ih => exact insertSorted_pairwise h x ih

variable {M : Type}

/-- What holds of a term if it holds of its exponents, and of a sum if it holds of its terms,
holds of all terms and of all sums, however deep the exponents are nested. -/
theorem Term.nested_induction {P : Term M → Prop} {Q : Poly M → Prop}
    (term : ∀ t : Term M, (∀ p ∈ t.powers, Q p.exponent) → P t)
    (single : ∀ t, P t → Q (.term t)) (sum : ∀ ts, (∀ t ∈ ts, P t) → Q (.sum ts)) :
    (∀ t, P t) ∧ ∀ p, Q p := by
  have hterm : ∀ t, P t := by
    intro t
    exact @Term.rec M P (fun p => Q p.exponent) Q (fun ps => ∀ p ∈ ps, Q p.exponent)
      (fun ts => ∀ t ∈ ts, P t) (fun m i ps h => term ⟨m, i, ps⟩ h) (fun _ _ h => h) single sum
      (by simp) (fun _ _ hp hps => List.forall_mem_cons.mpr ⟨hp, hps⟩)
      (by simp) (fun _ _ ht hts => List.forall_mem_cons.mpr ⟨ht, hts⟩) t
  refine ⟨hterm, fun p => ?_⟩
  cases p with
  | term t => exact single t (hterm t)
  | sum ts => exact sum ts fun t _ => hterm t

mutual

/-- A term all of whose magnitudes are in a set, also those in the exponents. -/
inductive Term.Over (S : Set M) : Term M → Prop where
  /-- The magnitude and those of the exponents. -/
  | intro {t : Term M} (magnitude : t.magnitude ∈ S)
    (exponents : ∀ p ∈ t.powers, p.exponent.Over S) : t.Over S

/-- A sum all of whose magnitudes are in a set, also those in the exponents. -/
inductive Poly.Over (S : Set M) : Poly M → Prop where
  /-- A single term. -/
  | term {t : Term M} (h : t.Over S) : (Poly.term t).Over S
  /-- A list of terms. -/
  | sum {ts : List (Term M)} (h : ∀ t ∈ ts, t.Over S) : (Poly.sum ts).Over S

end

variable {S : Set M}

/-- The magnitude of a term over a set. -/
theorem Term.Over.magnitude_mem {t : Term M} (h : t.Over S) : t.magnitude ∈ S := by
  obtain ⟨hmagnitude, -⟩ := h
  exact hmagnitude

/-- The exponents of a term over a set. -/
theorem Term.Over.exponent {t : Term M} (h : t.Over S) : ∀ p ∈ t.powers, p.exponent.Over S := by
  obtain ⟨-, hexponents⟩ := h
  exact hexponents

/-- All terms and sums are over the set of all magnitudes. -/
theorem Term.over_univ_nested :
    (∀ t : Term M, t.Over Set.univ) ∧ ∀ p : Poly M, p.Over Set.univ :=
  Term.nested_induction (fun _ h => ⟨Set.mem_univ _, h⟩) (fun _ => .term) fun _ => .sum

variable [Magnitude M]

/-- The terms of a list are its members. -/
@[simp] theorem Poly.terms_sum (ts : List (Term M)) : (Poly.sum ts).terms = ts := rfl

/-- A single term is the only one of its sum, which has none if the term is zero. -/
theorem Poly.mem_terms_term {t u : Term M} :
    u ∈ (Poly.term t).terms ↔ u = t ∧ t.isZero = false := by
  rw [Poly.terms]
  cases t.isZero <;> simp

/-- The induction over nested terms, for what holds of a sum if it holds of its terms other than
zero. -/
theorem Term.terms_induction {P : Term M → Prop} {Q : Poly M → Prop}
    (term : ∀ t : Term M, (∀ p ∈ t.powers, Q p.exponent) → P t)
    (sum : ∀ p : Poly M, (∀ t ∈ p.terms, P t) → Q p) : (∀ t, P t) ∧ ∀ p, Q p := by
  refine Term.nested_induction term (fun t ht => sum (.term t) fun u hu => ?_)
    fun ts => sum (.sum ts)
  rw [(Poly.mem_terms_term.mp hu).1]
  exact ht

/-- Lists of powers are compared by the first difference. -/
theorem Power.orderAll_eq (ps qs : List (Power M)) :
    Power.orderAll ps qs = List.compareLex Power.order ps qs := by
  induction ps generalizing qs with
  | nil => cases qs <;> rfl
  | cons p ps ih =>
    cases qs with
    | nil => rfl
    | cons q qs => rw [Power.orderAll, List.compareLex_cons_cons, ih]

/-- Lists of terms are compared by the first difference. -/
theorem Term.orderAll_eq (ts us : List (Term M)) :
    Term.orderAll ts us = List.compareLex Term.order ts us := by
  induction ts generalizing us with
  | nil => cases us <;> rfl
  | cons t ts ih =>
    cases us with
    | nil => rfl
    | cons u us => rw [Term.orderAll, List.compareLex_cons_cons, ih]

/-- Powers are compared by name and then by exponent. -/
theorem Power.order_eq (p q : Power M) :
    Power.order p q = (Text.order p.name q.name).then (Poly.order p.exponent q.exponent) := by
  obtain ⟨x, e⟩ := p
  obtain ⟨y, f⟩ := q
  rw [Power.order]

/-- Terms are compared by their powers, then real before imaginary, then by magnitude. -/
theorem Term.order_eq (t u : Term M) :
    Term.order t u = (Power.orderAll t.powers u.powers).then
      ((compare t.imaginary u.imaginary).then (Magnitude.order t.magnitude u.magnitude)) := by
  obtain ⟨m, i, ps⟩ := t
  obtain ⟨n, j, qs⟩ := u
  rw [Term.order]

/-- The order of texts is a total preorder. -/
theorem Text.order_laws (a : Text) : OrdersFrom Text.order a :=
  OrdersFrom.comap Text.bytes (OrdersFrom.of_transCmp compare a.bytes)

/-- The terms of a sum over a set. -/
theorem Poly.Over.mem_terms {p : Poly M} (h : p.Over S) : ∀ t ∈ p.terms, t.Over S := by
  intro t ht
  cases h with
  | sum h => exact h t ht
  | term h =>
    rw [(Poly.mem_terms_term.mp ht).1]
    exact h

/-- Lists of members of a type are compared as lists of members of a part of it are. -/
theorem compareLex_attachWith {α : Type} {order : α → α → Ordering} {P : α → Prop} {xs ys : List α}
    (hxs : ∀ x ∈ xs, P x) (hys : ∀ y ∈ ys, P y) :
    List.compareLex (fun a b : Subtype P => order a.1 b.1) (xs.attachWith P hxs)
      (ys.attachWith P hys) = List.compareLex order xs ys := by
  induction xs generalizing ys with
  | nil => cases ys <;> rfl
  | cons x xs ih =>
    cases ys with
    | nil => rfl
    | cons y ys =>
      simp only [List.attachWith_cons, List.compareLex_cons_cons, ih]

/-- If the order of magnitudes is a total preorder of a set, the order of terms and the order of
sums are total preorders of those over the set. -/
theorem Term.order_laws_over (hS : Std.TransCmp fun m n : S => Magnitude.order m.1 n.1) :
    (∀ (t : Term M) (ht : t.Over S),
      OrdersFrom (fun a b : Subtype (Term.Over S) => Term.order a.1 b.1) ⟨t, ht⟩) ∧
    ∀ (p : Poly M) (hp : p.Over S),
      OrdersFrom (fun a b : Subtype (Poly.Over S) => Poly.order a.1 b.1) ⟨p, hp⟩ := by
  refine Term.terms_induction ?_ ?_
  · intro t hexp ht
    have hpower : ∀ p : { p : Power M // p.exponent.Over S }, p.1 ∈ t.powers →
        OrdersFrom (fun a b : { p : Power M // p.exponent.Over S } => Power.order a.1 b.1) p := by
      intro p hp
      have h := OrdersFrom.and_then (a := p) (fun q => q.1.name)
        (fun q => (⟨q.1.exponent, q.2⟩ : Subtype (Poly.Over S))) (Text.order_laws p.1.name)
        (hexp p.1 hp p.2)
      simp only [← Power.order_eq] at h
      exact h
    have hmagnitude := OrdersFrom.of_transCmp (fun m n : S => Magnitude.order m.1 n.1)
      ⟨t.magnitude, ht.magnitude_mem⟩
    have himaginary := OrdersFrom.of_transCmp compare t.imaginary
    have hpowers := OrdersFrom.comap (a := (⟨t, ht⟩ : Subtype (Term.Over S)))
      (fun u => u.1.powers.attachWith _ u.2.exponent)
      (OrdersFrom.compareLex fun p hp => hpower p ((List.mem_attachWith _ p).mp hp))
    have h := OrdersFrom.and_then (fun u => u) (fun u => u) hpowers
      (OrdersFrom.and_then (fun u => u.1.imaginary)
        (fun u => (⟨u.1.magnitude, u.2.magnitude_mem⟩ : S)) himaginary hmagnitude)
    simp only [compareLex_attachWith, ← Power.orderAll_eq, ← Term.order_eq] at h
    exact h
  · intro p hterms hp
    have hlist : OrdersFrom
        (List.compareLex fun a b : Subtype (Term.Over S) => Term.order a.1 b.1)
        (p.terms.attachWith _ hp.mem_terms) :=
      OrdersFrom.compareLex fun t ht => hterms t.1 ((List.mem_attachWith _ t).mp ht) t.2
    have h := OrdersFrom.comap (a := (⟨p, hp⟩ : Subtype (Poly.Over S)))
      (fun q => q.1.terms.attachWith _ q.2.mem_terms) hlist
    simp only [compareLex_attachWith, ← Term.orderAll_eq, ← Poly.order_eq] at h
    exact h

/-- The order of terms is a total preorder. -/
theorem Term.order_laws [LawfulMagnitude M] (t : Term M) : OrdersFrom Term.order t := by
  have := LawfulMagnitude.order_trans (M := M)
  have hS : Std.TransCmp fun m n : (Set.univ : Set M) => Magnitude.order m.1 n.1 :=
    { eq_swap := Std.OrientedCmp.eq_swap, isLE_trans := Std.TransCmp.isLE_trans }
  exact OrdersFrom.comap
    (fun u => (⟨u, Term.over_univ_nested.1 u⟩ : Subtype (Term.Over Set.univ)))
    ((Term.order_laws_over hS).1 t (Term.over_univ_nested.1 t))

end SymCalc
