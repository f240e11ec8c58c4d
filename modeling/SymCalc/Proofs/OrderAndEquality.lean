import Mathlib
import SymCalc.Proofs.CanonicalValues

/-!
# The order of terms and equality agree

Terms are sorted by one family of functions and told to be equal by another. Both go down into the
exponents, each with its own way of treating zero, single terms and lists. Magnitudes are taken from
a set that their order puts in a row, as numbers without not-a-number are; nothing is asked of other
magnitudes. Main statement: on canonical terms other than zero and on canonical sums over such a
set, the orders are total and find no difference exactly where equality holds, so that equality is
an equivalence, and so is having the same signature.
-/

namespace SymCalc

section Lists

variable {α : Type} {R S : α → α → Prop} {xs ys : List α}

/-- Lists are related member by member in two ways if their members are. -/
theorem forall₂_congr_of_mem (h : ∀ x ∈ xs, ∀ y ∈ ys, (R x y ↔ S x y)) :
    List.Forall₂ R xs ys ↔ List.Forall₂ S xs ys := by
  induction xs generalizing ys with
  | nil => cases ys <;> simp
  | cons x xs ih =>
    cases ys with
    | nil => simp
    | cons y ys =>
      have hhead := h x List.mem_cons_self y List.mem_cons_self
      have htail : List.Forall₂ R xs ys ↔ List.Forall₂ S xs ys := ih fun x' hx' y' hy' =>
        h x' (List.mem_cons_of_mem x hx') y' (List.mem_cons_of_mem y hy')
      rw [List.forall₂_cons, List.forall₂_cons, hhead, htail]

/-- Two lists that are compared as equal are so member by member. -/
theorem compareLex_eq_eq_iff {order : α → α → Ordering} :
    List.compareLex order xs ys = .eq ↔ List.Forall₂ (fun x y => order x y = .eq) xs ys := by
  induction xs generalizing ys with
  | nil => cases ys <;> simp [List.compareLex]
  | cons x xs ih =>
    cases ys with
    | nil => simp [List.compareLex]
    | cons y ys => rw [List.compareLex_cons_cons, Ordering.then_eq_eq, ih, List.forall₂_cons]

end Lists

section Orders

variable {α : Type}

/-- A comparison puts all elements with a property in a row. -/
structure TotalOn (P : α → Prop) (order : α → α → Ordering) : Prop where
  /-- Exchanging the operands turns the answer around. -/
  swap : ∀ a b, P a → P b → order b a = (order a b).swap
  /-- Not coming after another element is transitive. -/
  trans : ∀ a b c, P a → P b → P c → order a b ≠ .gt → order b c ≠ .gt → order a c ≠ .gt
  /-- Of two elements one does not come after the other. -/
  total : ∀ a b, P a → P b → order a b ≠ .gt ∨ order b a ≠ .gt

variable {P Q : α → Prop} {order : α → α → Ordering}

/-- A total preorder of the elements with a property puts those with a stronger one in a row. -/
theorem TotalOn.of_ordersFrom (h : ∀ a (ha : P a),
    OrdersFrom (fun x y : Subtype P => order x.1 y.1) ⟨a, ha⟩) (hQ : ∀ a, Q a → P a) :
    TotalOn Q order where
  swap a b ha hb := (h a (hQ a ha)).swap ⟨b, hQ b hb⟩
  trans a b c ha hb hc hab hbc :=
    (h a (hQ a ha)).le_trans (b := ⟨b, hQ b hb⟩) (c := ⟨c, hQ c hc⟩) hab hbc
  total a b ha hb := by
    have hswap := (h a (hQ a ha)).swap ⟨b, hQ b hb⟩
    dsimp only at hswap
    rw [hswap]
    cases order a b <;> decide

/-- A test that holds exactly where a total preorder finds no difference is an equivalence. -/
theorem equivalence_of_ordersFrom (order : α → α → Ordering) {same : α → α → Prop}
    (h : ∀ a (ha : P a), OrdersFrom (fun x y : Subtype P => order x.1 y.1) ⟨a, ha⟩)
    (hQ : ∀ a, Q a → P a) (hsame : ∀ a b, Q a → Q b → (order a b = .eq ↔ same a b)) :
    Equivalence fun a b : Subtype Q => same a.1 b.1 where
  refl a := (hsame a.1 a.1 a.2 a.2).mp (h a.1 (hQ a.1 a.2)).self
  symm {a b} hab := by
    have hswap := (h a.1 (hQ a.1 a.2)).swap ⟨b.1, hQ b.1 b.2⟩
    dsimp only at hswap
    rw [← hsame a.1 b.1 a.2 b.2] at hab
    rw [← hsame b.1 a.1 b.2 a.2, hswap, hab]
    rfl
  trans {a b c} hab hbc := by
    rw [← hsame a.1 b.1 a.2 b.2] at hab
    have hcongr := (h a.1 (hQ a.1 a.2)).congr ⟨b.1, hQ b.1 b.2⟩ ⟨c.1, hQ c.1 c.2⟩ hab
    dsimp only at hcongr
    rwa [← hsame a.1 c.1 a.2 c.2, hcongr, hsame b.1 c.1 b.2 c.2]

end Orders

variable {M : Type} [Magnitude M] {S : Set M}

/-- A set of magnitudes that their order puts in a row, and in which it finds no difference exactly
where they are equal. -/
structure Magnitude.TotallyOrdered (S : Set M) : Prop where
  /-- The order is a total preorder of the set. -/
  order_trans : Std.TransCmp fun m n : S => Magnitude.order m.1 n.1
  /-- Magnitudes of the set that are not told apart are equal, and the other way round. -/
  order_eq_iff : ∀ m ∈ S, ∀ n ∈ S, (Magnitude.order m n = .eq ↔ (m == n) = true)

/-- Every magnitude of such a set is equal to itself. -/
theorem Magnitude.TotallyOrdered.beq_self (hS : TotallyOrdered S) {m : M} (hm : m ∈ S) :
    (m == m) = true := by
  have := hS.order_trans
  have hself := (OrdersFrom.of_transCmp (fun m n : S => Magnitude.order m.1 n.1) ⟨m, hm⟩).self
  exact (hS.order_eq_iff m hm m hm).mp hself

/-- The order puts all rational numbers in a row. -/
theorem Magnitude.totallyOrdered_rat : TotallyOrdered (Set.univ : Set ℚ) := by
  have := LawfulMagnitude.order_trans (M := ℚ)
  refine ⟨{ eq_swap := Std.OrientedCmp.eq_swap, isLE_trans := Std.TransCmp.isLE_trans }, ?_⟩
  intro m _ n _
  rw [beq_iff_eq]
  exact Std.LawfulEqOrd.compare_eq_iff_eq

/-- The order does not tell canonical terms apart when they have the same signature and equal
magnitudes, and canonical sums when they are equal. -/
theorem Term.order_eq_eq_iff_over (hS : Magnitude.TotallyOrdered S) :
    (∀ t u : Term M, t.Canonical → t.Over S → u.Canonical → u.Over S →
      (Term.order t u = .eq ↔ t.sameSignature u = true ∧ (t.magnitude == u.magnitude) = true)) ∧
    ∀ p q : Poly M, p.Canonical → p.Over S → q.Canonical → q.Over S →
      (Poly.order p q = .eq ↔ p.equal q = true) := by
  refine Term.terms_induction ?_ ?_
  · intro t hexp u ht htS hu huS
    have hpowers : Power.orderAll t.powers u.powers = .eq ↔
        Power.equalAll t.powers u.powers = true := by
      rw [Power.orderAll_eq, compareLex_eq_eq_iff, Power.equalAll_iff]
      refine forall₂_congr_of_mem fun p hp q hq => ?_
      have hexponent := hexp p hp q.exponent (ht.exponent p hp) (htS.exponent p hp)
        (hu.exponent q hq) (huS.exponent q hq)
      rw [Power.order_eq, Ordering.then_eq_eq, Text.order_eq_eq_iff, hexponent, Power.equal_iff]
    have hflag : compare t.imaginary u.imaginary = .eq ↔ (t.imaginary == u.imaginary) = true := by
      rw [Std.LawfulEqOrd.compare_eq_iff_eq, beq_iff_eq]
    rw [Term.order_eq, Ordering.then_eq_eq, Ordering.then_eq_eq, hpowers, hflag,
      hS.order_eq_iff _ htS.magnitude_mem _ huS.magnitude_mem, Term.sameSignature,
      Bool.and_eq_true]
    tauto
  · intro p hterms q hp hpS hq hqS
    have hp := hp.mem_terms
    have hq := hq.mem_terms
    rw [Poly.equal_eq_equalAll (fun t h => (hp t h).2) fun u h => (hq u h).2, Term.equalAll_iff,
      Poly.order_eq, Term.orderAll_eq, compareLex_eq_eq_iff]
    refine forall₂_congr_of_mem fun t ht u hu => ?_
    rw [hterms t ht u (hp t ht).1 (hpS.mem_terms t ht) (hq u hu).1 (hqS.mem_terms u hu),
      Term.equal_iff, (hp t ht).2, (hq u hu).2]
    simp [and_comm]

/-- A term with another magnitude. -/
def Term.withMagnitude (m : M) (t : Term M) : Term M := ⟨m, t.imaginary, t.powers⟩

omit [Magnitude M] in
/-- A term over a set is still over it with another magnitude of the set. -/
theorem Term.Over.withMagnitude {t : Term M} (h : t.Over S) {m : M} (hm : m ∈ S) :
    (t.withMagnitude m).Over S := ⟨hm, h.exponent⟩

/-- A canonical term is still canonical with another magnitude. -/
theorem Term.Canonical.withMagnitude {t : Term M} (h : t.Canonical) (m : M) :
    (t.withMagnitude m).Canonical := by
  obtain ⟨names, exponents, nonzero⟩ := h
  exact ⟨names, exponents, nonzero⟩

/-- Terms have the same signature when the order does not tell them apart once their magnitudes are
the same. -/
theorem Term.sameSignature_iff_order (hS : Magnitude.TotallyOrdered S) {m : M} (hm : m ∈ S)
    {t u : Term M} (ht : t.Canonical ∧ t.Over S) (hu : u.Canonical ∧ u.Over S) :
    Term.order (t.withMagnitude m) (u.withMagnitude m) = .eq ↔ t.sameSignature u = true := by
  rw [(Term.order_eq_eq_iff_over hS).1 _ _ (ht.1.withMagnitude m) (ht.2.withMagnitude hm)
    (hu.1.withMagnitude m) (hu.2.withMagnitude hm)]
  exact and_iff_left (hS.beq_self hm)

/-- A scalar all of whose magnitudes are in a set, also those in the exponents. -/
def Scalar.Over (S : Set M) : Scalar M → Prop
  | .poly p => p.Over S
  | .fraction f => f.num.Over S ∧ f.den.Over S

/-- Equality is an equivalence of canonical sums. -/
theorem Poly.equal_equivalence (hS : Magnitude.TotallyOrdered S) :
    Equivalence fun p q : { p : Poly M // p.Canonical ∧ p.Over S } => p.1.equal q.1 = true :=
  equivalence_of_ordersFrom Poly.order (Term.order_laws_over hS.order_trans).2 (fun _ h => h.2)
    fun p q hp hq => (Term.order_eq_eq_iff_over hS).2 p q hp.1 hp.2 hq.1 hq.2

/-- Equality is an equivalence of canonical scalars; a sum is never equal to a fraction. -/
theorem Scalar.equal_equivalence (hS : Magnitude.TotallyOrdered S) :
    Equivalence fun s t : { s : Scalar M // s.Canonical ∧ s.Over S } => s.1.equal t.1 = true := by
  have hpoly := Poly.equal_equivalence hS
  have hself {p : Poly M} (hp : p.Canonical) (hpS : p.Over S) : p.equal p = true :=
    hpoly.refl ⟨p, hp, hpS⟩
  have hsymm {p q : Poly M} (hp : p.Canonical) (hpS : p.Over S) (hq : q.Canonical)
      (hqS : q.Over S) : p.equal q = true → q.equal p = true :=
    fun h => hpoly.symm (x := ⟨p, hp, hpS⟩) (y := ⟨q, hq, hqS⟩) h
  have htrans {p q r : Poly M} (hp : p.Canonical) (hpS : p.Over S) (hq : q.Canonical)
      (hqS : q.Over S) (hr : r.Canonical) (hrS : r.Over S) :
      p.equal q = true → q.equal r = true → p.equal r = true :=
    fun h h' => hpoly.trans (x := ⟨p, hp, hpS⟩) (y := ⟨q, hq, hqS⟩) (z := ⟨r, hr, hrS⟩) h h'
  refine ⟨?_, ?_, ?_⟩
  · rintro ⟨s, hs, hsS⟩
    cases s with
    | poly p => exact hself hs hsS
    | fraction f =>
      exact Bool.and_eq_true_iff.mpr ⟨hself hs.num hsS.1, hself hs.den hsS.2⟩
  · rintro ⟨s, hs, hsS⟩ ⟨t, ht, htS⟩ h
    cases s with
    | poly p =>
      cases t with
      | poly q => exact hsymm hs hsS ht htS h
      | fraction g => cases h
    | fraction f =>
      cases t with
      | poly q => cases h
      | fraction g =>
        obtain ⟨hnum, hden⟩ := Bool.and_eq_true_iff.mp h
        exact Bool.and_eq_true_iff.mpr ⟨hsymm hs.num hsS.1 ht.num htS.1 hnum,
          hsymm hs.den hsS.2 ht.den htS.2 hden⟩
  · rintro ⟨s, hs, hsS⟩ ⟨t, ht, htS⟩ ⟨u, hu, huS⟩ h h'
    cases s with
    | poly p =>
      cases t with
      | fraction g => cases h
      | poly q =>
        cases u with
        | poly r => exact htrans hs hsS ht htS hu huS h h'
        | fraction k => cases h'
    | fraction f =>
      cases t with
      | poly q => cases h
      | fraction g =>
        cases u with
        | poly r => cases h'
        | fraction k =>
          obtain ⟨hnum, hden⟩ := Bool.and_eq_true_iff.mp h
          obtain ⟨hnum', hden'⟩ := Bool.and_eq_true_iff.mp h'
          exact Bool.and_eq_true_iff.mpr
            ⟨htrans hs.num hsS.1 ht.num htS.1 hu.num huS.1 hnum hnum',
              htrans hs.den hsS.2 ht.den htS.2 hu.den huS.2 hden hden'⟩

/-- Having the same signature is an equivalence of canonical terms. -/
theorem Term.sameSignature_equivalence (hS : Magnitude.TotallyOrdered S) :
    Equivalence fun t u : { t : Term M // t.Canonical ∧ t.Over S } =>
      t.1.sameSignature u.1 = true := by
  rcases S.eq_empty_or_nonempty with rfl | ⟨m, hm⟩
  · exact ⟨fun t => absurd t.2.2.magnitude_mem (Set.notMem_empty _),
      fun {t _} _ => absurd t.2.2.magnitude_mem (Set.notMem_empty _),
      fun {t _ _} _ _ => absurd t.2.2.magnitude_mem (Set.notMem_empty _)⟩
  · have hlaws : ∀ (t : Term M) (ht : t.Over S), OrdersFrom (fun a b : Subtype (Term.Over S) =>
        Term.order (a.1.withMagnitude m) (b.1.withMagnitude m)) ⟨t, ht⟩ := by
      intro t ht
      have h := (Term.order_laws_over hS.order_trans).1 _ (ht.withMagnitude hm)
      exact OrdersFrom.comap (a := (⟨t, ht⟩ : Subtype (Term.Over S)))
        (fun u => (⟨u.1.withMagnitude m, u.2.withMagnitude hm⟩ : Subtype (Term.Over S))) h
    exact equivalence_of_ordersFrom (Q := fun t : Term M => t.Canonical ∧ t.Over S)
      (fun t u : Term M => Term.order (t.withMagnitude m) (u.withMagnitude m)) hlaws
      (fun _ h => h.2) fun _ _ => Term.sameSignature_iff_order hS hm

/-- The order of terms and equality agree. For magnitudes from a set that their order puts in a
row, with exponents nested to any depth: the order puts all canonical terms other than zero in a
row, and all canonical sums; it finds no difference between two of them exactly when they are equal,
be a sum a single term or a list; equality is an equivalence of canonical scalars, so of sums and of
fractions; and having the same signature is one of canonical terms. -/
theorem term_order_agrees_with_equality (hS : Magnitude.TotallyOrdered S) :
    TotalOn (fun t : Term M => t.Canonical ∧ t.isZero = false ∧ t.Over S) Term.order ∧
    TotalOn (fun p : Poly M => p.Canonical ∧ p.Over S) Poly.order ∧
    (∀ t u : Term M, t.Canonical → t.isZero = false → t.Over S →
      u.Canonical → u.isZero = false → u.Over S →
      (Term.order t u = .eq ↔ t.equal u = true)) ∧
    (∀ p q : Poly M, p.Canonical → p.Over S → q.Canonical → q.Over S →
      (Poly.order p q = .eq ↔ p.equal q = true)) ∧
    (Equivalence fun s t : { s : Scalar M // s.Canonical ∧ s.Over S } => s.1.equal t.1 = true) ∧
    Equivalence fun t u : { t : Term M // t.Canonical ∧ t.Over S } =>
      t.1.sameSignature u.1 = true := by
  have hlaws := Term.order_laws_over hS.order_trans
  have hiff := Term.order_eq_eq_iff_over hS
  refine ⟨.of_ordersFrom hlaws.1 fun _ h => h.2.2, .of_ordersFrom hlaws.2 fun _ h => h.2, ?_,
    hiff.2, Scalar.equal_equivalence hS, Term.sameSignature_equivalence hS⟩
  intro t u ht ht0 htS hu hu0 huS
  rw [hiff.1 t u ht htS hu huS, Term.equal_iff, ht0, hu0]
  simp [and_comm]

/-- An imaginary power with a symbolic exponent, and the same with the exponent as a list of one
term, are not told apart and are equal, also when one of them stands in a list; another magnitude
keeps the signature, and comes after. -/
theorem order_agrees_on_forms_of_a_power :
    let t : Term ℚ := ⟨2, true, [⟨"x", .term (.named "n")⟩]⟩
    let u : Term ℚ := ⟨2, true, [⟨"x", .sum [.named "n"]⟩]⟩
    let w : Term ℚ := ⟨3, true, [⟨"x", .term (.named "n")⟩]⟩
    Magnitude.TotallyOrdered (Set.univ : Set ℚ) ∧
    (t.Canonical ∧ t.isZero = false) ∧ (u.Canonical ∧ u.isZero = false) ∧
    (Term.order t u = .eq ∧ t.equal u = true) ∧
    (Poly.order (.term t) (.sum [u]) = .eq ∧ (Poly.term t).equal (.sum [u]) = true) ∧
    (Term.order u w = .lt ∧ Term.order w u = .gt ∧ u.equal w = false) ∧
    (u.sameSignature w = true ∧ w.sameSignature u = true) := by
  intro t u w
  have hover := Term.over_univ_nested (M := ℚ)
  have hone : Magnitude.isZero (1 : ℚ) = false := by simp
  have hnamed (x : Text) : (Term.named x : Term ℚ).Canonical := Term.named_canonical hone x
  have ht : t.Canonical := Term.single_canonical _ _ _ (hnamed _) hone
  have hw : w.Canonical := Term.single_canonical _ _ _ (hnamed _) hone
  have hu : u.Canonical := .intro (List.pairwise_singleton _ _)
    (List.forall_mem_singleton.mpr (Poly.singleton_canonical (hnamed _) hone))
    (List.forall_mem_singleton.mpr (by simp))
  have ht0 : t.isZero = false := by simp [t, Term.isZero]
  have hu0 : u.isZero = false := by simp [u, Term.isZero]
  have hw0 : w.isZero = false := by simp [w, Term.isZero]
  obtain ⟨htotal, -, hterms, hsums, -, hsignature⟩ :=
    term_order_agrees_with_equality Magnitude.totallyOrdered_rat
  have htu : t.equal u = true := by decide +kernel
  have hlist : (Poly.term t).equal (.sum [u]) = true := by decide +kernel
  have hlt : Term.order u w = .lt := by decide +kernel
  have hsame : u.sameSignature w = true := by decide +kernel
  have hgt : Term.order w u = .gt := by
    rw [htotal.swap u w ⟨hu, hu0, hover.1 u⟩ ⟨hw, hw0, hover.1 w⟩, hlt]
    rfl
  have hne : u.equal w = false := by
    rw [← Bool.not_eq_true, ← hterms u w hu hu0 (hover.1 u) hw hw0 (hover.1 w), hlt]
    decide
  exact ⟨Magnitude.totallyOrdered_rat, ⟨ht, ht0⟩, ⟨hu, hu0⟩,
    ⟨(hterms t u ht ht0 (hover.1 t) hu hu0 (hover.1 u)).mpr htu, htu⟩,
    ⟨(hsums _ _ (.term ht) (hover.2 _) (Poly.singleton_canonical hu hu0) (hover.2 _)).mpr hlist,
      hlist⟩, ⟨hlt, hgt, hne⟩, hsame,
    hsignature.symm (x := ⟨u, hu, hover.1 u⟩) (y := ⟨w, hw, hover.1 w⟩) hsame⟩

end SymCalc
