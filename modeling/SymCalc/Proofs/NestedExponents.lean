import Mathlib
import SymCalc.Algebra.Term

/-!
# Exponents nested in exponents

Comparing two sums compares exponents, which are sums. Here a round of a comparison leaves the
comparison of exponents open, and a bounded comparison plays so many rounds and otherwise has no
answer. Main statements: as many rounds as exponents are nested, and one more, give the answer, for
equality and for the order.
-/

namespace SymCalc

variable {M : Type}

mutual

/-- How deep the exponents of a term are nested. -/
def Term.exponentDepth : Term M → Nat
  | ⟨_, _, ps⟩ => Power.exponentDepthAll ps
termination_by structural t => t

/-- How deep the exponents of several powers are nested. -/
def Power.exponentDepthAll : List (Power M) → Nat
  | [] => 0
  | p :: ps => max (Power.exponentDepth p) (Power.exponentDepthAll ps)
termination_by structural ps => ps

/-- How deep exponents are nested, with the one of the power itself. -/
def Power.exponentDepth : Power M → Nat
  | ⟨_, e⟩ => Poly.exponentDepth e + 1
termination_by structural p => p

/-- How deep the exponents of a sum are nested. -/
def Poly.exponentDepth : Poly M → Nat
  | .term t => Term.exponentDepth t
  | .sum ts => Term.exponentDepthAll ts
termination_by structural p => p

/-- How deep the exponents of several terms are nested. -/
def Term.exponentDepthAll : List (Term M) → Nat
  | [] => 0
  | t :: ts => max (Term.exponentDepth t) (Term.exponentDepthAll ts)
termination_by structural ts => ts

end

variable [Magnitude M]

/-- The terms of a sum are nested no deeper than the sum. -/
theorem Poly.exponentDepthAll_terms_le (p : Poly M) :
    Term.exponentDepthAll p.terms ≤ p.exponentDepth := by
  cases p with
  | sum ts => rw [terms, exponentDepth]
  | term t =>
    rw [terms, exponentDepth]
    split
    · exact Nat.zero_le _
    · rw [Term.exponentDepthAll, Term.exponentDepthAll, Nat.max_zero]

section

variable (test : Poly M → Poly M → Option Bool)

/-- Whether two lists of powers are the same, with a test for exponents. -/
def Power.equalAllBy : List (Power M) → List (Power M) → Option Bool
  | [], [] => some true
  | ⟨x, e⟩ :: ps, ⟨y, f⟩ :: qs =>
    if x = y then do
      if ← test e f then equalAllBy ps qs else some false
    else some false
  | _, _ => some false

/-- Whether two terms are the same, with a test for exponents. -/
def Term.equalBy (t u : Term M) : Option Bool :=
  if t.isZero || u.isZero then some (t.isZero && u.isZero)
  else if t.magnitude == u.magnitude && t.imaginary == u.imaginary then
    Power.equalAllBy test t.powers u.powers
  else some false

/-- Whether two lists of terms are the same, with a test for exponents. -/
def Term.equalAllBy : List (Term M) → List (Term M) → Option Bool
  | [], [] => some true
  | t :: ts, u :: us => do
    if ← Term.equalBy test t u then equalAllBy ts us else some false
  | _, _ => some false

/-- Whether two sums are the same, with a test for exponents. -/
def Poly.equalBy : Poly M → Poly M → Option Bool
  | .term t, .term u => Term.equalBy test t u
  | .term t, .sum [] => some t.isZero
  | .term t, .sum [u] => Term.equalBy test t u
  | .term _, .sum (_ :: _ :: _) => some false
  | .sum [], .term u => some u.isZero
  | .sum [t], .term u => Term.equalBy test t u
  | .sum (_ :: _ :: _), .term _ => some false
  | .sum ts, .sum us => Term.equalAllBy test ts us

end

/-- Whether two sums are the same, if so many rounds are enough to tell. -/
def Poly.equalWithin : (rounds : Nat) → Poly M → Poly M → Option Bool
  | 0 => fun _ _ => none
  | rounds + 1 => Poly.equalBy (Poly.equalWithin rounds)

section

variable {test : Poly M → Poly M → Option Bool} {k : Nat}
  (htest : ∀ e f : Poly M, e.exponentDepth < k → test e f = some (e.equal f))

include htest

/-- A test that is right for exponents is right for powers. -/
theorem Power.equalAllBy_eq {ps : List (Power M)} (hps : exponentDepthAll ps ≤ k)
    (qs : List (Power M)) : equalAllBy test ps qs = some (equalAll ps qs) := by
  induction ps generalizing qs with
  | nil => cases qs <;> rw [equalAllBy, equalAll] <;> exact nofun
  | cons p ps ih =>
    obtain ⟨x, e⟩ := p
    rw [exponentDepthAll, exponentDepth, Nat.max_le] at hps
    cases qs with
    | nil => rw [equalAllBy, equalAll] <;> exact nofun
    | cons q qs =>
      obtain ⟨y, f⟩ := q
      rw [equalAllBy, equalAll, Power.equal, htest e f hps.1, ih hps.2 qs]
      by_cases hname : x = y <;> cases e.equal f <;> simp [hname]

/-- A test that is right for exponents is right for terms. -/
theorem Term.equalBy_eq {t : Term M} (ht : t.exponentDepth ≤ k) (u : Term M) :
    equalBy test t u = some (t.equal u) := by
  obtain ⟨m, i, ps⟩ := t
  obtain ⟨n, j, qs⟩ := u
  rw [exponentDepth] at ht
  have hpowers := Power.equalAllBy_eq htest ht qs
  rw [equalBy, Term.equal, hpowers]
  change (if (Magnitude.isZero m || Magnitude.isZero n) = true then
      some (Magnitude.isZero m && Magnitude.isZero n)
    else if (m == n && i == j) = true then some (Power.equalAll ps qs) else some false) = _
  by_cases hzero : (Magnitude.isZero m || Magnitude.isZero n) = true
  · rw [if_pos hzero, if_pos hzero]
  · rw [if_neg hzero, if_neg hzero]
    cases m == n && i == j <;> rfl

/-- A test that is right for exponents is right for lists of terms. -/
theorem Term.equalAllBy_eq {ts : List (Term M)} (hts : exponentDepthAll ts ≤ k)
    (us : List (Term M)) :
    equalAllBy test ts us = some (equalAll ts us) := by
  induction ts generalizing us with
  | nil => cases us <;> rw [equalAllBy, equalAll] <;> exact nofun
  | cons t ts ih =>
    rw [exponentDepthAll, Nat.max_le] at hts
    cases us with
    | nil => rw [equalAllBy, equalAll] <;> exact nofun
    | cons u us =>
      rw [equalAllBy, equalAll, Term.equalBy_eq htest hts.1 u, ih hts.2 us]
      cases t.equal u <;> rfl

/-- A test that is right for exponents is right for sums. -/
theorem Poly.equalBy_eq {p : Poly M} (hp : p.exponentDepth ≤ k) (q : Poly M) :
    equalBy test p q = some (p.equal q) := by
  cases p with
  | term t =>
    rw [exponentDepth] at hp
    match q with
    | .term u => rw [equalBy, Poly.equal, Term.equalBy_eq htest hp]
    | .sum [] => rw [equalBy, Poly.equal]
    | .sum [u] => rw [equalBy, Poly.equal, Term.equalBy_eq htest hp]
    | .sum (_ :: _ :: _) => rw [equalBy, Poly.equal]
  | sum ts =>
    rw [exponentDepth] at hp
    match ts, q with
    | [], .term u => rw [equalBy, Poly.equal, Term.equalOnly]
    | [t], .term u =>
      rw [Term.exponentDepthAll, Term.exponentDepthAll, Nat.max_zero] at hp
      rw [equalBy, Poly.equal, Term.equalOnly, Term.equalBy_eq htest hp]
    | _ :: _ :: _, .term u => rw [equalBy, Poly.equal, Term.equalOnly]
    | ts, .sum us => rw [equalBy, Poly.equal, Term.equalAllBy_eq htest hp]

end

/-- More rounds than exponents are nested tell whether two sums are the same. -/
theorem Poly.equalWithin_eq {rounds : Nat} {p : Poly M} (h : p.exponentDepth < rounds)
    (q : Poly M) :
    equalWithin rounds p q = some (p.equal q) := by
  induction rounds generalizing p q with
  | zero => exact absurd h (Nat.not_lt_zero _)
  | succ rounds ih =>
    exact equalBy_eq (fun e f he => ih he f) (Nat.le_of_lt_succ h) q

section

variable (test : Poly M → Poly M → Option Ordering)

/-- The order of two lists of powers, with a test for exponents. -/
def Power.orderAllBy : List (Power M) → List (Power M) → Option Ordering
  | [], [] => some .eq
  | [], _ :: _ => some .lt
  | _ :: _, [] => some .gt
  | ⟨x, e⟩ :: ps, ⟨y, f⟩ :: qs =>
    match Text.order x y with
    | .eq => do
      match ← test e f with
      | .eq => orderAllBy ps qs
      | differ => some differ
    | differ => some differ

/-- The order of two terms, with a test for exponents. -/
def Term.orderBy (t u : Term M) : Option Ordering := do
  let powers ← Power.orderAllBy test t.powers u.powers
  return powers.then
    ((compare t.imaginary u.imaginary).then (Magnitude.order t.magnitude u.magnitude))

/-- The order of two lists of terms, with a test for exponents. -/
def Term.orderAllBy : List (Term M) → List (Term M) → Option Ordering
  | [], [] => some .eq
  | [], _ :: _ => some .lt
  | _ :: _, [] => some .gt
  | t :: ts, u :: us => do
    match ← Term.orderBy test t u with
    | .eq => orderAllBy ts us
    | differ => some differ

end

/-- The order of two sums, if so many rounds are enough to tell. -/
def Poly.orderWithin : (rounds : Nat) → Poly M → Poly M → Option Ordering
  | 0 => fun _ _ => none
  | rounds + 1 => fun p q => Term.orderAllBy (Poly.orderWithin rounds) p.terms q.terms

section

variable {test : Poly M → Poly M → Option Ordering} {k : Nat}
  (htest : ∀ e f : Poly M, e.exponentDepth < k → test e f = some (e.order f))

include htest

/-- A test that is right for exponents is right for powers. -/
theorem Power.orderAllBy_eq {ps : List (Power M)} (hps : exponentDepthAll ps ≤ k)
    (qs : List (Power M)) : orderAllBy test ps qs = some (orderAll ps qs) := by
  induction ps generalizing qs with
  | nil => cases qs <;> rw [orderAllBy, orderAll]
  | cons p ps ih =>
    obtain ⟨x, e⟩ := p
    rw [exponentDepthAll, exponentDepth, Nat.max_le] at hps
    cases qs with
    | nil => rw [orderAllBy, orderAll]
    | cons q qs =>
      obtain ⟨y, f⟩ := q
      rw [orderAllBy, orderAll, Power.order, htest e f hps.1, ih hps.2 qs]
      cases Text.order x y <;> cases e.order f <;> rfl

/-- A test that is right for exponents is right for terms. -/
theorem Term.orderBy_eq {t : Term M} (ht : t.exponentDepth ≤ k) (u : Term M) :
    orderBy test t u = some (t.order u) := by
  obtain ⟨m, i, ps⟩ := t
  obtain ⟨n, j, qs⟩ := u
  rw [exponentDepth] at ht
  rw [orderBy, Power.orderAllBy_eq htest ht qs, Term.order]
  rfl

/-- A test that is right for exponents is right for lists of terms. -/
theorem Term.orderAllBy_eq {ts : List (Term M)} (hts : exponentDepthAll ts ≤ k)
    (us : List (Term M)) :
    orderAllBy test ts us = some (orderAll ts us) := by
  induction ts generalizing us with
  | nil => cases us <;> rw [orderAllBy, orderAll]
  | cons t ts ih =>
    rw [exponentDepthAll, Nat.max_le] at hts
    cases us with
    | nil => rw [orderAllBy, orderAll]
    | cons u us =>
      rw [orderAllBy, orderAll, Term.orderBy_eq htest hts.1 u, ih hts.2 us]
      cases t.order u <;> rfl

end

/-- More rounds than exponents are nested tell the order of two sums. -/
theorem Poly.orderWithin_eq {rounds : Nat} {p : Poly M} (h : p.exponentDepth < rounds)
    (q : Poly M) :
    orderWithin rounds p q = some (p.order q) := by
  induction rounds generalizing p q with
  | zero => exact absurd h (Nat.not_lt_zero _)
  | succ rounds ih =>
    have hterms := p.exponentDepthAll_terms_le.trans (Nat.le_of_lt_succ h)
    rw [orderWithin, Poly.order_eq]
    exact Term.orderAllBy_eq (fun e f he => ih he f) hterms q.terms

end SymCalc
