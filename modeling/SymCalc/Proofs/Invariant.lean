import Mathlib

/-!
# Invariants of computations

A computation with a state keeps an invariant when it leaves every state that has the invariant
in such a state, however it ends, and says something about its result and its error. Evaluations
are computations of this kind.
-/

namespace SymCalc

variable {ε σ α β : Type} {I : σ → Prop} {E : ε → Prop} {Q : α → Prop} {R : β → Prop}

/-- From a state with the invariant, a computation ends in one, with a result that has the
property `Q` or with an error that has the property `E`. -/
def Keeps (I : σ → Prop) (E : ε → Prop) (Q : α → Prop) (p : EStateM ε σ α) : Prop :=
  ∀ s, I s →
    match p s with
    | .ok a t => I t ∧ Q a
    | .error e t => I t ∧ E e

/-- If two computations one after the other succeed, both do. -/
theorem exists_of_bind_eq_ok {p : EStateM ε σ α} {k : α → EStateM ε σ β} {s u : σ} {b : β}
    (h : (p >>= k) s = .ok b u) : ∃ a t, p s = .ok a t ∧ k a t = .ok b u := by
  change EStateM.bind p k s = .ok b u at h
  rw [EStateM.bind] at h
  cases hps : p s with
  | ok a t =>
    rw [hps] at h
    exact ⟨a, t, rfl, h⟩
  | error e t =>
    rw [hps] at h
    cases h

namespace Keeps

/-- A result at hand keeps any invariant. -/
theorem pure {a : α} (h : Q a) : Keeps I E Q (Pure.pure a : EStateM ε σ α) :=
  fun _ hs => ⟨hs, h⟩

/-- An error at hand keeps any invariant. -/
theorem throw {e : ε} (h : E e) : Keeps I E Q (MonadExcept.throw e : EStateM ε σ α) :=
  fun _ hs => ⟨hs, h⟩

/-- A computation after another may rely on what is known of the result of the first. -/
theorem bind {p : EStateM ε σ α} {k : α → EStateM ε σ β} (hp : Keeps I E Q p)
    (hk : ∀ a, Q a → Keeps I E R (k a)) : Keeps I E R (p >>= k) := by
  intro s hs
  have h := hp s hs
  change match EStateM.bind p k s with
    | .ok a t => I t ∧ R a
    | .error e t => I t ∧ E e
  rw [EStateM.bind]
  cases hps : p s with
  | ok a t =>
    rw [hps] at h
    exact hk a h.2 t h.1
  | error e t =>
    rw [hps] at h
    exact h

/-- The state at hand has the invariant. -/
theorem get : Keeps I E I (MonadState.get : EStateM ε σ σ) :=
  fun _ hs => ⟨hs, hs⟩

/-- What a change of the state keeps. -/
theorem modify {f : σ → σ} (h : ∀ s, I s → I (f s)) :
    Keeps I E (fun _ => True) (modify f : EStateM ε σ Unit) :=
  fun s hs => ⟨h s hs, trivial⟩

/-- Less may be said of the result. -/
theorem mono {Q' : α → Prop} {p : EStateM ε σ α} (hp : Keeps I E Q p) (h : ∀ a, Q a → Q' a) :
    Keeps I E Q' p := by
  intro s hs
  have hkept := hp s hs
  cases hps : p s with
  | ok a t =>
    rw [hps] at hkept
    exact ⟨hkept.1, h a hkept.2⟩
  | error e t =>
    rw [hps] at hkept
    exact hkept

end Keeps

end SymCalc
