import Mathlib
import SymCalc.Proofs.ContractOfStatements

/-!
# Trees that are read are well formed

The contract of this module asks that tokens are spelled as their kinds say. A tree that is built
from such tokens is well formed. Main statement: every node of every statement read from any source
is well formed.
-/

namespace SymCalc

open Parse

variable {M : Type} [Numeric M] {c : Cursor}

namespace Expr

variable {left right x : Expr M} {pos : Position} {op : Operator} {ts : List Token}

/-- A binary operation of well-formed trees is well formed. -/
theorem binary_wellFormed
    (hop : IsSymbol op.symbol ∧ (priority? op.symbol).isSome = true ∧ op.symbol ≠ "-")
    (hleft : left.WellFormed) (hright : right.WellFormed) : (binary pos left op right).WellFormed :=
  .intro hop (List.forall_mem_cons.mpr ⟨hleft, List.forall_mem_singleton.mpr hright⟩)

/-- Bringing operators into the order of their priorities keeps trees well formed. -/
theorem rotate_wellFormed
    (hop : IsSymbol op.symbol ∧ (priority? op.symbol).isSome = true ∧ op.symbol ≠ "-")
    (hleft : left.WellFormed) (hright : right.WellFormed) : (rotate left op right).WellFormed := by
  unfold rotate
  dsimp only
  split
  · rename_i pos inner o last
    have hinner := hright.inside inner List.mem_cons_self
    have hlast := hright.inside last (List.mem_cons_of_mem _ List.mem_cons_self)
    split
    · exact binary_wellFormed hright.here (binary_wellFormed hop hleft hinner) hlast
    · exact binary_wellFormed hop hleft hright
  · exact binary_wellFormed hop hleft hright

/-- A prefix operation of a well-formed tree is well formed. -/
theorem unary_wellFormed (hop : isUnaryOperator op.symbol = true) (hright : right.WellFormed) :
    (unary pos op right).WellFormed :=
  .intro hop (List.forall_mem_singleton.mpr hright)

/-- A well-formed node without trees inside is a well-formed tree. -/
theorem leaf_wellFormed (hnode : WellFormedNode x) (hnone : x.children = []) : x.WellFormed :=
  .intro hnode fun y hy => by rw [hnone] at hy; cases hy

/-- A tree that is built from sound tokens is well formed. -/
theorem BuiltFrom.wellFormed (h : x.BuiltFrom ts) (hts : ∀ t ∈ ts, t.Sound) : x.WellFormed := by
  induction h with
  | number mem kind value =>
    exact leaf_wellFormed (.number ((hts _ mem).numeral kind) value) rfl
  | boolean mem b => exact leaf_wellFormed (.boolean b) rfl
  | imaginaryUnit mem => exact leaf_wellFormed .imaginaryUnit rfl
  | named mem read kind notUnit =>
    exact leaf_wellFormed (.named ((hts _ read).name kind) notUnit) rfl
  | reference mem kind => exact leaf_wellFormed ((hts _ mem).name kind) rfl
  | unary mem known _ ih => exact unary_wellFormed known ih
  | @operation t left right mem kind known notMinus _ _ ih₁ ih₂ =>
    have hsymbol : IsSymbol t.text := by
      refine ((hts t mem).operator kind).resolve_left fun hquote => ?_
      rw [hquote] at known
      exact absurd known (by decide)
    exact rotate_wellFormed ⟨hsymbol, known, notMinus⟩ ih₁ ih₂
  | difference mem _ _ ih₁ ih₂ =>
    have hplus : IsSymbol "+" ∧ (priority? "+").isSome = true ∧ Text.ofString "+" ≠ "-" := by
      decide
    have hneg : isUnaryOperator "-" = true := by decide
    exact rotate_wellFormed hplus ih₁ (unary_wellFormed hneg ih₂)
  | assign _ _ ih₁ ih₂ => exact .intro ih₁.here (List.forall_mem_singleton.mpr ih₂)
  | tuple mem nonempty _ ih => exact .intro nonempty ih
  | matrix mem full _ ih =>
    refine .intro full fun y hy => ?_
    obtain ⟨row, hrow, hy⟩ := List.mem_flatten.mp hy
    exact ih row hrow y hy
  | ifThen mem _ _ ih₁ ih₂ => exact .intro trivial (by simpa [children] using ⟨ih₁, ih₂⟩)
  | ifElse mem _ _ _ ih₁ ih₂ ih₃ => exact .intro trivial (by simpa [children] using ⟨ih₁, ih₂, ih₃⟩)
  | lambda mem _ _ ih₁ ih₂ => exact .intro (fun p hp => (ih₁ p hp).here) ih₂
  | call mem kind _ ih => exact .intro ((hts _ mem).name kind) ih
  | ret mem _ ih => exact .intro trivial (List.forall_mem_singleton.mpr ih)
  | declare mem words => exact leaf_wellFormed trivial rfl

end Expr

/-- Tokens are sound: those that were taken, and the one looked at. -/
theorem soundTokens_lawful : Contract.SingleLawful M 0
    (fun _ taken c => c.Sound ∧ ∀ t ∈ taken, t.Sound) (fun _ c => c.Sound) where
  mayFail hat _ _ := hat.1
  fails_next hat _ := (Scanner.next_sound hat.1).2
  next {_ taken c} hat _ := by
    obtain ⟨htoken, hafter⟩ := Scanner.next_sound hat.1
    rw [Scanner.next_fst] at htoken
    exact ⟨hafter, List.forall_mem_append.mpr ⟨hat.2, List.forall_mem_singleton.mpr htoken⟩⟩
  fails_peek hat _ := (Scanner.peek_sound hat.1).2
  peek hat := ⟨(Scanner.peek_sound hat.1).2, hat.2⟩
  atEndOfLine hat := ⟨Scanner.atEndOfLine_sound hat.1, hat.2⟩
  look hat _ := ⟨(Scanner.peek_sound (Scanner.atEndOfLine_sound hat.1)).2, hat.2⟩
  giveUp hfault :=
    skipMatrixWithin_keeps (fun _ hc => (Scanner.next_sound hc).2) _ _ hfault.stands.1

namespace Cursor

/-- Looking for the end of the input keeps a cursor sound. -/
theorem atEnd_sound (hc : c.Sound) : c.atEnd.2.Sound := (Scanner.peek_sound hc).2

/-- Dropping the rest of a line keeps a cursor sound. -/
theorem discard_sound (c : Cursor) : c.discard.Sound := fun _ h => nomatch h

/-- Skipping the rest of a line keeps a cursor sound. -/
theorem resync_sound (start : Nat) (hc : c.Sound) : (c.resync start).Sound := by
  have hskip : ∀ (tokens : Nat) (c : Cursor), c.Sound → (skipLineWithin tokens c).Sound := by
    intro tokens
    induction tokens with
    | zero => exact fun c hc => hc
    | succ tokens ih =>
      intro c hc
      have hs := Scanner.atEndOfLine_sound hc
      rw [skipLineWithin]
      dsimp only
      split
      · exact hs
      · exact ih _ (Scanner.next_sound hs).2
  unfold resync
  dsimp only
  split
  · exact hskip _ _ (Scanner.next_sound hc).2
  · exact hskip _ _ hc

/-- The statement read at a sound cursor is well formed, and the cursor stays sound. -/
theorem statement_wellFormed (settings : Settings) (hc : c.Sound) :
    (∀ e : Expr M, (c.statement settings).1 = .ok e → e.WellFormed) ∧
      (c.statement (M := M) settings).2.Sound := by
  have hsize : 0 < c.scanner.size := Nat.succ_pos _
  have hkept := soundTokens_lawful.statementWithin (M := M) hsize false
    ⟨hc, List.forall_mem_nil _⟩
  unfold statement parse
  cases hread : Parse.statementWithin (M := M) c.scanner.size false c with
  | ok e d =>
    rw [hread] at hkept
    obtain ⟨taken, -, -, ⟨hd, htaken⟩, he⟩ := hkept
    refine ⟨fun e' h => ?_, ?_⟩
    · cases h
      exact he.wellFormed htaken
    · dsimp only
      split
      · exact hd
      · exact hd
  | error err d =>
    rw [hread] at hkept
    refine ⟨fun e' h => ?_, resync_sound _ hkept⟩
    cases h

/-- The statements read at a sound cursor are well formed. -/
theorem statementsWithin_wellFormed (settings : Settings) (rounds : Nat) (hc : c.Sound) :
    ∀ e : Expr M, .ok e ∈ (c.statementsWithin settings rounds).1 → e.WellFormed := by
  induction rounds generalizing c with
  | zero => exact fun _ h => nomatch h
  | succ rounds ih =>
    intro e h
    have hend := atEnd_sound hc
    rw [statementsWithin] at h
    split at h
    · cases h
    · rename_i d heq
      rw [heq] at hend
      obtain ⟨hfirst, hnext⟩ := statement_wellFormed (M := M) settings hend
      rcases List.mem_cons.mp h with h | h
      · exact hfirst e h.symm
      · exact ih hnext e h

/-- The statements of a program that was read are well formed. -/
theorem program_wellFormed (settings : Settings) (hc : c.Sound) {es : List (Expr M)}
    (h : (c.program settings).1 = .ok es) : ∀ e ∈ es, e.WellFormed := by
  intro e he
  have hmem : .ok e ∈ (c.statements (M := M) settings).1 := by
    rw [program_eq_ok_iff.mp h]
    exact List.mem_map_of_mem he
  exact statementsWithin_wellFormed settings _ hc e hmem

/-- A cursor at the start of a source is sound. -/
theorem start_sound (settings : Settings) (name : Text) (source : Source) :
    (start settings name source).Sound :=
  fun _ h => nomatch h

end Cursor

end SymCalc
