import Mathlib
import SymCalc.Proofs.ContractOfStatements
import SymCalc.Proofs.Lockstep

/-!
# Statements read in step

The contract of this module asks that two readers stay in step, and that every token taken uses up
some of the bound on those to come. Main statement: statements are read in step, with any two bounds
on their nesting that exceed the number of tokens to come. As long as the first reader has not
failed, the second one reads the same trees, further down; without further lines it fails where the
first one does and in the same way.
-/

namespace SymCalc

namespace Cursor

variable {c : Cursor}

/-- Looking at a token that stands on the line leaves a cursor clean. -/
theorem MoreOnLine.clean_peek (h : c.MoreOnLine) (n : Nat) : Clean ⟨c.scanner.peek.2, n⟩ :=
  fun x hx => .inr (h x hx).2

/-- A cursor that has looked at the end is clean. -/
theorem clean_peek_of_eof (h : c.scanner.peek.1.kind = .eof) (n : Nat) :
    Clean ⟨c.scanner.peek.2, n⟩ := by
  obtain ⟨x, hx, htoken⟩ := c.scanner.held_peek
  intro y hy
  cases hx.symm.trans hy
  exact .inl (by rw [htoken, h])

/-- Nothing is to come when the end has been looked at. -/
theorem budget_of_finished {o : Offset} (h : o.Tame c) (hfinished : c.Finished) : c.budget = 0 := by
  obtain ⟨x, hx, hkind⟩ := hfinished
  have hheld : c.scanner.held = some x := hx
  simp [budget, hheld, hkind, (h.ended x hx hkind).1]

end Cursor

namespace Offset

open Parse Contract

variable {M : Type} [Numeric M] {o : Offset} {c d : Cursor} {b : Nat}

/-- Without further lines, a token is taken from the second cursor as from the first. -/
theorem Tame.next_cursor (h : o.Tame c) (hmore : o.more = none) (k : Nat) :
    (o.cursor c).scanner.next.1 = c.scanner.next.1.relabel o.place ∧
      (⟨(o.cursor c).scanner.next.2, k + o.tokens⟩ : Cursor) = o.cursor ⟨c.scanner.next.2, k⟩ := by
  have hlinked : o.Linked c (o.cursor c) := .level h fun hsome => absurd hmore hsome
  rcases hlinked.next k with ⟨htoken, hcursor, -⟩ | ⟨hsome, -⟩
  · exact ⟨htoken, hcursor⟩
  · exact absurd hmore hsome

/-- Without further lines, both cursors have the same bound on their tokens. -/
theorem size_cursor (hmore : o.more = none) (c : Cursor) :
    (o.cursor c).scanner.size = c.scanner.size := by
  have hextra : o.extra = [] := by rw [extra, hmore]
  simp [Scanner.size, Source.size_eq, cursor, source, hextra, Source.rest]

/-- Skipping the rest of a matrix in step. -/
theorem Tame.skipMatrixWithin (hmore : o.more = none) (tokens depth : Nat) (h : o.Tame c) :
    o.Tame (skipMatrixWithin tokens depth c) ∧
      skipMatrixWithin tokens depth (o.cursor c) = o.cursor (skipMatrixWithin tokens depth c) ∧
      (skipMatrixWithin tokens depth c).budget ≤ c.budget ∧
      (c.Clean → (skipMatrixWithin tokens depth c).Clean) := by
  induction tokens generalizing depth c with
  | zero => exact ⟨h, rfl, Nat.le_refl _, id⟩
  | succ tokens ih =>
    cases depth with
    | zero => exact ⟨h, rfl, Nat.le_refl _, id⟩
    | succ depth =>
      obtain ⟨htame, hheld, hbudget, -⟩ := h.next (c.consumed + 1)
      obtain ⟨htoken, hcursor⟩ := h.next_cursor hmore (c.consumed + 1)
      have hconsumed : (o.cursor c).consumed + 1 = c.consumed + 1 + o.tokens :=
        Nat.add_right_comm _ _ _
      have hbudget := hbudget.trans (Nat.sub_le _ _)
      have hclean := Cursor.clean_of_held_none (c := ⟨c.scanner.next.2, c.consumed + 1⟩) hheld
      simp only [Parse.skipMatrixWithin, htoken, hconsumed, hcursor, Token.kind_relabel,
        Token.isPunct_relabel]
      split
      · exact ⟨htame, rfl, hbudget, fun _ => hclean⟩
      · split
        · obtain ⟨h1, h2, h3, h4⟩ := ih (depth + 2) htame
          exact ⟨h1, h2, h3.trans hbudget, fun _ => h4 hclean⟩
        · split
          · obtain ⟨h1, h2, h3, h4⟩ := ih depth htame
            exact ⟨h1, h2, h3.trans hbudget, fun _ => h4 hclean⟩
          · obtain ⟨h1, h2, h3, h4⟩ := ih (depth + 1) htame
            exact ⟨h1, h2, h3.trans hbudget, fun _ => h4 hclean⟩

/-- Two readers stay in step. Every token taken uses up some of a bound, and a reader that is near
has looked at no token of a later line. Without further lines, both fail in the same way. -/
def inStep (o : Offset) (b : Nat) : Contract where
  move := o.place
  paired := True
  strict := o.more = none
  bound := b
  At near taken c d := o.Linked c d ∧ taken.length + c.budget ≤ b ∧ (near = true → c.Clean)
  Bad e c e' d :=
    e' = e.relabel o.place ∧ o.Tame c ∧ d = o.cursor c ∧ c.budget ≤ b - 1 ∧ c.Clean

/-- Readers that are clean may fail in step. -/
theorem Linked.mayFail (h : o.Linked c d) (hb : c.budget ≤ b - 1) (hclean : c.Clean) (t : Token) :
    (o.inStep b).MayFail t c d := by
  intro hmore fault _
  obtain ⟨htame, rfl⟩ := (linked_iff hmore).mp h
  exact ⟨rfl, htame, rfl, hb, hclean⟩

variable {near : Bool} {taken : List Token}

/-- Taking a token in step. -/
theorem inStep_next (h : (o.inStep b).At near taken c d) :
    (¬o.more = none ∧ c.scanner.peek.1.kind = .eof) ∨
      (o.inStep b).Met (Token.relabel o.place)
        (fun t e e' => (o.inStep b).MayFail t e e' ∧
          (t.kind ≠ .eof → (o.inStep b).At true (taken ++ [t]) e e'))
        (next c) (next d) := by
  obtain ⟨hlinked, hbound, -⟩ := h
  obtain ⟨htame, hheld, hbudget, hless⟩ := hlinked.tame.next (c.consumed + 1)
  have hclean := Cursor.clean_of_held_none (c := ⟨c.scanner.next.2, c.consumed + 1⟩) hheld
  have hb : Cursor.budget ⟨c.scanner.next.2, c.consumed + 1⟩ ≤ b - 1 := by omega
  have hconsumed : d.consumed + 1 = c.consumed + 1 + o.tokens := by
    rw [hlinked.consumed]
    omega
  rcases hlinked.next (c.consumed + 1) with ⟨htoken, hcursor, hkind⟩ | ⟨hmore, hend⟩
  · refine .inr ?_
    have hname : d.scanner.next.2.name = c.scanner.next.2.name :=
      congrArg (fun e => e.scanner.name) hcursor
    rw [next_eq c, next_eq d, htoken, hconsumed, hcursor, hname]
    by_cases herror : c.scanner.next.1.kind = .error
    · rw [if_pos herror, if_pos (by exact herror)]
      exact fun _ => ⟨_, _, fun _ => rfl, rfl, htame, rfl, hb, hclean⟩
    · rw [if_neg herror, if_neg (by exact herror)]
      have hafter : o.Linked ⟨c.scanner.next.2, c.consumed + 1⟩
          (o.cursor ⟨c.scanner.next.2, c.consumed + 1⟩) := by
        refine .level htame fun _ => ?_
        rintro ⟨x, hx, -⟩
        cases hheld.symm.trans hx
      refine ⟨_, fun _ => rfl, hafter.mayFail hb hclean _, fun heof => ?_⟩
      refine ⟨hafter, ?_, fun _ => hclean⟩
      have hless := hless heof
      rw [List.length_append, List.length_singleton]
      omega
  · rcases hend with heof | herror
    · exact .inl ⟨hmore, c.scanner.next_fst ▸ heof⟩
    · refine .inr ?_
      rw [next_eq c, if_pos herror]
      exact fun hstrict => absurd hstrict hmore

/-- Looking at a token in step. -/
theorem inStep_peek {P : Token → Cursor → Cursor → Prop} (h : (o.inStep b).At near taken c d)
    (hP : ∀ e e', o.Linked e e' → e = ⟨c.scanner.peek.2, c.consumed⟩ → e.budget ≤ c.budget →
      P c.scanner.peek.1 e e') :
    (¬o.more = none ∧ c.scanner.peek.1.kind = .eof) ∨
      (o.inStep b).Met (Token.relabel o.place) P (peek c) (peek d) := by
  obtain ⟨hlinked, hbound, -⟩ := h
  have hbudget := (hlinked.tame.peek c.consumed).2
  by_cases herror : c.scanner.peek.1.kind = .error
  · -- An error is taken at once.
    refine .inr ?_
    rcases hlinked.peek c.consumed with ⟨htoken, hafter, -⟩ | ⟨hmore, -⟩ | ⟨-, heof, -⟩
    · rw [← hlinked.consumed] at hafter
      have hat : (o.inStep b).At false taken ⟨c.scanner.peek.2, c.consumed⟩
          ⟨d.scanner.peek.2, d.consumed⟩ := ⟨hafter, by omega, nofun⟩
      rcases inStep_next hat with ⟨-, heof⟩ | hmet
      · rw [Scanner.peek_peek, herror] at heof
        cases heof
      · have hfails := peek_of_error herror
        rw [peek_eq, if_pos herror] at hfails
        rw [peek_eq, if_pos herror, peek_eq, if_pos (by rw [htoken]; exact herror)]
        rw [hfails] at hmet ⊢
        exact hmet
    · rw [peek_of_error herror]
      exact fun hstrict => absurd hstrict hmore
    · rw [heof] at herror
      cases herror
  · rw [peek_of_kind herror]
    rcases hlinked.peek c.consumed with ⟨htoken, hafter, -⟩ | ⟨-, hkind⟩ | ⟨hmore, heof, -⟩
    · refine .inr ⟨⟨d.scanner.peek.2, d.consumed⟩, fun _ => ?_, ?_⟩
      · rw [peek_of_kind (by rw [htoken]; exact herror), htoken]
      · exact hP _ _ (hlinked.consumed ▸ hafter) rfl hbudget
    · exact absurd hkind herror
    · exact .inl ⟨hmore, heof⟩

/-- Staying in step is lawful. -/
theorem inStep_lawful (o : Offset) (b : Nat) : (o.inStep b).Lawful M where
  within _ h := (Nat.le_add_right _ _).trans h.2.1
  mayFail h hmem := by
    have hpos := List.length_pos_of_mem hmem
    have hbound := h.2.1
    exact h.1.mayFail (by omega) (h.2.2 rfl) _
  next h := inStep_next h
  peek {near taken c d} h := by
    refine inStep_peek h fun e e' hlinked he hbudget => ?_
    have hbound := h.2.1
    refine ⟨⟨hlinked, by omega, nofun⟩, fun heof => ?_⟩
    have hfinished : e.Finished := by
      obtain ⟨x, hx, htoken⟩ := c.scanner.held_peek
      exact he ▸ ⟨x, hx, by rw [htoken, heof]⟩
    have hnone := Cursor.budget_of_finished hlinked.tame hfinished
    exact hlinked.mayFail (by omega) (he ▸ Cursor.clean_peek_of_eof heof c.consumed) _
  look {taken c d} h := by
    obtain ⟨hends, hlinked, hbudget⟩ := h.1.atEndOfLine c.consumed
    have hbound := h.2.1
    have hat : (o.inStep b).At true taken ⟨c.scanner.atEndOfLine.2, c.consumed⟩
        ⟨d.scanner.atEndOfLine.2, d.consumed⟩ := by
      refine ⟨h.1.consumed ▸ hlinked, by omega, fun _ x hx => h.2.2 rfl x ?_⟩
      rwa [← c.scanner.held_atEndOfLine]
    rw [atEndOfLine_eq, atEndOfLine_eq, hends]
    refine ⟨_, fun _ => rfl, hat, fun hfalse => ?_⟩
    have honline := Cursor.moreOnLine_of_atEndOfLine hfalse c.consumed
    refine (inStep_peek hat fun e e' hlinked' he hbudget' => ?_).resolve_left
      fun hend => honline.kind hend.2
    have hbound' := hat.2.1
    exact ⟨hlinked', by omega, fun _ => he ▸ honline.clean_peek c.consumed⟩
  exhausted h hbound := by
    have hwithin := h.2.1
    exact absurd hbound (by change ¬b < _; omega)
  giveUp {taken token fault c d} α g P h := by
    obtain ⟨hlinked, hbound, hclean⟩ := h.stands
    have hpos := List.length_pos_of_mem h.mem
    intro hmore
    obtain ⟨htame, rfl⟩ := (linked_iff hmore).mp hlinked
    obtain ⟨hskipped, hcursor, hbudget, hheld⟩ := htame.skipMatrixWithin hmore c.scanner.size 1
    refine ⟨_, o.cursor (skipMatrixWithin c.scanner.size 1 c), fun _ => ?_, rfl, hskipped, rfl,
      by omega, hheld (hclean rfl)⟩
    change fail _ _ (skipMatrixWithin (o.cursor c).scanner.size 1 (o.cursor c)) = _
    rw [size_cursor hmore, hcursor]
    rfl

/-- What two readers of a statement come to: the same tree further down and fewer tokens to come,
or, without further lines, the same error further down. An error leaves no token of a later line
looked at. -/
def Alike (o : Offset) (c : Cursor) (r r' : EStateM.Result SyntaxError Cursor (Expr M)) : Prop :=
  match r with
  | .ok x d => d.budget < c.budget ∧ ∃ d', r' = .ok (x.relabel o.place) d' ∧ o.Linked d d'
  | .error e d => o.more = none →
      d.budget ≤ c.budget - 1 ∧ d.Clean ∧ o.Tame d ∧ r' = .error (e.relabel o.place) (o.cursor d)

/-- Statements are read in step, with any bounds that exceed the tokens to come. -/
theorem statementWithin_alike (alone : Bool) {depth depth' : Nat} (h : o.Linked c d)
    (hdepth : c.budget < depth) (hdepth' : c.budget < depth') :
    o.Alike c ((statementWithin depth alone : Parse (Expr M)) c)
      ((statementWithin depth' alone : Parse (Expr M)) d) := by
  have hat : (o.inStep c.budget).At false [] c d := ⟨h, (Nat.zero_add _).le, nofun⟩
  have hsuffices : (o.inStep c.budget).Suffices [] depth depth' :=
    ⟨fun hone => absurd trivial hone, hdepth.trans_eq (Nat.zero_add depth).symm,
      hdepth'.trans_eq (Nat.zero_add depth').symm⟩
  have hmet : (o.inStep c.budget).Met _ _ ((statementWithin depth alone : Parse (Expr M)) c)
      (statementWithin depth' alone d) :=
    (statementWithin_nested (inStep_lawful o c.budget) depth depth').read hat hsuffices
  cases hrun : (statementWithin depth alone : Parse (Expr M)) c with
  | ok x e =>
    rw [hrun] at hmet
    obtain ⟨e', hsame, all, -, ⟨hlinked, hbound, -⟩, hlt, -⟩ := hmet
    rw [List.length_nil] at hlt
    exact ⟨by omega, e', hsame trivial, hlinked⟩
  | error err e =>
    rw [hrun] at hmet
    intro hmore
    obtain ⟨err', e', hsame, rfl, htame, rfl, hbudget, hclean⟩ := hmet hmore
    exact ⟨hbudget, hclean, htame, hsame trivial⟩

end Offset

end SymCalc
