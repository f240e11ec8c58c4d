import Mathlib
import SymCalc.Proofs.BracketBalance
import SymCalc.Proofs.SourceOrder

/-!
# Skipping a bad matrix

Skipping takes tokens and counts the brackets among them. Main statement: it stops behind the
bracket that closes one more than are open where it starts.
-/

namespace SymCalc

variable {ts rest : List Token} {t : Token} {c : Cursor}

/-- The bound on the tokens to come is one. -/
theorem Cursor.length_tokens_le (c : Cursor) : c.tokens.length ≤ c.scanner.size := by
  have hwithin (n : Nat) (s : Scanner) : (s.tokensWithin n).1.length ≤ n := by
    induction n generalizing s with
    | zero => exact le_refl 0
    | succ n ih =>
      rw [Scanner.tokensWithin]
      dsimp only
      split
      · exact Nat.succ_le_succ (Nat.zero_le n)
      · exact Nat.succ_le_succ (ih _)
  exact hwithin _ _

/-- The first of several tokens to come is not the end. -/
theorem Cursor.Placed.kind_ne_eof (hc : c.Placed) (h : c.tokens = t :: ts) (hts : ts ≠ []) :
    t.kind ≠ .eof := by
  have hnext := hc.tokens_next 0
  rw [h] at hnext
  split at hnext
  · exact absurd (List.cons.inj hnext).2 hts
  · rename_i hkind
    rwa [(List.cons.inj hnext).1]

/-- A token to come, unless it is the end, is taken next, and the others come after it. -/
theorem Cursor.Placed.next_of_tokens (hc : c.Placed) (h : c.tokens = t :: ts) (ht : t.kind ≠ .eof)
    (n : Nat) : c.scanner.next.1 = t ∧ tokens ⟨c.scanner.next.2, n⟩ = ts := by
  have hnext := hc.tokens_next n
  rw [h] at hnext
  split at hnext
  · rename_i hkind
    rw [← (List.cons.inj hnext).1] at hkind
    exact absurd hkind ht
  · obtain ⟨htoken, htokens⟩ := List.cons.inj hnext
    exact ⟨htoken.symm, htokens.symm⟩

/-- Skipping a token counts what it opens or closes. -/
theorem skipMatrixWithin_step {n depth depth' : Nat} (hnext : c.scanner.next.1 = t)
    (heof : t.kind ≠ .eof) (herror : t.kind ≠ .error)
    (hdepth : (depth' : Int) = depth + 1 + t.bracketStep) :
    Parse.skipMatrixWithin (n + 1) (depth + 1) c =
      Parse.skipMatrixWithin n depth' ⟨c.scanner.next.2, c.consumed + 1⟩ := by
  have hgoes : ¬(decide (t.kind = .eof) || decide (t.kind = .error)) = true := by
    simp [heof, herror]
  rw [Parse.skipMatrixWithin]
  dsimp only
  rw [hnext, if_neg hgoes]
  unfold Token.bracketStep at hdepth
  split
  · rename_i hopening
    rw [if_pos hopening] at hdepth
    obtain rfl : depth' = depth + 2 := by omega
    rfl
  · rename_i hopening
    rw [if_neg hopening] at hdepth
    split
    · rename_i hclose
      rw [if_pos hclose] at hdepth
      obtain rfl : depth' = depth := by omega
      rfl
    · rename_i hclose
      rw [if_neg hclose] at hdepth
      obtain rfl : depth' = depth + 1 := by omega
      rfl

/-- Skipping a bad matrix stops behind the bracket that closes one more than are open. -/
theorem tokens_skipMatrixWithin {n depth : Nat} (hc : c.Placed)
    (hclean : ∀ t ∈ c.tokens, t.kind ≠ .error) (hn : c.tokens.length ≤ n)
    (h : ClosesFrom depth c.tokens rest) :
    (Parse.skipMatrixWithin n (depth + 1) c).tokens = rest := by
  obtain ⟨inner, close, htokens, hinner, hclose⟩ := h
  induction inner generalizing c n depth with
  | nil =>
    have heof : close.kind ≠ .eof := Token.ne_eof_of_isPunct hclose
    obtain ⟨hnext, hafter⟩ := hc.next_of_tokens htokens heof (c.consumed + 1)
    have htotal := hinner.total
    rw [bracketSum_nil] at htotal
    have hstep : ((0 : Nat) : Int) = depth + 1 + close.bracketStep := by
      rw [bracketStep_close hclose]
      omega
    cases n with
    | zero =>
      rw [htokens] at hn
      cases hn
    | succ n =>
      rw [skipMatrixWithin_step hnext heof (hclean close (by rw [htokens]; simp)) hstep]
      cases n with
      | zero => exact hafter
      | succ n => exact hafter
  | cons t inner ih =>
    have heof : t.kind ≠ .eof := hc.kind_ne_eof htokens (by simp)
    obtain ⟨hnext, hafter⟩ := hc.next_of_tokens htokens heof (c.consumed + 1)
    obtain ⟨-, hlater⟩ := settles_cons.mp hinner
    have hnonneg := hlater.nonneg [] List.nil_prefix
    rw [bracketSum_nil, add_zero] at hnonneg
    obtain ⟨k, hk⟩ := Int.eq_ofNat_of_zero_le hnonneg
    have hstep : ((k + 1 : Nat) : Int) = depth + 1 + t.bracketStep := by omega
    rw [hk] at hlater
    cases n with
    | zero =>
      rw [htokens] at hn
      cases hn
    | succ n =>
      rw [skipMatrixWithin_step hnext heof (hclean t (by rw [htokens]; simp)) hstep]
      refine ih (hc.next_placed (c.consumed + 1)).1 ?_ ?_ hafter hlater
      · intro u hu
        rw [hafter] at hu
        refine hclean u ?_
        rw [htokens]
        exact List.mem_cons_of_mem t hu
      · rw [hafter]
        rw [htokens] at hn
        exact Nat.le_of_succ_le_succ hn

end SymCalc
