import Mathlib
import SymCalc.Expr.Parser

/-!
# Readers and cursors

How readers are put together and what the readers of single tokens come to, in terms of the scanner.
Two places in the input have names of their own here: the end, and a token on the line.
-/

namespace SymCalc

namespace Scanner

variable {s : Scanner} {x : Scanned}

/-- Taking the token looked at. -/
theorem next_of_held (h : s.held = some x) : s.next = (x.token, { s with held := none }) := by
  rw [next, h]

/-- Looking at the token looked at. -/
theorem peek_of_held (h : s.held = some x) : s.peek = (x.token, s) := by
  rw [peek, h]

/-- The token taken is the one looked at. -/
theorem next_fst (s : Scanner) : s.next.1 = s.peek.1 := by
  cases h : s.held <;> simp only [next, peek, h]

/-- After looking at a token it is held. -/
theorem held_peek (s : Scanner) : ∃ x, s.peek.2.held = some x ∧ x.token = s.peek.1 := by
  cases h : s.held with
  | none => exact ⟨s.scan.1, by simp only [peek, h], by simp only [peek, h]⟩
  | some x => exact ⟨x, by simp only [peek, h], by simp only [peek, h]⟩

/-- Looking at a token twice is looking once. -/
theorem peek_peek (s : Scanner) : s.peek.2.peek = s.peek := by
  obtain ⟨x, hx, htoken⟩ := s.held_peek
  rw [peek_of_held hx, htoken]

end Scanner

/-- What it is to be some punctuation. -/
theorem Token.isPunct_eq_true {t : Token} {text : Text} :
    t.isPunct text = true ↔ t.kind = .punctuation ∧ t.text = text := by
  rw [isPunct, Bool.and_eq_true, decide_eq_true_eq, decide_eq_true_eq]

/-- What it is to be some keyword. -/
theorem Token.isKeyword_eq_true {t : Token} {text : Text} :
    t.isKeyword text = true ↔ t.kind = .keyword ∧ t.text = text := by
  rw [isKeyword, Bool.and_eq_true, decide_eq_true_eq, decide_eq_true_eq]

/-- A bracket is not the end of the input. -/
theorem Token.ne_eof_of_isPunct {t : Token} {text : Text} (h : t.isPunct text = true) :
    t.kind ≠ .eof := by
  rw [(isPunct_eq_true.mp h).1]
  decide

/-- A keyword is not the end of the input. -/
theorem Token.ne_eof_of_isKeyword {t : Token} {text : Text} (h : t.isKeyword text = true) :
    t.kind ≠ .eof := by
  rw [(isKeyword_eq_true.mp h).1]
  decide

namespace Cursor

/-- The end of the input has been looked at. -/
def Finished (c : Cursor) : Prop := ∃ x ∈ c.scanner.held, x.token.kind = .eof

/-- The next token stands on the line. -/
def MoreOnLine (c : Cursor) : Prop :=
  ∀ x ∈ c.scanner.peek.2.held, x.token.kind ≠ .eof ∧ x.newline = false

variable {c : Cursor}

/-- The next token is not the end of the input when it stands on the line. -/
theorem MoreOnLine.kind (h : c.MoreOnLine) : c.scanner.peek.1.kind ≠ .eof := by
  obtain ⟨x, hx, htoken⟩ := c.scanner.held_peek
  rw [← htoken]
  exact (h x hx).1

/-- The token taken after looking at it is the one looked at. -/
theorem next_peek (c : Cursor) : c.scanner.peek.2.next.1 = c.scanner.peek.1 := by
  rw [Scanner.next_fst, Scanner.peek_peek]

end Cursor

namespace Parse

variable {α β : Type} {c d : Cursor} {p : Parse α} {q : α → Parse β} {a : α}

/-- A reader has failed. -/
def Fails (r : EStateM.Result SyntaxError Cursor α) : Prop := ∃ e d, r = .error e d

/-- Going on after a result. -/
theorem bind_of_ok (h : p c = .ok a d) : (p >>= q) c = q a d := by
  change EStateM.bind p q c = q a d
  rw [EStateM.bind, h]

/-- An error is the end. -/
theorem bind_of_error {err : SyntaxError} (h : p c = .error err d) :
    (p >>= q) c = .error err d := by
  change EStateM.bind p q c = .error err d
  rw [EStateM.bind, h]

/-- A reader fails when the first of its parts does. -/
theorem Fails.bind (h : Fails (p c)) : Fails ((p >>= q) c) := by
  obtain ⟨e, d, h⟩ := h
  exact ⟨e, d, bind_of_error h⟩

/-- A reader fails when what follows its first part does. -/
theorem fails_bind_of_ok (hp : p c = .ok a d) (hq : Fails (q a d)) : Fails ((p >>= q) c) := by
  rw [bind_of_ok hp]
  exact hq

/-- Taking a token either fails at it or gives it. -/
theorem next_eq (c : Cursor) : next c =
    if c.scanner.next.1.kind = .error then
      .error ⟨c.scanner.next.2.name, c.scanner.next.1.pos, .lexical c.scanner.next.1.text⟩
        ⟨c.scanner.next.2, c.consumed + 1⟩
    else .ok c.scanner.next.1 ⟨c.scanner.next.2, c.consumed + 1⟩ := rfl

/-- Looking at a token either takes it and fails or gives it. -/
theorem peek_eq (c : Cursor) : peek c =
    if c.scanner.peek.1.kind = .error then next ⟨c.scanner.peek.2, c.consumed⟩
    else .ok c.scanner.peek.1 ⟨c.scanner.peek.2, c.consumed⟩ := rfl

/-- Looking for the end of the line always succeeds. -/
theorem atEndOfLine_eq (c : Cursor) : atEndOfLine c =
    .ok c.scanner.atEndOfLine.1 ⟨c.scanner.atEndOfLine.2, c.consumed⟩ := rfl

/-- A token that is no error is taken. -/
theorem next_of_kind (h : c.scanner.peek.1.kind ≠ .error) :
    next c = .ok c.scanner.peek.1 ⟨c.scanner.next.2, c.consumed + 1⟩ := by
  rw [next_eq, c.scanner.next_fst, if_neg h]

/-- A token that is no error is looked at. -/
theorem peek_of_kind (h : c.scanner.peek.1.kind ≠ .error) :
    peek c = .ok c.scanner.peek.1 ⟨c.scanner.peek.2, c.consumed⟩ := by
  rw [peek_eq, if_neg h]

/-- An error that is looked at is taken at once. -/
theorem peek_of_error (h : c.scanner.peek.1.kind = .error) :
    peek c = .error ⟨c.scanner.peek.2.next.2.name, c.scanner.peek.1.pos,
      .lexical c.scanner.peek.1.text⟩ ⟨c.scanner.peek.2.next.2, c.consumed + 1⟩ := by
  rw [peek_eq, if_pos h, next_eq, c.next_peek, if_pos h]

/-- The token taken is the next one. -/
theorem of_next_eq_ok {t : Token} (h : next c = .ok t d) : c.scanner.peek.1 = t := by
  rw [next_eq] at h
  split at h
  · cases h
  · rw [← c.scanner.next_fst]
    exact (EStateM.Result.ok.inj h).1

/-- The token looked at is the next one, and stays. -/
theorem of_peek_eq_ok {t : Token} (h : peek c = .ok t d) :
    c.scanner.peek.1 = t ∧ d.scanner.peek.1 = t := by
  by_cases herror : c.scanner.peek.1.kind = .error
  · rw [peek_of_error herror] at h
    cases h
  · rw [peek_of_kind herror] at h
    obtain ⟨rfl, rfl⟩ := EStateM.Result.ok.inj h
    exact ⟨rfl, by rw [Scanner.peek_peek]⟩

/-- Looking at the end leaves the reader there. -/
theorem finished_of_peek_eq_ok {t : Token} (h : peek c = .ok t d) (ht : t.kind = .eof) :
    d.Finished := by
  by_cases herror : c.scanner.peek.1.kind = .error
  · rw [peek_of_error herror] at h
    cases h
  · rw [peek_of_kind herror] at h
    obtain ⟨rfl, rfl⟩ := EStateM.Result.ok.inj h
    obtain ⟨x, hx, htoken⟩ := c.scanner.held_peek
    exact ⟨x, hx, by rw [htoken, ht]⟩

/-- What taking a token keeps is kept by skipping the rest of a bad matrix. -/
theorem skipMatrixWithin_keeps {I : Cursor → Prop}
    (hnext : ∀ c, I c → I ⟨c.scanner.next.2, c.consumed + 1⟩) (tokens depth : Nat) (h : I c) :
    I (skipMatrixWithin tokens depth c) := by
  induction tokens generalizing depth c with
  | zero => exact h
  | succ tokens ih =>
    cases depth with
    | zero => exact h
    | succ depth =>
      have hafter := hnext c h
      rw [skipMatrixWithin]
      dsimp only
      split
      · exact hafter
      · split
        · exact ih (depth + 2) hafter
        · split
          · exact ih depth hafter
          · exact ih (depth + 1) hafter

end Parse

namespace Cursor

open Parse

variable {c : Cursor}

/-- At the end the end is taken. -/
theorem Finished.next (h : c.Finished) : ∃ t d, Parse.next c = .ok t d ∧ t.kind = .eof := by
  obtain ⟨x, hx, hkind⟩ := h
  refine ⟨x.token, ⟨{ c.scanner with held := none }, c.consumed + 1⟩, ?_, hkind⟩
  rw [next_eq, Scanner.next_of_held hx, if_neg (by rw [hkind]; decide)]

/-- At the end the end is looked at. -/
theorem Finished.peek (h : c.Finished) : ∃ t, Parse.peek c = .ok t c ∧ t.kind = .eof := by
  obtain ⟨x, hx, hkind⟩ := h
  refine ⟨x.token, ?_, hkind⟩
  rw [peek_eq, Scanner.peek_of_held hx, if_neg (by rw [hkind]; decide)]

end Cursor

namespace Parse

variable {α : Type} {c : Cursor}

/-- A certain token is not found at the end. -/
theorem need_fails {kind : Kind} (hkind : kind ≠ .eof) (text : Text) (h : c.Finished) :
    Fails (need kind text c) := by
  obtain ⟨t, d, hok, hend⟩ := h.next
  refine fails_bind_of_ok hok ?_
  rw [if_neg (by simp [hend, Ne.symm hkind])]
  exact ⟨_, _, rfl⟩

/-- Nothing is found at the end by a reader that is out of rounds. -/
theorem exhausted_fails (h : c.Finished) : Fails ((exhausted : Parse α) c) := by
  obtain ⟨t, hok, -⟩ := h.peek
  exact fails_bind_of_ok hok ⟨_, _, rfl⟩

/-- There is no statement at the end. -/
theorem statementWithin_fails {M : Type} [Numeric M] (n : Nat) (alone : Bool) (h : c.Finished) :
    Fails (statementWithin (M := M) n alone c) := by
  cases n with
  | zero => exact exhausted_fails h
  | succ n =>
    obtain ⟨t, d, hok, hend⟩ := h.next
    refine fails_bind_of_ok hok ?_
    rw [if_pos hend]
    exact ⟨_, _, rfl⟩

end Parse

end SymCalc
