import Mathlib
import SymCalc.Proofs.Readers
import SymCalc.Proofs.Words

/-!
# What readers read

A reader yields a result from words when, at every cursor that has these words still to read,
it succeeds, leaves the cursor before the words that follow, and the result is as described.
Unlike an invariant this says that the reader does not fail. Main statements: the rules for
readers one after the other, and what the readers of single tokens yield.
-/

namespace SymCalc

/-- Whether a binary operator comes next on the line. The backquote is none. -/
def startsOperator : List Word → Bool
  | [] => false
  | w :: _ => !w.newline && (w.kind = .operator && w.text ≠ "`")

/-- Whether an opening parenthesis comes next on the line. -/
def startsCall : List Word → Bool
  | [] => false
  | w :: _ => !w.newline && (w.kind = .punctuation && w.text = "(")

/-- Words after which a statement does not go on. -/
structure Stops (ws : List Word) : Prop where
  /-- No operator comes next on the line. -/
  operator : startsOperator ws = false
  /-- No opening parenthesis comes next on the line. -/
  call : startsCall ws = false

namespace Parse

variable {α β : Type} {ws vs us : List Word} {w : Word} {Q : α → Prop} {R : β → Prop}

/-- Before the words `ws` the reader ends as described. -/
def Meets (p : Parse α) (ws : List Word) (E : EStateM.Result SyntaxError Cursor α → Prop) : Prop :=
  ∀ c : Cursor, c.scanner.Reads ws → E (p c)

/-- A reader has succeeded and left the words `vs`, with a result that has the property `Q`. -/
def Succeeds (vs : List Word) (Q : α → Prop) (r : EStateM.Result SyntaxError Cursor α) : Prop :=
  ∃ a d, r = .ok a d ∧ d.scanner.Reads vs ∧ Q a

/-- Before the words `ws` the reader succeeds and leaves the words `vs`, with a result that has
the property `Q`. -/
abbrev Yields (p : Parse α) (ws vs : List Word) (Q : α → Prop) : Prop := Meets p ws (Succeeds vs Q)

namespace Meets

variable {E : EStateM.Result SyntaxError Cursor α → Prop}

/-- A result at hand is what it is. -/
theorem pure {a : α} (h : ∀ c : Cursor, c.scanner.Reads ws → E (.ok a c)) :
    Meets (Pure.pure a) ws E :=
  h

/-- A choice whose condition holds. -/
theorem ite_pos {c : Prop} [Decidable c] {p q : Parse α} (hc : c) (hp : Meets p ws E) :
    Meets (if c then p else q) ws E := by
  rw [if_pos hc]
  exact hp

/-- A choice whose condition does not hold. -/
theorem ite_neg {c : Prop} [Decidable c] {p q : Parse α} (hc : ¬c) (hq : Meets q ws E) :
    Meets (if c then p else q) ws E := by
  rw [if_neg hc]
  exact hq

/-- Readers one after the other may be grouped. -/
theorem assoc {γ : Type} {E : EStateM.Result SyntaxError Cursor γ → Prop} {p : Parse α}
    {k : α → Parse β} {l : β → Parse γ} (h : Meets ((p >>= k) >>= l) ws E) :
    Meets (p >>= fun a => k a >>= l) ws E := by
  rw [← bind_assoc]
  exact h

/-- A reader fails if the first of its parts does. -/
theorem bind_fails {p : Parse α} {k : α → Parse β} (h : Meets p ws Fails) :
    Meets (p >>= k) ws Fails := by
  intro c hc
  exact (h c hc).bind

end Meets

namespace Yields

/-- A result at hand is yielded without reading. -/
theorem pure {a : α} (h : Q a) : Yields (Pure.pure a) ws ws Q :=
  fun c hc => ⟨a, c, rfl, hc, h⟩

/-- A reader after another reads what the first has left. -/
theorem bind {E : EStateM.Result SyntaxError Cursor β → Prop} {p : Parse α} {k : α → Parse β}
    (hp : Yields p ws vs Q) (hk : ∀ a, Q a → Meets (k a) vs E) : Meets (p >>= k) ws E := by
  intro c hc
  obtain ⟨a, d, hpc, hd, ha⟩ := hp c hc
  change E (EStateM.bind p k c)
  rw [EStateM.bind, hpc]
  exact hk a ha d hd

/-- Less may be said of the result. -/
theorem mono {Q' : α → Prop} {p : Parse α} (hp : Yields p ws vs Q) (h : ∀ a, Q a → Q' a) :
    Yields p ws vs Q' := by
  intro c hc
  obtain ⟨a, d, hpc, hd, ha⟩ := hp c hc
  exact ⟨a, d, hpc, hd, h a ha⟩

end Yields

/-- Taking a word, which is not the end of the input. -/
theorem next_yields_word : Yields next (w :: ws) ws (fun t => t.Is w ∧ t.kind ≠ .eof) := by
  intro c hc
  obtain ⟨htoken, heof, herror, hrest⟩ := hc.next_cons
  rw [← htoken.kind] at heof herror
  refine ⟨c.scanner.next.1, ⟨c.scanner.next.2, c.consumed + 1⟩, ?_, hrest, htoken, heof⟩
  unfold next
  dsimp only
  rw [if_neg herror]

/-- Taking a word. -/
theorem next_yields : Yields next (w :: ws) ws (·.Is w) :=
  next_yields_word.mono fun _ h => h.1

/-- Looking at a word, which is not the end of the input. -/
theorem peek_yields_word : Yields peek (w :: ws) (w :: ws) (fun t => t.Is w ∧ t.kind ≠ .eof) := by
  intro c hc
  obtain ⟨htoken, heof, herror, hrest⟩ := hc.peek_cons
  rw [← htoken.kind] at heof herror
  refine ⟨c.scanner.peek.1, { c with scanner := c.scanner.peek.2 }, ?_, hrest, htoken, heof⟩
  unfold peek
  dsimp only
  rw [if_neg herror]

/-- Looking at a word. -/
theorem peek_yields : Yields peek (w :: ws) (w :: ws) (·.Is w) :=
  peek_yields_word.mono fun _ h => h.1

/-- Looking for the end of the line. -/
theorem atEndOfLine_yields : Yields atEndOfLine ws ws (· = endsLine ws) := by
  intro c hc
  obtain ⟨hends, hrest⟩ := hc.atEndOfLine
  exact ⟨c.scanner.atEndOfLine.1, { c with scanner := c.scanner.atEndOfLine.2 }, rfl, hrest, hends⟩

/-- Taking a word that is needed. -/
theorem need_yields {kind : Kind} {text : Text} (hkind : w.kind = kind) (htext : w.text = text) :
    Yields (need kind text) (w :: ws) ws (fun _ => True) := by
  refine next_yields.bind fun token ht => Meets.ite_pos ?_ (Yields.pure trivial)
  rw [ht.kind, ht.text, hkind, htext]
  simp

/-- Looking whether a word of some sort follows on the line. -/
theorem follows_yields {test : Token → Bool} (sort : Word → Bool)
    (htest : ∀ token w, token.Is w → test token = sort w) :
    Yields (follows test) ws ws (· = (!endsLine ws && (ws.head?.map sort).getD false)) := by
  refine atEndOfLine_yields.bind fun ends hends => ?_
  cases ws with
  | nil => exact Meets.ite_pos hends (Yields.pure rfl)
  | cons w ws =>
    by_cases hnew : w.newline = true
    · refine Meets.ite_pos (hends.trans hnew) (Yields.pure ?_)
      simp [endsLine, hnew]
    · refine Meets.ite_neg (by rw [hends]; exact hnew) ?_
      refine peek_yields.bind fun token ht => Yields.pure ?_
      rw [Bool.not_eq_true] at hnew
      simp [endsLine, hnew, htest token w ht]

/-- Looking for an operator. -/
theorem operatorFollows_yields : Yields operatorFollows ws ws (· = startsOperator ws) := by
  refine (follows_yields (fun w => w.kind = .operator && w.text ≠ "`") ?_).mono ?_
  · intro token w ht
    rw [ht.kind, ht.text]
  · rintro b rfl
    cases ws <;> rfl

/-- Looking for an opening parenthesis. -/
theorem callFollows_yields : Yields callFollows ws ws (· = startsCall ws) := by
  refine (follows_yields (fun w => w.kind = .punctuation && w.text = "(") ?_).mono ?_
  · intro token w ht
    rw [Token.isPunct, ht.kind, ht.text]
  · rintro b rfl
    cases ws <;> rfl

end Parse

end SymCalc
