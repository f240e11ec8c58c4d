import Mathlib
import SymCalc.Proofs.Scanning

/-!
# Reading in step

Two readers of programs are kept in step: one reads a source, the other one the source that an
offset makes of it, further down or with further lines after its end. As long as the first reader
has not come to the end of its source, both find the same tokens, the second one further down.
-/

namespace SymCalc

namespace Cursor

/-- A bound on the tokens that a cursor may still take, the end of the input apart. -/
def budget (c : Cursor) : Nat :=
  c.scanner.source.rest.length +
    match c.scanner.held with
    | some x => if x.token.kind = .eof then 0 else 1
    | none => 0

/-- The token looked at, if there is one, does not stand on a later line. -/
def Clean (c : Cursor) : Prop :=
  ∀ x ∈ c.scanner.held, x.token.kind = .eof ∨ x.newline = false

/-- A cursor that has not looked ahead is clean. -/
theorem clean_of_held_none {c : Cursor} (h : c.scanner.held = none) : c.Clean := by
  intro x hx
  rw [h] at hx
  cases hx

end Cursor

namespace Offset

variable (o : Offset)

/-- A cursor on the first of two sources, which logs nothing unless it may. -/
structure Tame (c : Cursor) : Prop where
  /-- The source gets lines, if it asks for lines. -/
  lined : c.scanner.source.Lined
  /-- Tokens are not logged. -/
  quiet : o.loud = false → c.scanner.logTokens = false
  /-- Nothing has been logged. -/
  log : o.loud = false → c.scanner.log = ""
  /-- The input has its name. -/
  name : c.scanner.name = o.name
  /-- The characters still to come lead to the end of the source. -/
  stop : c.scanner.source.pos.advanceAll c.scanner.source.rest = o.stop
  /-- When the end has been looked at, nothing is left, and the end is where reading stands. -/
  ended : ∀ x ∈ c.scanner.held, x.token.kind = .eof →
    c.scanner.source.rest = [] ∧ x.token = ⟨.eof, "EOF", c.scanner.source.pos⟩

/-- The cursor on the second source. -/
def cursor (c : Cursor) : Cursor where
  scanner := {
    source := o.source c.scanner.source
    name := c.scanner.name
    held := c.scanner.held.map (Scanned.relabel o.place) }
  consumed := c.consumed + o.tokens

/-- The first token of the lines with which the second source goes on, and what comes after it. -/
def beyond (cs : List Char) : Scanned × Source :=
  Source.scan { chars := cs, pos := (o.place o.stop).nextLine }

/-- Two cursors stand at the same place of two sources, or the first one has looked at the end of
its source and the second one at the first token beyond. -/
inductive Linked : Cursor → Cursor → Prop where
  | level {c : Cursor} (tame : o.Tame c) (more : o.more ≠ none → ¬c.Finished) :
      Linked c (o.cursor c)
  | past {c : Cursor} {cs : List Char} (tame : o.Tame c) (more : o.more = some cs)
      (ended : c.Finished) :
      Linked c ⟨{
        source := (o.beyond cs).2
        name := c.scanner.name
        held := some ⟨(o.beyond cs).1.token, true⟩ }, c.consumed + o.tokens⟩

variable {o} {c d : Cursor}

/-- A linked cursor is tame. -/
theorem Linked.tame (h : o.Linked c d) : o.Tame c := by
  cases h with
  | level tame => exact tame
  | past tame => exact tame

/-- The second of two linked cursors has read so many more tokens. -/
theorem Linked.consumed (h : o.Linked c d) : d.consumed = c.consumed + o.tokens := by
  cases h <;> rfl

/-- Without further lines the first cursor determines the second one. -/
theorem linked_iff (hmore : o.more = none) : o.Linked c d ↔ o.Tame c ∧ d = o.cursor c := by
  constructor
  · intro h
    cases h with
    | level tame => exact ⟨tame, rfl⟩
    | past _ more =>
      rw [hmore] at more
      cases more
  · rintro ⟨tame, rfl⟩
    exact .level tame fun h => absurd hmore h

/-- How many tokens have been read does not matter for where cursors stand. -/
theorem Linked.withConsumed (h : o.Linked c d) (n : Nat) :
    o.Linked ⟨c.scanner, n⟩ ⟨d.scanner, n + o.tokens⟩ := by
  have htame : o.Tame ⟨c.scanner, n⟩ :=
    ⟨h.tame.lined, h.tame.quiet, h.tame.log, h.tame.name, h.tame.stop, h.tame.ended⟩
  cases h with
  | level _ more => exact .level htame more
  | past _ more ended => exact .past htame more ended

/-- The cursor after characters were taken from the source and no token is looked at. -/
theorem Tame.advance (h : o.Tame c) {source : Source} {taken : List Char} (hlined : source.Lined)
    (hrest : c.scanner.source.rest = taken ++ source.rest)
    (hpos : source.pos = c.scanner.source.pos.advanceAll taken) (held : Option Scanned)
    (hheld : ∀ x ∈ held, x.token.kind = .eof →
      source.rest = [] ∧ x.token = ⟨.eof, "EOF", source.pos⟩) {log : Text}
    (hlog : o.loud = false → log = "") (n : Nat) :
    o.Tame ⟨{ c.scanner with source := source, held := held, log := log }, n⟩ := by
  refine ⟨hlined, h.quiet, hlog, h.name, ?_, hheld⟩
  rw [← h.stop, hrest, Position.advanceAll_append, ← hpos]

end Offset

/-- Taking a token other than the end lowers the bound. -/
theorem Cursor.budget_next_lt (c : Cursor) (hs : c.scanner.source.Lined) (n : Nat)
    (hkind : c.scanner.next.1.kind ≠ .eof) : budget ⟨c.scanner.next.2, n⟩ < c.budget := by
  cases hheld : c.scanner.held with
  | none =>
    obtain ⟨taken, hrest, -, hne, -⟩ := Source.scan_split hs
    rw [Scanner.next_of_held_none hheld] at hkind ⊢
    have hlength := congrArg List.length hrest
    have hpositive := List.length_pos_iff.mpr (hne hkind)
    simp only [budget, hheld, List.length_append] at hlength ⊢
    omega
  | some x =>
    rw [Scanner.next_of_held hheld] at hkind ⊢
    simp only [budget, hheld, if_neg hkind]
    omega

namespace Offset

section Primitives

variable {o : Offset} {c d : Cursor}

/-- Reading a token logs nothing, unless the cursor may. -/
theorem Tame.log_scan (h : o.Tame c) (hloud : o.loud = false) : c.scanner.scan.2.log = "" :=
  (c.scanner.scan_eq.2 (h.quiet hloud)).trans (h.log hloud)

/-- The second cursor logs nothing. -/
theorem log_scan_cursor (c : Cursor) : (o.cursor c).scanner.scan.2.log = "" :=
  (o.cursor c).scanner.scan_eq.2 rfl

/-- Taking a token uses up the bound. -/
theorem Tame.next (h : o.Tame c) (n : Nat) :
    o.Tame ⟨c.scanner.next.2, n⟩ ∧ c.scanner.next.2.held = none ∧
      Cursor.budget ⟨c.scanner.next.2, n⟩ ≤ c.budget - 1 ∧
      (c.scanner.next.1.kind ≠ .eof → Cursor.budget ⟨c.scanner.next.2, n⟩ < c.budget) := by
  have hless := c.budget_next_lt h.lined n
  cases hheld : c.scanner.held with
  | none =>
    obtain ⟨taken, hrest, hpos, -, hend⟩ := Source.scan_split h.lined
    rw [Scanner.next_of_held_none hheld] at hless ⊢
    refine ⟨h.advance (Source.scan_flat h.lined).2 hrest hpos none (fun _ hx => nomatch hx)
      h.log_scan n, rfl, ?_, hless⟩
    by_cases hkind : c.scanner.source.scan.1.token.kind = .eof
    · simp [Cursor.budget, (hend hkind).1]
    · exact Nat.le_sub_one_of_lt (hless hkind)
  | some x =>
    rw [Scanner.next_of_held hheld] at hless ⊢
    refine ⟨h.advance h.lined (List.nil_append _).symm rfl none (fun _ hx => nomatch hx) h.log n,
      rfl, ?_, hless⟩
    by_cases hkind : x.token.kind = .eof
    · simp [Cursor.budget, (h.ended x hheld hkind).1]
    · exact Nat.le_sub_one_of_lt (hless hkind)

/-- Taking a token in step. -/
theorem Linked.next (h : o.Linked c d) (n : Nat) :
    (d.scanner.next.1 = c.scanner.next.1.relabel o.place ∧
        (⟨d.scanner.next.2, n + o.tokens⟩ : Cursor) = o.cursor ⟨c.scanner.next.2, n⟩ ∧
        (o.more ≠ none → c.scanner.next.1.kind ≠ .eof)) ∨
      (o.more ≠ none ∧ (c.scanner.next.1.kind = .eof ∨ c.scanner.next.1.kind = .error)) := by
  cases h with
  | past tame more ended =>
    obtain ⟨x, hheld, hkind⟩ := ended
    rw [Scanner.next_of_held hheld]
    exact .inr ⟨by rw [more]; exact nofun, .inl hkind⟩
  | level tame more =>
    cases hheld : c.scanner.held with
    | some x =>
      have hsecond : (o.cursor c).scanner.held = some (x.relabel o.place) := by
        simp [cursor, hheld]
      rw [Scanner.next_of_held hheld, Scanner.next_of_held hsecond]
      exact .inl ⟨rfl, rfl, fun hmore hkind => more hmore ⟨x, hheld, hkind⟩⟩
    | none =>
      have hsecond : (o.cursor c).scanner.held = none := by simp [cursor, hheld]
      rw [Scanner.next_of_held_none hheld, Scanner.next_of_held_none hsecond, log_scan_cursor]
      rcases o.scan_source tame.lined with ⟨hscan, hkind⟩ | ⟨hmore, hkind⟩ | ⟨cs, hmore, hkind, -⟩
      · have hsource : (o.cursor c).scanner.source.scan = _ := hscan
        rw [hsource]
        exact .inl ⟨rfl, rfl, hkind⟩
      · exact .inr ⟨hmore, .inr hkind⟩
      · exact .inr ⟨by rw [hmore]; exact nofun, .inl hkind⟩

/-- Looking at a token keeps a cursor tame and the bound. -/
theorem Tame.peek (h : o.Tame c) (n : Nat) :
    o.Tame ⟨c.scanner.peek.2, n⟩ ∧ Cursor.budget ⟨c.scanner.peek.2, n⟩ ≤ c.budget := by
  cases hheld : c.scanner.held with
  | some x =>
    rw [Scanner.peek_of_held hheld]
    exact ⟨⟨h.lined, h.quiet, h.log, h.name, h.stop, h.ended⟩, Nat.le_refl _⟩
  | none =>
    obtain ⟨taken, hrest, hpos, hne, hend⟩ := Source.scan_split h.lined
    have hlength := congrArg List.length hrest
    have hbefore : c.budget = c.scanner.source.rest.length := by simp [Cursor.budget, hheld]
    rw [Scanner.peek_of_held_none hheld, hbefore]
    refine ⟨h.advance (Source.scan_flat h.lined).2 hrest hpos _ ?_ h.log_scan n, ?_⟩
    · intro x hx
      cases hx
      exact hend
    · simp only [Cursor.budget, List.length_append] at hlength ⊢
      by_cases hkind : c.scanner.source.scan.1.token.kind = .eof
      · simp only [hkind, if_true]
        omega
      · have hpositive := List.length_pos_iff.mpr (hne hkind)
        simp only [hkind, if_false]
        omega

/-- Looking at a token in step. -/
theorem Linked.peek (h : o.Linked c d) (n : Nat) :
    (d.scanner.peek.1 = c.scanner.peek.1.relabel o.place ∧
        o.Linked ⟨c.scanner.peek.2, n⟩ ⟨d.scanner.peek.2, n + o.tokens⟩ ∧
        (o.more ≠ none → c.scanner.peek.1.kind ≠ .eof)) ∨
      (o.more ≠ none ∧ c.scanner.peek.1.kind = .error) ∨
      (o.more ≠ none ∧ c.scanner.peek.1.kind = .eof ∧
        o.Linked ⟨c.scanner.peek.2, n⟩ ⟨d.scanner.peek.2, n + o.tokens⟩) := by
  have htame := (h.tame.peek n).1
  cases h with
  | past tame more ended =>
    obtain ⟨x, hheld, hkind⟩ := ended
    rw [Scanner.peek_of_held hheld] at htame ⊢
    exact .inr (.inr ⟨by rw [more]; exact nofun, hkind, .past htame more ⟨x, hheld, hkind⟩⟩)
  | level tame more =>
    cases hheld : c.scanner.held with
    | some x =>
      have hsecond : (o.cursor c).scanner.held = some (x.relabel o.place) := by
        simp [cursor, hheld]
      rw [Scanner.peek_of_held hheld] at htame
      rw [Scanner.peek_of_held hheld, Scanner.peek_of_held hsecond]
      exact .inl ⟨rfl, .level htame more, fun hmore hkind => more hmore ⟨x, hheld, hkind⟩⟩
    | none =>
      have hsecond : (o.cursor c).scanner.held = none := by simp [cursor, hheld]
      rw [Scanner.peek_of_held_none hheld] at htame
      rw [Scanner.peek_of_held_none hheld, Scanner.peek_of_held_none hsecond, log_scan_cursor]
      rcases o.scan_source tame.lined with ⟨hscan, hkind⟩ | ⟨hmore, hkind⟩ | ⟨cs, hmore, hkind, hscan⟩
      · have hsource : (o.cursor c).scanner.source.scan = _ := hscan
        rw [hsource]
        refine .inl ⟨rfl, .level htame fun hmore => ?_, hkind⟩
        rintro ⟨x, hx, heof⟩
        cases hx
        exact hkind hmore heof
      · exact .inr (.inl ⟨hmore, hkind⟩)
      · have hsource : (o.cursor c).scanner.source.scan = _ := hscan
        rw [tame.stop] at hsource
        rw [hsource]
        exact .inr (.inr ⟨by rw [hmore]; exact nofun, hkind, .past htame hmore ⟨_, rfl, hkind⟩⟩)

/-- Looking for the end of the line in step. -/
theorem Linked.atEndOfLine (h : o.Linked c d) (n : Nat) :
    d.scanner.atEndOfLine.1 = c.scanner.atEndOfLine.1 ∧
      o.Linked ⟨c.scanner.atEndOfLine.2, n⟩ ⟨d.scanner.atEndOfLine.2, n + o.tokens⟩ ∧
      Cursor.budget ⟨c.scanner.atEndOfLine.2, n⟩ ≤ c.budget := by
  cases hheld : c.scanner.held with
  | some x =>
    have hleft : c.scanner.atEndOfLine = (decide (x.token.kind = .eof) || x.newline, c.scanner) := by
      rw [Scanner.atEndOfLine, hheld]
    have hboth : d.scanner.atEndOfLine = (c.scanner.atEndOfLine.1, d.scanner) := by
      rw [hleft]
      cases h with
      | level =>
        simp only [Scanner.atEndOfLine, cursor, hheld, Option.map_some]
        rfl
      | past _ _ ended =>
        obtain ⟨y, hy, hkind⟩ := ended
        cases hheld.symm.trans hy
        simp [Scanner.atEndOfLine, hkind]
    rw [hboth, hleft]
    exact ⟨rfl, h.withConsumed n, Nat.le_refl _⟩
  | none =>
    have hlined := h.tame.lined
    obtain ⟨hlined', taken, hrest, hpos⟩ := Source.lineEnd_split hlined
    have hleft := Scanner.atEndOfLine_of_held_none hheld
    have htame := h.tame.advance hlined' hrest hpos none
      (fun x hx => absurd hx (Option.not_mem_none x)) h.tame.log n
    rw [← hheld] at htame
    cases h with
    | past _ _ ended =>
      obtain ⟨x, hx, -⟩ := ended
      cases hheld.symm.trans hx
    | level tame more =>
      have hsecond : (o.cursor c).scanner.held = none := by simp [cursor, hheld]
      have hsource : (o.cursor c).scanner.source.lineEnd = _ := o.lineEnd_source hlined
      rw [hleft, Scanner.atEndOfLine_of_held_none hsecond, hsource]
      refine ⟨rfl, .level htame more, ?_⟩
      have hlength := congrArg List.length hrest
      simp only [Cursor.budget, hheld, List.length_append] at hlength ⊢
      omega

end Primitives

end Offset

end SymCalc
