import Mathlib
import SymCalc.Proofs.Magnitude
import SymCalc.Proofs.Printing
import SymCalc.Proofs.WellFormedPrograms

/-!
# Printed programs are read back

A program that was read and is printed is read again, with the same statements up to positions
and up to parentheses around a single item. Main statement: `printed_program_reads_back`.
-/

namespace SymCalc

/-- The digits of a natural number are read as the number. -/
theorem read?_digits (k : Nat) : Numeric.read? (Text.ofString (toString k)) = some (k : ℚ) := by
  have hchars : (Text.ofString (toString k)).chars = Nat.toDigits 10 k := by
    rw [Text.ofString_eq_ofChars, Text.chars_ofChars]
    exact Nat.toList_repr
  have hdigits : ∀ c ∈ Nat.toDigits 10 k, c.isDigit = true := fun c hc =>
    Nat.isDigit_of_mem_toDigits (by decide) (by decide) hc
  simp only [Numeric.read?, hchars, List.takeWhile_eq_self_iff.mpr hdigits,
    List.dropWhile_eq_nil_iff.mpr hdigits, Nat.ofDigitChars_ten_toDigits]

/-- A rational number that is written as a numeral is read back. -/
theorem read?_write {m : ℚ} (h : IsNumeral (Numeric.write m)) :
    Numeric.read? (Numeric.write m) = some m := by
  have hchar {s : String} (hs : IsNumeral (Text.ofString s)) {c : Char} (hc : c ∈ s.toList) :
      c.isDigit = true ∨ c = '.' := by
    refine hs.isDigit_or_point c ?_
    rw [Text.ofString_eq_ofChars, Text.chars_ofChars]
    exact hc
  by_cases hden : m.den = 1
  · have hwrite : Numeric.write m = Text.ofString (toString m.num) := if_pos hden
    rw [hwrite] at h ⊢
    cases hnum : m.num with
    | ofNat k =>
      have hvalue : m = (k : ℚ) := by
        rw [← Rat.num_div_den m, hden, hnum]
        simp
      rw [hvalue]
      exact read?_digits k
    | negSucc k =>
      rw [hnum] at h
      have hsign : '-' ∈ (toString (Int.negSucc k)).toList := by
        change '-' ∈ ("-" ++ toString (k + 1)).toList
        simp
      exact absurd (hchar h hsign) (by decide)
  · have hwrite : Numeric.write m = Text.ofString (toString m.num ++ "/" ++ toString m.den) :=
      if_neg hden
    rw [hwrite] at h
    have hbar : '/' ∈ (toString m.num ++ "/" ++ toString m.den).toList := by simp
    exact absurd (hchar h hbar) (by decide)

/-- Rational numbers are read back where they are printed as plain numbers. -/
theorem readsBack_rat : Numeric.ReadsBack ℚ := by
  refine ⟨by decide, by decide, fun {t m} _ _ hnumeral => ?_⟩
  have htext : (Constant.scalar (.number m) : Constant ℚ).text =
      if m = 0 then Text.ofString "0" else Numeric.write m := by
    change Term.assemble Numeric.write m false [] = _
    rw [Term.assemble]
    by_cases hm : m = 0
    · simp [hm, Magnitude.isZero]
    · simp [hm, Magnitude.isZero]
  rw [htext] at hnumeral ⊢
  by_cases hm : m = 0
  · rw [if_pos hm, hm]
    exact read?_digits 0
  · rw [if_neg hm] at hnumeral ⊢
    exact read?_write hnumeral

variable {M : Type} [Numeric M]

/-- Words that start on a new line do not go on with a statement. -/
theorem stops_of_newline {w : Word} {ws : List Word} (h : w.newline = true) : Stops (w :: ws) :=
  ⟨by simp [startsOperator, h], by simp [startsCall, h]⟩

/-- Statements with a newline between them are written as the phrases of a program. -/
theorem exists_phrases {es : List (Expr M)} (h : ∀ e ∈ es, ∀ n, Spelled .whole n e.source e)
    (n : Bool) :
    ∃ cs ws m, ∃ pieces : List (List Word × Expr M),
      Text.join "\n" (es.map Expr.source) = Text.ofChars cs ∧ Spans n cs ws m ∧
        (n = true → Stops ws) ∧ Phrases pieces ws ∧
        (pieces.map (·.2)).map Expr.unwrap = es.map Expr.plain := by
  induction es generalizing n with
  | nil => exact ⟨[], [], n, [], rfl, ⟨List.not_mem_nil, .nil n⟩, fun _ => ⟨rfl, rfl⟩, .nil, rfl⟩
  | cons e es ih =>
    obtain ⟨he, hes⟩ := List.forall_mem_cons.mp h
    obtain ⟨ws, tree, ⟨cs, htext, hspans, w, us, rfl, hw⟩, hphrase, hsame⟩ := he n
    have hstops (vs : List Word) (hn : n = true) : Stops (w :: us ++ vs) :=
      stops_of_newline (hw.trans hn)
    cases es with
    | nil =>
      have hone : Phrases [(w :: us, tree)] (w :: us ++ []) := .cons hphrase ⟨rfl, rfl⟩ .nil
      refine ⟨cs, w :: us ++ [], false, [(w :: us, tree)], htext, ?_, hstops [], hone, ?_⟩
      · rw [List.append_nil]
        exact hspans
      · rw [List.map_singleton, List.map_singleton, List.map_singleton, hsame]
    | cons e' es =>
      obtain ⟨ds, vs, m, pieces, htext', hspans', hstops', hphrases, hsame'⟩ := ih hes true
      have hbreaks : Breaks ('\n' :: ds) := by
        rintro c ⟨⟩
        decide
      refine ⟨cs ++ '\n' :: ds, w :: us ++ vs, m, (w :: us, tree) :: pieces, ?_,
        hspans.append hbreaks hspans'.newline, hstops vs, .cons hphrase (hstops' rfl) hphrases, ?_⟩
      · rw [List.map_cons, Text.join_cons _ _ (by simp), htext', htext, Text.ofString_eq_ofChars,
          ← Text.ofChars_append, ← Text.ofChars_append, List.append_assoc]
        rfl
      · rw [List.map_cons, List.map_cons, List.map_cons, hsame, hsame']

/-- Printing then reading a program gives the program back. Of any program that was read,
from a text or line by line, with numbers that are printed plainly, without declarations and
without operations on a condition, a function or a return statement, the text is read, under any
settings, as the same statements up to positions and up to lists with one item. -/
theorem printed_program_reads_back (hback : Numeric.ReadsBack M) {settings : Settings}
    {name : Text} {input : Source} {es : List (Expr M)}
    (hread : ((Cursor.start settings name input).program settings).1 = .ok es)
    (hprint : ∀ e ∈ es, e.Everywhere Expr.PrintableNode) (pos : Position)
    (settings' : Settings) (name' : Text) :
    ∃ es' : List (Expr M),
      ((Cursor.start settings' name' (.ofText (Expr.program pos es).source)).program
        settings').1 = .ok es' ∧ es'.map Expr.plain = es.map Expr.plain := by
  have hwell := Cursor.program_wellFormed settings (Cursor.start_sound settings name input) hread
  have hspelled : ∀ e ∈ es, ∀ n, Spelled .whole n e.source e := fun e he =>
    (Expr.source_prints hback e (hwell e he) (hprint e he)).whole
  obtain ⟨cs, ws, m, pieces, htext, hspans, -, hphrases, hsame⟩ := exists_phrases hspelled false
  obtain ⟨es', hok, htrees⟩ := Cursor.program_reads settings' hphrases
    (Cursor.start_reads settings' name' hspans.clean hspans.scans)
  refine ⟨es', ?_, ?_⟩
  · rw [Expr.source, Expr.sources_eq_map, htext]
    exact hok
  · calc
      es'.map Expr.plain = (es'.map Expr.bare).map Expr.unwrap := by
        rw [List.map_map]
        rfl
      _ = es.map Expr.plain := by rw [htrees, hsame]

/-- A program with a function, a difference, a matrix and operators of three priorities. -/
def sampleProgram : Text :=
  "f = lambda (x) \x7b x - 1; return [x, `i] \x7d\n-f(2) * (3 + `y) + 5 / 6"

/-- The sample is read as two statements, which are printable, and is read back. -/
theorem printed_sample_reads_back :
    ∃ es : List (Expr ℚ),
      ((Cursor.start {} "sample" (.ofText sampleProgram)).program {}).1 = .ok es ∧
      es.length = 2 ∧ (∀ e ∈ es, e.Everywhere Expr.PrintableNode) ∧
      ∃ es' : List (Expr ℚ),
        ((Cursor.start {} "printed" (.ofText (Expr.program {} es).source)).program {}).1 = .ok es' ∧
          es'.map Expr.plain = es.map Expr.plain := by
  have hsample : (match ((Cursor.start {} "sample" (.ofText sampleProgram)).program {}).1 with
      | .ok es => decide (es.length = 2) && es.all fun e : Expr ℚ =>
          decide (e.Everywhere Expr.PrintableNode)
      | .error _ => false) = true := by
    decide +kernel
  cases hread : ((Cursor.start {} "sample" (.ofText sampleProgram)).program (M := ℚ) {}).1 with
  | error errors =>
    rw [hread] at hsample
    cases hsample
  | ok es =>
    rw [hread] at hsample
    obtain ⟨hlength, hall⟩ := Bool.and_eq_true_iff.mp hsample
    have hprint : ∀ e ∈ es, e.Everywhere Expr.PrintableNode := fun e he =>
      of_decide_eq_true (List.all_eq_true.mp hall e he)
    exact ⟨es, rfl, of_decide_eq_true hlength, hprint,
      printed_program_reads_back readsBack_rat hread hprint {} {} "printed"⟩

end SymCalc
