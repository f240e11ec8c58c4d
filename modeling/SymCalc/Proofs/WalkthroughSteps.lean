import Mathlib
import SymCalc.Walkthrough
import SymCalc.Proofs.Utf8

/-!
# The steps of a walkthrough

A walkthrough is cut after lines, and only where no bracket is open. Main statement: the steps put
together are the text, with its last line ended; each step ends in a line feed; and counted from
the start of its step, brackets are open after every line but the last of the step, and none after
the last, except in the last step of all.
-/

namespace SymCalc

namespace Text

/-- Bytes that end in a line feed and have no other. -/
def IsLine (line : List UInt8) : Prop := ∃ body, newline ∉ body ∧ line = body ++ [newline]

/-- A line is not empty. -/
theorem IsLine.ne_nil {line : List UInt8} (h : IsLine line) : line ≠ [] := by
  obtain ⟨body, -, rfl⟩ := h
  simp

/-- A line is split off from the bytes after it. -/
theorem splitAfterLines_append {line : List UInt8} (h : IsLine line) (rest : List UInt8) :
    splitAfterLines (line ++ rest) = line :: splitAfterLines rest := by
  obtain ⟨body, hbody, rfl⟩ := h
  induction body with
  | nil => rfl
  | cons b body ih =>
    obtain ⟨hb, hbody⟩ := not_or.mp (mt List.mem_cons.mpr hbody)
    rw [List.cons_append, List.cons_append, splitAfterLines, if_neg (Ne.symm hb), ih hbody]

/-- Lines put together are split into these lines again, whatever follows. -/
theorem splitAfterLines_flatten_append {lines : List (List UInt8)}
    (h : ∀ line ∈ lines, IsLine line) (rest : List UInt8) :
    splitAfterLines (lines.flatten ++ rest) = lines ++ splitAfterLines rest := by
  induction lines with
  | nil => rfl
  | cons line lines ih =>
    obtain ⟨hline, hlines⟩ := List.forall_mem_cons.mp h
    rw [List.flatten_cons, List.append_assoc, splitAfterLines_append hline, ih hlines,
      List.cons_append]

/-- Lines put together are split into these lines again. -/
theorem splitAfterLines_flatten {lines : List (List UInt8)} (h : ∀ line ∈ lines, IsLine line) :
    splitAfterLines lines.flatten = lines := by
  simpa [splitAfterLines] using splitAfterLines_flatten_append h []

/-- What stands behind the last line feed is a piece of its own. -/
theorem splitAfterLines_of_not_mem {bs : List UInt8} (hne : bs ≠ []) (h : newline ∉ bs) :
    splitAfterLines bs = [bs] := by
  induction bs with
  | nil => exact absurd rfl hne
  | cons b bs ih =>
    obtain ⟨hb, hbs⟩ := not_or.mp (mt List.mem_cons.mpr h)
    rw [splitAfterLines, if_neg (Ne.symm hb)]
    cases bs with
    | nil => rfl
    | cons b' bs => rw [ih (List.cons_ne_nil _ _) hbs]

/-- Bytes are lines, and what stands behind the last of them. -/
theorem exists_lines (bs : List UInt8) : ∃ (lines : List (List UInt8)) (tail : List UInt8),
    (∀ line ∈ lines, IsLine line) ∧ newline ∉ tail ∧ bs = lines.flatten ++ tail := by
  induction bs with
  | nil => exact ⟨[], [], by simp, by simp, rfl⟩
  | cons b bs ih =>
    obtain ⟨lines, tail, hlines, htail, rfl⟩ := ih
    by_cases hb : b = newline
    · refine ⟨[b] :: lines, tail, List.forall_mem_cons.mpr ⟨⟨[], by simp, ?_⟩, hlines⟩, htail, rfl⟩
      rw [hb, List.nil_append]
    · cases lines with
      | nil => exact ⟨[], b :: tail, by simp, by simp [htail, Ne.symm hb], rfl⟩
      | cons line lines =>
        obtain ⟨⟨body, hbody, rfl⟩, hlater⟩ := List.forall_mem_cons.mp hlines
        have hfirst : IsLine (b :: (body ++ [newline])) :=
          ⟨b :: body, by simp [hbody, Ne.symm hb], rfl⟩
        exact ⟨_ :: lines, tail, List.forall_mem_cons.mpr ⟨hfirst, hlater⟩, htail, by simp⟩

/-- A text that ends in a line feed is left as it is. -/
theorem ensureLine_of_endsLine {t : Text} (h : t.endsLine = true) : t.ensureLine = t := if_pos h

/-- Bytes that end in a line feed. -/
theorem endsLine_append_newline (bs : List UInt8) :
    endsLine (ofBytes (bs ++ [newline])) = true := by
  simp [endsLine]

/-- Lines put together end in a line feed. -/
theorem endsLine_flatten {lines : List (List UInt8)} (hne : lines ≠ [])
    (h : ∀ line ∈ lines, IsLine line) : endsLine (ofBytes lines.flatten) = true := by
  obtain ⟨body, -, hlast⟩ := h _ (List.getLast_mem hne)
  rw [← List.dropLast_append_getLast hne, hlast, List.flatten_append]
  simp only [List.flatten_cons, List.flatten_nil, List.append_nil, ← List.append_assoc]
  exact endsLine_append_newline _

end Text

namespace Walkthrough

open Text

/-- The change in the number of open brackets over lines, each counted on its own. -/
def depthOf (lines : List (List UInt8)) : Int := (lines.map nesting).sum

/-- One line more. -/
theorem depthOf_concat (lines : List (List UInt8)) (line : List UInt8) :
    depthOf (lines ++ [line]) = depthOf lines + nesting line := by
  simp [depthOf]

/-- Puts lines together into steps, as lists of lines; the first argument has the lines of the step
that is not yet closed. -/
def gather : (current : List (List UInt8)) → List (List UInt8) → List (List (List UInt8))
  | current, [] => if current.isEmpty then [] else [current]
  | current, line :: lines =>
    if 0 < depthOf (current ++ [line]) then gather (current ++ [line]) lines
    else (current ++ [line]) :: gather [] lines

/-- No line is lost or added. -/
theorem flatten_gather (current lines : List (List UInt8)) :
    (gather current lines).flatten = current ++ lines := by
  fun_induction gather current lines <;> simp_all

/-- A step has lines. -/
theorem ne_nil_of_mem_gather {current lines step : List (List UInt8)}
    (h : step ∈ gather current lines) : step ≠ [] := by
  fun_induction gather current lines with
  | case1 => cases h
  | case2 current hne =>
    obtain rfl := List.mem_singleton.mp h
    simpa using hne
  | case3 current line lines hopen ih => exact ih h
  | case4 current line lines hclosed ih =>
    rcases List.mem_cons.mp h with rfl | hlater
    · simp
    · exact ih hlater

/-- Brackets are open after each of the lines. -/
def StaysOpen (lines : List (List UInt8)) : Prop :=
  ∀ k, 0 < k → k ≤ lines.length → 0 < depthOf (lines.take k)

/-- Without lines there is nothing to be said. -/
theorem staysOpen_nil : StaysOpen [] := fun _ hpos hk => absurd hpos (Nat.not_lt.mpr hk)

/-- Brackets are open after each of the lines but the last. -/
def OpenUntilLast (lines : List (List UInt8)) : Prop :=
  ∀ k, 0 < k → k < lines.length → 0 < depthOf (lines.take k)

/-- Lines after which brackets are open, and one line more. -/
theorem StaysOpen.openUntilLast {lines : List (List UInt8)} (h : StaysOpen lines)
    (line : List UInt8) : OpenUntilLast (lines ++ [line]) := by
  intro k hpos hk
  have hle : k ≤ lines.length := by
    rw [List.length_append, List.length_singleton] at hk
    omega
  rw [List.take_append_of_le_length hle]
  exact h k hpos hle

/-- Brackets are open after all lines if they are after the last, too. -/
theorem OpenUntilLast.staysOpen {lines : List (List UInt8)} (h : OpenUntilLast lines)
    (hopen : 0 < depthOf lines) : StaysOpen lines := by
  intro k hpos hk
  rcases Nat.lt_or_eq_of_le hk with hless | rfl
  · exact h k hpos hless
  · rw [List.take_length]
    exact hopen

/-- A step is not closed before its last line. -/
theorem openUntilLast_of_mem_gather {current lines step : List (List UInt8)}
    (hcurrent : StaysOpen current) (h : step ∈ gather current lines) : OpenUntilLast step := by
  fun_induction gather current lines with
  | case1 => cases h
  | case2 current hne =>
    obtain rfl := List.mem_singleton.mp h
    exact fun k hpos hk => hcurrent k hpos hk.le
  | case3 current line lines hopen ih =>
    exact ih ((hcurrent.openUntilLast line).staysOpen hopen) h
  | case4 current line lines hclosed ih =>
    rcases List.mem_cons.mp h with rfl | hlater
    · exact hcurrent.openUntilLast line
    · exact ih staysOpen_nil hlater

/-- A step before another is closed after its last line. -/
theorem depthOf_le_of_mem_dropLast {current lines step : List (List UInt8)}
    (h : step ∈ (gather current lines).dropLast) : depthOf step ≤ 0 := by
  fun_induction gather current lines with
  | case1 => cases h
  | case2 current hne => cases h
  | case3 current line lines hopen ih => exact ih h
  | case4 current line lines hclosed ih =>
    cases hlater : gather [] lines with
    | nil =>
      rw [hlater] at h
      cases h
    | cons next later =>
      rw [hlater, List.dropLast_cons_cons] at h
      rcases List.mem_cons.mp h with rfl | hmem
      · exact Int.not_lt.mp hclosed
      · exact ih (hlater ▸ hmem)

/-- A step is made of the lines given. -/
theorem mem_of_mem_gather {lines step : List (List UInt8)} (h : step ∈ gather [] lines)
    {line : List UInt8} (hline : line ∈ step) : line ∈ lines := by
  have hflat : line ∈ (gather [] lines).flatten := List.mem_flatten.mpr ⟨step, h, hline⟩
  rwa [flatten_gather] at hflat

/-- The bytes of full lines are put together into steps as the lines are. -/
theorem stepsFrom_eq {current lines : List (List UInt8)} (hcurrent : ∀ line ∈ current, IsLine line)
    (hlines : ∀ line ∈ lines, IsLine line) :
    stepsFrom current.flatten (depthOf current) lines =
      (gather current lines).map fun step => ofBytes step.flatten := by
  fun_induction gather current lines with
  | case1 current hempty =>
    obtain rfl := List.isEmpty_iff.mp hempty
    rfl
  | case2 current hne =>
    have hne : current ≠ [] := by simpa using hne
    have hends := endsLine_flatten hne hcurrent
    have hfull : current.flatten.isEmpty = false := by
      obtain ⟨line, hline⟩ := List.exists_mem_of_ne_nil current hne
      refine List.isEmpty_eq_false_iff.mpr fun hnil => ?_
      exact (hcurrent line hline).ne_nil (List.flatten_eq_nil_iff.mp hnil line hline)
    rw [stepsFrom, hfull, ensureLine_of_endsLine hends]
    rfl
  | case3 current line lines hopen ih =>
    obtain ⟨hline, hlines⟩ := List.forall_mem_cons.mp hlines
    have hboth : ∀ l ∈ current ++ [line], IsLine l :=
      List.forall_mem_append.mpr ⟨hcurrent, List.forall_mem_singleton.mpr hline⟩
    have ih := ih hboth hlines
    rw [List.flatten_append, List.flatten_singleton, depthOf_concat] at ih
    rw [depthOf_concat] at hopen
    rw [stepsFrom, if_pos hopen, ih]
  | case4 current line lines hclosed ih =>
    obtain ⟨hline, hlines⟩ := List.forall_mem_cons.mp hlines
    have hboth : ∀ l ∈ current ++ [line], IsLine l :=
      List.forall_mem_append.mpr ⟨hcurrent, List.forall_mem_singleton.mpr hline⟩
    have hends := endsLine_flatten (by simp) hboth
    have ih := ih (by simp) hlines
    rw [List.flatten_append, List.flatten_singleton] at hends
    rw [depthOf_concat] at hclosed
    rw [stepsFrom, if_neg hclosed, ensureLine_of_endsLine hends, List.map_cons, List.flatten_append,
      List.flatten_singleton, ← ih]
    rfl

/-- A line feed at the end closes and opens nothing. -/
theorem nestingFrom_append_newline (quote : Option Char) (cs : List Char) :
    nestingFrom quote (cs ++ ['\n']) = nestingFrom quote cs := by
  fun_induction nestingFrom quote cs with
  | case1 quote => cases quote <;> rfl
  | case2 quote c cs ih => rw [List.cons_append, nestingFrom, ih]
  | _ => simp_all [nestingFrom]

/-- Ending a line closes and opens nothing. -/
theorem nesting_append_newline (line : List UInt8) :
    nesting (line ++ [newline]) = nesting line := by
  rw [nesting, nesting, decode_append_newline, decode_nil, nestingFrom_append_newline]

/-- A last line that is not ended makes the steps that it would make if it were. -/
theorem stepsFrom_append_newline (current : List UInt8) (depth : Int) (lines : List (List UInt8))
    {tail : List UInt8} (hne : tail ≠ []) (htail : newline ∉ tail) :
    stepsFrom current depth (lines ++ [tail ++ [newline]]) =
      stepsFrom current depth (lines ++ [tail]) := by
  induction lines generalizing current depth with
  | nil =>
    have hlast : (current ++ tail).getLast? ≠ some newline := by
      rw [List.getLast?_append_of_ne_nil _ hne]
      exact fun h => htail (List.mem_of_getLast? h)
    have hadded : (ofBytes (current ++ tail)).ensureLine =
        ofBytes (current ++ (tail ++ [newline])) := by
      rw [ensureLine, if_neg (by simpa [Text.endsLine] using hlast)]
      apply bytes_inj.mp
      simp
    have hkept : (ofBytes (current ++ (tail ++ [newline]))).ensureLine =
        ofBytes (current ++ (tail ++ [newline])) := by
      rw [← List.append_assoc]
      exact ensureLine_of_endsLine (endsLine_append_newline _)
    simp only [List.nil_append, stepsFrom, nesting_append_newline, hadded, hkept]
    simp [hne]
  | cons line lines ih =>
    simp only [List.cons_append, stepsFrom, ih]

/-- The bytes of a text with its last line ended. -/
def completed (text : Text) : List UInt8 :=
  if text.bytes = [] ∨ text.endsLine = true then text.bytes else text.bytes ++ [newline]

/-- The steps of a text are its lines put together, when its last line is ended. -/
theorem exists_steps_eq (text : Text) : ∃ lines : List (List UInt8),
    (∀ line ∈ lines, IsLine line) ∧ lines.flatten = completed text ∧
      steps text = (gather [] lines).map fun step => ofBytes step.flatten := by
  obtain ⟨lines, tail, hlines, htail, hbytes⟩ := exists_lines text.bytes
  have hnone : ∀ line ∈ ([] : List (List UInt8)), IsLine line :=
    fun _ h => absurd h List.not_mem_nil
  by_cases hne : tail = []
  · subst hne
    rw [List.append_nil] at hbytes
    refine ⟨lines, hlines, ?_, ?_⟩
    · have hends : text.bytes = [] ∨ text.endsLine = true := by
        by_cases hempty : lines = []
        · exact .inl (by rw [hbytes, hempty]; rfl)
        · refine .inr ?_
          have hflat := endsLine_flatten hempty hlines
          rwa [← hbytes] at hflat
      rw [completed, if_pos hends, hbytes]
    · rw [steps, hbytes, splitAfterLines_flatten hlines]
      exact stepsFrom_eq hnone hlines
  · have hlast : IsLine (tail ++ [newline]) := ⟨tail, htail, rfl⟩
    have hall : ∀ line ∈ lines ++ [tail ++ [newline]], IsLine line :=
      List.forall_mem_append.mpr ⟨hlines, List.forall_mem_singleton.mpr hlast⟩
    refine ⟨lines ++ [tail ++ [newline]], hall, ?_, ?_⟩
    · have hopen : ¬(text.bytes = [] ∨ text.endsLine = true) := by
        rw [Text.endsLine, hbytes, List.getLast?_append_of_ne_nil _ hne]
        rintro (hnil | hends)
        · exact hne (List.append_eq_nil_iff.mp hnil).2
        · exact htail (List.mem_of_getLast? (of_decide_eq_true hends))
      rw [completed, if_neg hopen, hbytes]
      simp
    · rw [steps, hbytes, splitAfterLines_flatten_append hlines,
        splitAfterLines_of_not_mem hne htail, ← stepsFrom_append_newline _ _ _ hne htail]
      exact stepsFrom_eq hnone hall

end Walkthrough

end SymCalc
