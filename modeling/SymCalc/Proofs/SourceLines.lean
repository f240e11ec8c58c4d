import Mathlib
import SymCalc.Proofs.Words

/-!
# Sources that ask for lines

A source that asks for its characters line by line gives the same tokens at the same positions as
one that has them all at hand, since no token but a string goes across the end of a line. Main
statement: reading a token and then putting all characters at hand is putting all characters at
hand and then reading a token.
-/

namespace SymCalc

namespace Position

/-- The position so many lines further down. -/
def down (k : Nat) (p : Position) : Position := ⟨p.line + k, p.column⟩

variable (k : Nat) (p : Position)

/-- A character further down is passed further down. -/
@[simp] theorem advance_down (c : Char) : (p.down k).advance c = (p.advance c).down k := by
  unfold advance down
  split
  · exact congrArg (fun n => (⟨n, 1⟩ : Position)) (Nat.add_right_comm p.line k 1)
  · rfl

/-- A run of characters further down is passed further down. -/
@[simp] theorem advanceAll_down (cs : List Char) :
    (p.down k).advanceAll cs = (p.advanceAll cs).down k := by
  induction cs generalizing p with
  | nil => rfl
  | cons c cs ih => rw [advanceAll_cons, advance_down, ih, advanceAll_cons]

/-- No line further down. -/
@[simp] theorem down_zero : down 0 = id := rfl

/-- Without a line feed the line stays the same. -/
theorem nextLine_advanceAll {cs : List Char} (h : '\n' ∉ cs) :
    (p.advanceAll cs).nextLine = p.nextLine := by
  induction cs generalizing p with
  | nil => rfl
  | cons c cs ih =>
    obtain ⟨hc, hcs⟩ := not_or.mp (mt List.mem_cons.mpr h)
    rw [advanceAll_cons, ih _ hcs]
    unfold advance nextLine
    rw [if_neg (Ne.symm hc)]

/-- The line after a run of characters. -/
theorem line_advanceAll (cs : List Char) : (p.advanceAll cs).line = p.line + cs.count '\n' := by
  induction cs generalizing p with
  | nil => rfl
  | cons c cs ih =>
    rw [advanceAll_cons, ih, List.count_cons]
    unfold advance
    by_cases hc : c = '\n'
    · simp only [hc, if_true, beq_self_eq_true]
      omega
    · simp only [hc, if_false, beq_iff_eq]
      omega

end Position

section Skipping

variable (comment : Bool) (cs : List Char) (pos : Position) (newline : Bool)

/-- What is skipped stands before what is left. -/
theorem skipChars_split : ∃ taken, cs = taken ++ (skipChars comment cs pos newline).chars ∧
    (skipChars comment cs pos newline).pos = pos.advanceAll taken := by
  fun_induction skipChars comment cs pos newline with
  | case1 => exact ⟨[], rfl, rfl⟩
  | case2 c cs pos newline ih =>
    obtain ⟨taken, hcs, hpos⟩ := ih
    exact ⟨c :: taken, by rw [List.cons_append, ← hcs], hpos⟩
  | case3 cs pos newline ih =>
    obtain ⟨taken, hcs, hpos⟩ := ih
    exact ⟨'#' :: taken, by rw [List.cons_append, ← hcs], hpos⟩
  | case4 c cs pos newline _ _ ih =>
    obtain ⟨taken, hcs, hpos⟩ := ih
    exact ⟨c :: taken, by rw [List.cons_append, ← hcs], hpos⟩
  | case5 => exact ⟨[], rfl, rfl⟩

/-- Skipping stops at a character that is to be read. -/
theorem skipChars_head : ∀ c ∈ (skipChars comment cs pos newline).chars.head?,
    c ≠ '#' ∧ isSpace c = false ∧ c ≠ '\n' := by
  fun_induction skipChars comment cs pos newline with
  | case1 => exact fun _ h => nomatch h
  | case2 _ _ _ _ ih => exact ih
  | case3 _ _ _ ih => exact ih
  | case4 _ _ _ _ _ _ ih => exact ih
  | case5 c cs pos newline hcomment hblank =>
    intro d hd
    cases hd
    rw [Bool.or_eq_true, decide_eq_true_eq, not_or, Bool.not_eq_true] at hblank
    exact ⟨hcomment, hblank⟩

/-- What is skipped further down. -/
theorem skipChars_down (k : Nat) : skipChars comment cs (pos.down k) newline =
    { skipChars comment cs pos newline with
      pos := (skipChars comment cs pos newline).pos.down k } := by
  fun_induction skipChars comment cs pos newline with
  | case1 => rfl
  | case2 c cs pos newline ih => rw [← ih, ← Position.advance_down, skipChars]
  | case3 cs pos newline ih => rw [← ih, ← Position.advance_down, skipChars, if_pos rfl]
  | case4 c cs pos newline hcomment hblank ih =>
    rw [← ih, ← Position.advance_down, skipChars, if_neg hcomment, if_pos hblank]
  | case5 c cs pos newline hcomment hblank =>
    rw [skipChars, if_neg hcomment, if_neg hblank]

/-- A newline before does not change what is skipped. -/
theorem skipChars_newline : skipChars comment cs pos newline =
    { skipChars comment cs pos false with
      newline := newline || (skipChars comment cs pos false).newline } := by
  induction cs generalizing comment pos newline with
  | nil => simp [skipChars]
  | cons c cs ih =>
    cases comment with
    | true =>
      simp only [skipChars, Bool.false_or]
      rw [ih, ih _ _ (decide (c = '\n')), Bool.or_assoc]
    | false =>
      by_cases hcomment : c = '#'
      · simp only [skipChars, hcomment, if_true]
        exact ih _ _ _
      by_cases hblank : (isSpace c || decide (c = '\n')) = true
      · simp only [skipChars, hcomment, hblank, if_true, if_false, Bool.false_or]
        rw [ih, ih _ _ (decide (c = '\n')), Bool.or_assoc]
      · simp [skipChars, hcomment, hblank]

/-- Skipping goes on after a line feed, where a comment ends, if it gets there. -/
theorem skipChars_append_newline (ds : List Char) :
    skipChars comment (cs ++ '\n' :: ds) pos newline =
      if (skipChars comment cs pos newline).chars = [] then
        skipChars false ds (skipChars comment cs pos newline).pos.nextLine true
      else { skipChars comment cs pos newline with
        chars := (skipChars comment cs pos newline).chars ++ '\n' :: ds } := by
  fun_induction skipChars comment cs pos newline with
  | case1 comment => cases comment <;> simp [skipChars]
  | case2 c cs pos newline ih => rw [← ih, List.cons_append, skipChars]
  | case3 cs pos newline ih => rw [← ih, List.cons_append, skipChars, if_pos rfl]
  | case4 c cs pos newline hcomment hblank ih =>
    rw [← ih, List.cons_append, skipChars, if_neg hcomment, if_pos hblank]
  | case5 c cs pos newline hcomment hblank =>
    rw [List.cons_append, skipChars, if_neg hcomment, if_neg hblank, if_neg (List.cons_ne_nil _ _)]

end Skipping

/-- Nothing, or characters of a line and the line feed that ends it. -/
def OneLine (cs : List Char) : Prop := cs = [] ∨ ∃ body, '\n' ∉ body ∧ cs = body ++ ['\n']

/-- What is left of a line is a line. -/
theorem OneLine.of_append {cs ds : List Char} (h : OneLine (cs ++ ds)) : OneLine ds := by
  rcases h with h | ⟨body, hbody, h⟩
  · exact .inl (List.append_eq_nil_iff.mp h).2
  · rcases List.eq_nil_or_concat ds with rfl | ⟨es, e, rfl⟩
    · exact .inl rfl
    · rw [List.concat_eq_append, ← List.append_assoc] at h
      obtain ⟨hes, he⟩ := List.append_inj' h rfl
      rw [← hes, List.mem_append, not_or] at hbody
      exact .inr ⟨es, hbody.2, by rw [List.concat_eq_append, he]⟩

/-- What comes after a character of a line other than the line feed is not the end of it. -/
theorem OneLine.exists_of_cons {c : Char} {cs : List Char} (h : OneLine (c :: cs))
    (hc : c ≠ '\n') : ∃ body, '\n' ∉ body ∧ cs = body ++ ['\n'] := by
  rcases h with h | ⟨body, hbody, h⟩
  · cases h
  · cases body with
    | nil => exact absurd (List.cons.inj h).1 hc
    | cons b body =>
      exact ⟨body, fun hmem => hbody (List.mem_cons_of_mem b hmem), (List.cons.inj h).2⟩

namespace Source

/-- A source that asks for lines gets lines, and has at hand what is left of one. -/
def Lined (s : Source) : Prop :=
  ∀ f ∈ s.feed, OneLine s.chars ∧ ∀ line ∈ f.lines, OneLine line.chars

/-- The source with all its characters at hand. -/
def flat (s : Source) : Source := { chars := s.rest, pos := s.pos }

variable {s : Source}

/-- The characters that are still to be asked for. -/
def later (s : Source) : List Char :=
  match s.feed with
  | some f => f.rest
  | none => []

/-- What is at hand comes first. -/
theorem rest_eq_append (s : Source) : s.rest = s.chars ++ s.later := rfl

@[simp] theorem pos_flat (s : Source) : s.flat.pos = s.pos := rfl

@[simp] theorem chars_flat (s : Source) : s.flat.chars = s.rest := rfl

@[simp] theorem feed_flat (s : Source) : s.flat.feed = none := rfl

/-- What is still to come from a source that asks for no lines is at hand. -/
theorem rest_of_feed_none (h : s.feed = none) : s.rest = s.chars := by
  rw [rest, h, List.append_nil]

/-- What is still to come from a source that asks for lines. -/
theorem rest_of_feed_some {f : Feed} (h : s.feed = some f) : s.rest = s.chars ++ f.rest := by
  rw [rest, h]

@[simp] theorem rest_flat (s : Source) : s.flat.rest = s.rest := rest_of_feed_none rfl

/-- A source without lines to ask for is lined. -/
theorem lined_of_feed_none (h : s.feed = none) : s.Lined := by
  intro f hf
  rw [h] at hf
  cases hf

/-- A source stays lined as characters at hand are taken. -/
theorem Lined.of_suffix (hs : s.Lined) {t : Source} (hfeed : t.feed = s.feed) (taken : List Char)
    (hchars : s.chars = taken ++ t.chars) : t.Lined := by
  intro f hf
  obtain ⟨hline, hlines⟩ := hs f (hfeed ▸ hf)
  rw [hchars] at hline
  exact ⟨hline.of_append, hlines⟩

/-- Asking for a line leaves the source with all characters at hand the same. -/
@[simp] theorem flat_fill (s : Source) : s.fill.flat = s.flat := by
  rw [flat, rest_fill, pos_fill, flat]

/-- A source that can be asked no more has nothing to come but what is at hand. -/
theorem rest_of_not_isOpen (h : s.isOpen = false) : s.rest = s.chars := by
  cases hfeed : s.feed with
  | none => exact rest_of_feed_none hfeed
  | some f =>
    have hclosed : f.closed = true := by simpa [isOpen, hfeed] using h
    rw [rest_of_feed_some hfeed, Feed.rest, if_pos hclosed, List.append_nil]

/-- A source that can be asked has lines to ask for. -/
theorem exists_feed_of_isOpen (h : s.isOpen = true) : ∃ f, s.feed = some f := by
  cases hfeed : s.feed with
  | none => simp [isOpen, hfeed] at h
  | some f => exact ⟨f, rfl⟩

/-- Asking for a line finds characters at hand, finds the end, or takes one line. -/
theorem fill_cases (s : Source) :
    (s.chars ≠ [] ∧ s.fill = s) ∨
    (s.fill.chars = [] ∧ s.fill.isOpen = false ∧ (s.Lined → s.fill.Lined)) ∨
    ∃ f g line, s.chars = [] ∧ s.feed = some f ∧ f.lines = line :: g.lines ∧
      s.fill = { s with chars := line.chars, feed := some g } := by
  obtain ⟨chars, pos, feed⟩ := s
  cases chars with
  | cons c cs => exact .inl ⟨List.cons_ne_nil c cs, rfl⟩
  | nil =>
    cases feed with
    | none => exact .inr (.inl ⟨rfl, rfl, id⟩)
    | some f =>
      obtain ⟨lines, closed, asked, history⟩ := f
      cases closed with
      | true => exact .inr (.inl ⟨rfl, rfl, id⟩)
      | false =>
        cases lines with
        | nil =>
          refine .inr (.inl ⟨rfl, rfl, fun _ f hf => ?_⟩)
          cases hf
          exact ⟨.inl rfl, List.forall_mem_nil _⟩
        | cons line lines => exact .inr (.inr ⟨_, ⟨lines, false, _, _⟩, line, rfl, rfl, rfl, rfl⟩)

/-- Asking for a line keeps a source lined. -/
theorem Lined.fill (hs : s.Lined) : s.fill.Lined := by
  rcases s.fill_cases with ⟨-, h⟩ | ⟨-, -, h⟩ | ⟨f, g, line, -, hf, hlines, h⟩
  · rw [h]
    exact hs
  · exact h hs
  · have hall := (hs f hf).2
    rw [hlines] at hall
    obtain ⟨hline, hrest⟩ := List.forall_mem_cons.mp hall
    rw [h]
    intro f' hf'
    cases hf'
    exact ⟨hline, hrest⟩

/-- After a line was asked for, characters are at hand unless the source has ended. -/
theorem rest_of_chars_fill (h : s.fill.chars = []) : s.rest = [] ∧ s.fill.isOpen = false := by
  rcases s.fill_cases with ⟨hne, hfill⟩ | ⟨-, hopen, -⟩ | ⟨f, g, line, -, -, -, hfill⟩
  · rw [hfill] at h
    exact absurd h hne
  · rw [← rest_fill, rest_of_not_isOpen hopen]
    exact ⟨h, hopen⟩
  · rw [hfill] at h
    exact absurd h line.chars_ne_nil

/-- Rounds enough to ask for every line and to find the end. -/
def Enough (s : Source) (rounds : Nat) : Prop :=
  s.linesLeft < rounds ∧ (s.chars ≠ [] → s.linesLeft + 1 < rounds)

/-- After a round there are rounds enough for the lines left. -/
theorem Enough.of_fill {rounds : Nat} (h : s.Enough (rounds + 1)) (hchars : s.fill.chars ≠ [])
    {t : Source} (ht : t.chars = []) (hlines : t.linesLeft = s.fill.linesLeft) :
    t.Enough rounds := by
  refine ⟨?_, fun hne => absurd ht hne⟩
  rcases s.fill_cases with ⟨hne, hfill⟩ | ⟨hnil, -⟩ | ⟨f, g, line, -, hf, hg, hfill⟩
  · have hmore := h.2 hne
    rw [hlines, hfill]
    omega
  · exact absurd hnil hchars
  · have hmore := h.1
    have hs : s.linesLeft = g.lines.length + 1 := by simp only [linesLeft, hf, hg, List.length_cons]
    have ht : s.fill.linesLeft = g.lines.length := by rw [hfill]; rfl
    omega

/-- Skipping goes from line to line as it does within the characters. -/
theorem skipRounds_flat (rounds : Nat) (newline : Bool) (hs : s.Lined) (hrounds : s.Enough rounds) :
    let skipped := skipChars false s.rest s.pos newline
    let result := s.skipRounds rounds newline
    result.1.flat = { chars := skipped.chars, pos := skipped.pos } ∧
      result.2 = skipped.newline ∧ result.1.Lined ∧ (result.1.chars = [] → result.1.rest = []) := by
  induction rounds generalizing s newline with
  | zero => exact absurd hrounds.1 (Nat.not_lt_zero _)
  | succ rounds ih =>
    have hlined := hs.fill
    have hrest := s.rest_fill
    have hpos := s.pos_fill
    have henough := fun h t => hrounds.of_fill h (t := t)
    have hend := s.rest_of_chars_fill
    unfold skipRounds
    generalize s.fill = t at hlined hrest hpos henough hend
    rw [← hrest, ← hpos]
    have hsame : ∀ cs p, ({ t with chars := cs, pos := p } : Source).isOpen = t.isOpen :=
      fun _ _ => rfl
    cases hopen : t.isOpen with
    | false =>
      have hall := rest_of_not_isOpen hopen
      simp only [hsame, hopen, Bool.and_false, Bool.false_eq_true, if_false, hall]
      have hleft := rest_of_not_isOpen ((hsame (skipChars false t.chars t.pos newline).chars
        (skipChars false t.chars t.pos newline).pos).trans hopen)
      refine ⟨by rw [flat, hleft], trivial, ?_, fun h => hleft.trans h⟩
      obtain ⟨taken, htaken, -⟩ := skipChars_split false t.chars t.pos newline
      exact hlined.of_suffix rfl taken htaken
    | true =>
      obtain ⟨f, hf⟩ := exists_feed_of_isOpen hopen
      have hne : t.chars ≠ [] := fun hnil => by simp [hend hnil] at hopen
      obtain ⟨body, -, hchars⟩ := (hlined f hf).1.resolve_left hne
      have hall : t.rest = body ++ '\n' :: f.rest := by
        rw [rest_of_feed_some hf, hchars, List.append_assoc]
        rfl
      simp only [hsame, hopen, Bool.and_true, hall, hchars, skipChars_append_newline]
      obtain ⟨taken, htaken, -⟩ := skipChars_split false body t.pos newline
      generalize skipChars false body t.pos newline = skipped at htaken
      obtain ⟨left, p, seen⟩ := skipped
      cases left with
      | nil =>
        -- The line is used up, and the next one is asked for.
        have hrest' : ({ t with chars := [], pos := p.nextLine } : Source).rest = f.rest :=
          rest_of_feed_some hf
        have hnext := ih (s := { t with chars := [], pos := p.nextLine }) true
          (hlined.of_suffix rfl t.chars (List.append_nil _).symm)
          (henough hne { t with chars := [], pos := p.nextLine } rfl rfl)
        simp only [hrest'] at hnext
        exact hnext
      | cons c cs =>
        refine ⟨?_, rfl, ?_, fun h => absurd h (List.cons_ne_nil c _)⟩
        · have hleft := rest_of_feed_some
            (s := { t with chars := c :: (cs ++ ['\n']), pos := p }) hf
          simp only [List.cons_append, List.append_assoc, List.nil_append] at hleft
          simp [flat, hleft]
        · refine hlined.of_suffix rfl taken ?_
          rw [hchars, htaken, List.append_assoc]
          rfl

/-- Skipping in a lined source. -/
theorem skip_flat (hs : s.Lined) : s.flat.skip = (s.skip.1.flat, s.skip.2) ∧ s.skip.1.Lined ∧
    (s.skip.1.chars = [] → s.skip.1.rest = []) := by
  have henough : s.Enough (s.linesLeft + 2) := ⟨by omega, fun _ => by omega⟩
  obtain ⟨hflat, hnewline, hlined, hend⟩ := skipRounds_flat _ false hs henough
  refine ⟨?_, hlined, hend⟩
  rw [Scanner.skip_of_feed_none rfl, skip, hflat, hnewline]
  rfl

section

variable {p : Char → Bool} {cs : List Char}

/-- A run that ends within the characters ends there whatever follows. -/
theorem span_append_of_ne_nil (h : cs.dropWhile p ≠ []) (ds : List Char) :
    (cs ++ ds).takeWhile p = cs.takeWhile p ∧
      (cs ++ ds).dropWhile p = cs.dropWhile p ++ ds := by
  induction cs with
  | nil => exact absurd rfl h
  | cons c cs ih =>
    by_cases hc : p c = true
    · rw [List.dropWhile_cons_of_pos hc] at h
      obtain ⟨htake, hdrop⟩ := ih h
      simp [hc, htake, hdrop]
    · simp [hc]

/-- A run that does not end within the characters goes on. -/
theorem span_append_of_eq_nil (h : cs.dropWhile p = []) (ds : List Char) :
    (cs ++ ds).takeWhile p = cs ++ ds.takeWhile p ∧ (cs ++ ds).dropWhile p = ds.dropWhile p := by
  have hall := List.dropWhile_eq_nil_iff.mp h
  exact ⟨List.takeWhile_append_of_pos hall, List.dropWhile_append_of_pos hall⟩

end

/-- A source without lines to ask for is not changed by asking. -/
theorem fill_of_feed_none (h : s.feed = none) : s.fill = s := by
  unfold fill
  rw [h]
  split <;> first | rfl | contradiction

/-- A string in a source without lines to ask for. -/
theorem quotedRounds_of_feed_none (h : s.feed = none) (quote : Char) (rounds : Nat)
    (taken : List Char) : s.quotedRounds quote (rounds + 1) taken =
      match s.chars.dropWhile (· ≠ quote) with
      | c :: after => (some (taken ++ s.chars.takeWhile (· ≠ quote)),
          s.advance (s.chars.takeWhile (· ≠ quote) ++ [c]) after)
      | [] => (none, s.advance (s.chars.takeWhile (· ≠ quote)) []) := by
  have hopen : ∀ cs ds, (s.advance cs ds).isOpen = false := by
    intro cs ds
    rw [isOpen, advance, h]
  rw [quotedRounds, fill_of_feed_none h]
  cases s.chars.dropWhile (· ≠ quote) with
  | nil => simp only [hopen, Bool.false_eq_true, if_false]
  | cons c after => rfl

/-- A string goes from line to line as it does within the characters. -/
theorem quotedRounds_flat (quote : Char) (rounds n : Nat) (taken : List Char) (hs : s.Lined)
    (hrounds : s.Enough rounds) :
    s.flat.quotedRounds quote (n + 1) taken =
        ((s.quotedRounds quote rounds taken).1, (s.quotedRounds quote rounds taken).2.flat) ∧
      (s.quotedRounds quote rounds taken).2.Lined := by
  induction rounds generalizing s taken with
  | zero => exact absurd hrounds.1 (Nat.not_lt_zero _)
  | succ rounds ih =>
    have hlined := hs.fill
    have hflat := s.flat_fill
    have henough := fun h t => hrounds.of_fill h (t := t)
    have hend := s.rest_of_chars_fill
    rw [← hflat, quotedRounds_of_feed_none rfl]
    unfold quotedRounds
    generalize s.fill = t at hlined henough hend
    have hsame : ∀ cs ds, (t.advance cs ds).isOpen = t.isOpen := fun _ _ => rfl
    have hsplit := List.takeWhile_append_dropWhile (p := (· ≠ quote)) (l := t.chars)
    rw [chars_flat, rest_eq_append]
    cases hdrop : t.chars.dropWhile (· ≠ quote) with
    | cons c after =>
      rw [hdrop] at hsplit
      have hne : t.chars.dropWhile (· ≠ quote) ≠ [] := by rw [hdrop]; exact List.cons_ne_nil c after
      obtain ⟨htake, hafter⟩ := span_append_of_ne_nil hne t.later
      rw [hdrop, List.cons_append] at hafter
      simp only [hafter, htake, hdrop]
      refine ⟨rfl, hlined.of_suffix rfl (t.chars.takeWhile (· ≠ quote) ++ [c]) ?_⟩
      rw [List.append_assoc]
      exact hsplit.symm
    | nil =>
      obtain ⟨htake, hafter⟩ := span_append_of_eq_nil hdrop t.later
      rw [hdrop, List.append_nil] at hsplit
      simp only [hafter, htake, hdrop, hsplit, hsame]
      cases hopen : t.isOpen with
      | false =>
        have hlater : t.later = [] := by simpa [rest_eq_append] using rest_of_not_isOpen hopen
        have hflat : (t.advance t.chars []).flat = t.flat.advance t.chars [] :=
          congrArg (fun cs => (⟨cs, t.pos.advanceAll t.chars, none⟩ : Source)) hlater
        simp only [hlater, List.dropWhile_nil, List.takeWhile_nil, List.append_nil,
          Bool.false_eq_true, if_false, hflat, true_and]
        exact hlined.of_suffix rfl t.chars (List.append_nil _).symm
      | true =>
        -- The line is used up, and the next one is asked for.
        have hne : t.chars ≠ [] := fun hnil => by simp [hend hnil] at hopen
        have hnext := ih (s := t.advance t.chars []) (taken ++ t.chars)
          (hlined.of_suffix rfl t.chars (List.append_nil _).symm)
          (henough hne (t.advance t.chars []) rfl rfl)
        have hchars : (t.advance t.chars []).flat.chars = t.later := rfl
        rw [quotedRounds_of_feed_none rfl, hchars] at hnext
        simp only [if_true]
        refine ⟨?_, hnext.2⟩
        rw [← hnext.1]
        cases t.later.dropWhile (· ≠ quote) <;>
          simp [advance, flat, Position.advanceAll_append]

/-- A string in a lined source. -/
theorem quoted_flat (quote : Char) (hs : s.Lined) :
    s.flat.quoted quote = ((s.quoted quote).1, (s.quoted quote).2.flat) ∧
      (s.quoted quote).2.Lined :=
  quotedRounds_flat quote _ 1 [] hs ⟨by omega, fun _ => by omega⟩

/-- Reads the token that starts at the next character. -/
def lex (s : Source) (newline : Bool) : Scanned × Source :=
  match s.chars with
  | [] => (⟨⟨.eof, "EOF", s.pos⟩, newline⟩, s)
  | c :: cs =>
    if isQuote c then
      match (s.advance [c] cs).quoted c with
      | (some inside, t) => (⟨⟨.string, Text.ofChars inside, s.pos⟩, newline⟩, t)
      | (none, t) => (⟨⟨.error, "unterminated string", s.pos⟩, newline⟩, t)
    else
      let word := lexeme c cs
      let t := s.advance word.2 ((c :: cs).drop word.2.length)
      if word.1 = .error then
        (⟨⟨.error, "unrecognized character: " ++ Text.codePoint c, s.pos⟩, newline⟩, t)
      else (⟨⟨word.1, Text.ofChars word.2, s.pos⟩, newline⟩, t)

/-- Reads the next token. -/
def scan (s : Source) : Scanned × Source := s.skip.1.lex s.skip.2

end Source

/-- A scanner reads the next token of its source. Only the log may change besides, and only if
tokens are logged. -/
theorem Scanner.scan_eq (s : Scanner) :
    s.scan = (s.source.scan.1, { s with source := s.source.scan.2, log := s.scan.2.log }) ∧
      (s.logTokens = false → s.scan.2.log = s.log) := by
  have hemit (t : Source) (token : Token) : ∃ log,
      ({ s with source := t } : Scanner).emit token = { s with source := t, log := log } ∧
        (s.logTokens = false → log = s.log) := by
    rw [Scanner.emit]
    split
    · rename_i hlogs
      exact ⟨_, rfl, fun hquiet => absurd hlogs (by simp [hquiet])⟩
    · exact ⟨s.log, rfl, fun _ => rfl⟩
  have hscan : ∃ log, s.scan = (s.source.scan.1, { s with source := s.source.scan.2, log := log }) ∧
      (s.logTokens = false → log = s.log) := by
    unfold Scanner.scan Source.scan Source.lex
    dsimp only
    cases s.source.skip.1.chars with
    | nil => exact ⟨s.log, rfl, fun _ => rfl⟩
    | cons c cs =>
      by_cases hquote : isQuote c = true
      · simp only [hquote, if_true]
        obtain ⟨inside, t⟩ := (s.source.skip.1.advance [c] cs).quoted c
        cases inside with
        | none => exact ⟨s.log, rfl, fun _ => rfl⟩
        | some inside =>
          obtain ⟨log, hlog, hquiet⟩ := hemit t _
          exact ⟨log, Prod.ext rfl hlog, hquiet⟩
      · simp only [hquote, Bool.false_eq_true, if_false]
        split
        · exact ⟨s.log, rfl, fun _ => rfl⟩
        · obtain ⟨log, hlog, hquiet⟩ := hemit _ _
          exact ⟨log, Prod.ext rfl hlog, hquiet⟩
  obtain ⟨log, hlog, hquiet⟩ := hscan
  rw [hlog]
  exact ⟨rfl, hquiet⟩

namespace Source

variable {s : Source}

/-- No word goes on across a line feed. -/
theorem breaks_newline (cs : List Char) : Breaks ('\n' :: cs) := by
  intro c hc
  cases hc
  decide +kernel

/-- A word in a lined source is a word of all its characters. -/
theorem Lined.lexeme_later (hs : s.Lined) {c : Char} {cs : List Char} (hchars : s.chars = c :: cs)
    (hc : c ≠ '\n') : lexeme c (cs ++ s.later) = lexeme c cs := by
  cases hfeed : s.feed with
  | none =>
    have hlater : s.later = [] := by rw [later, hfeed]
    rw [hlater, List.append_nil]
  | some f =>
    have hline := (hs f hfeed).1
    rw [hchars] at hline
    obtain ⟨body, -, rfl⟩ := hline.exists_of_cons hc
    rw [List.append_assoc, List.cons_append, List.nil_append,
      lexeme_append (breaks_newline s.later), lexeme_append (breaks_newline [])]

/-- Reading the token at the next character of a lined source. -/
theorem lex_flat (newline : Bool) (hs : s.Lined) (hend : s.chars = [] → s.rest = [])
    (hhead : ∀ c ∈ s.chars.head?, c ≠ '\n') :
    s.flat.lex newline = ((s.lex newline).1, (s.lex newline).2.flat) ∧
      (s.lex newline).2.Lined := by
  cases hchars : s.chars with
  | nil =>
    have hrest := hend hchars
    simp only [lex, chars_flat, hrest, hchars, pos_flat, true_and]
    exact hs
  | cons c cs =>
    have hc : c ≠ '\n' := hhead c (by rw [hchars]; rfl)
    have hrest : s.rest = c :: (cs ++ s.later) := by rw [rest_eq_append, hchars, List.cons_append]
    have hword := hs.lexeme_later hchars hc
    by_cases hquote : isQuote c = true
    · have hinside : (s.advance [c] cs).Lined := hs.of_suffix rfl [c] hchars
      obtain ⟨hquoted, hlined⟩ := quoted_flat c hinside
      have hflat : s.flat.advance [c] (cs ++ s.later) = (s.advance [c] cs).flat := rfl
      simp only [lex, chars_flat, hrest, hchars, hquote, if_true, hflat, hquoted, pos_flat]
      generalize (s.advance [c] cs).quoted c = result at hlined
      obtain ⟨inside, t⟩ := result
      cases inside with
      | none => exact ⟨rfl, hlined⟩
      | some inside => exact ⟨rfl, hlined⟩
    · have hprefix := lexeme_isPrefix c cs
      have hsplit := List.prefix_iff_eq_append.mp hprefix
      have hdrop : (c :: (cs ++ s.later)).drop (lexeme c cs).2.length =
          (c :: cs).drop (lexeme c cs).2.length ++ s.later := by
        rw [← List.cons_append, List.drop_append_of_le_length hprefix.length_le]
      have hlined : (s.advance (lexeme c cs).2 ((c :: cs).drop (lexeme c cs).2.length)).Lined :=
        hs.of_suffix rfl (lexeme c cs).2 (hchars.trans hsplit.symm)
      simp only [lex, chars_flat, hrest, hchars, hquote, Bool.false_eq_true, if_false, hword, hdrop,
        pos_flat]
      split
      · exact ⟨rfl, hlined⟩
      · exact ⟨rfl, hlined⟩

/-- Reading a token in a lined source. -/
theorem scan_flat (hs : s.Lined) :
    s.flat.scan = (s.scan.1, s.scan.2.flat) ∧ s.scan.2.Lined := by
  obtain ⟨hskip, hlined, hend⟩ := skip_flat hs
  have hhead : ∀ c ∈ s.skip.1.chars.head?, c ≠ '\n' := by
    intro c hc
    have hchars : s.flat.skip.1.chars = s.skip.1.rest := by rw [hskip, chars_flat]
    rw [Scanner.skip_of_feed_none rfl] at hchars
    have hstart := skipChars_head false s.rest s.pos false c
    refine (hstart ?_).2.2
    change (skipChars false s.rest s.pos false).chars = s.skip.1.rest at hchars
    rw [hchars, rest_eq_append, List.head?_append, hc]
    rfl
  unfold scan
  rw [hskip]
  exact lex_flat s.skip.2 hlined hend hhead

end Source

end SymCalc
