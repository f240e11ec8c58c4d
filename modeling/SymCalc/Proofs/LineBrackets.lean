import Mathlib
import SymCalc.Proofs.ScannedText
import SymCalc.Proofs.SourceDecoding
import SymCalc.Proofs.WalkthroughSteps

/-!
# The brackets of a line

A walkthrough counts the brackets of a line by a loop over its characters, which knows quotes and
comments and nothing else of the language. Main statement: the count is the number of opening
brackets less the number of closing ones among the tokens of the line, whether it is scanned as a
text or given as a line that was asked for.
-/

namespace SymCalc

namespace Token

/-- Whether a token is an opening bracket of one of the three kinds. -/
def opensBracket (t : Token) : Bool := t.isPunct "(" || t.isPunct "[" || t.isPunct "\x7b"

/-- Whether a token is a closing bracket of one of the three kinds. -/
def closesBracket (t : Token) : Bool := t.isPunct ")" || t.isPunct "]" || t.isPunct "\x7d"

/-- What a token adds to the number of open brackets. -/
def depthChange (t : Token) : Int :=
  (if t.opensBracket then 1 else 0) - (if t.closesBracket then 1 else 0)

/-- Only punctuation opens or closes brackets. -/
theorem depthChange_of_kind_ne {t : Token} (h : t.kind ≠ .punctuation) : t.depthChange = 0 := by
  simp [depthChange, opensBracket, closesBracket, isPunct, h]

/-- What tokens add to the number of open brackets is the number of opening brackets less the
number of closing ones. -/
theorem sum_depthChange (ts : List Token) : (ts.map depthChange).sum =
    (ts.countP opensBracket : Int) - ts.countP closesBracket := by
  induction ts with
  | nil => rfl
  | cons t ts ih =>
    rw [List.map_cons, List.sum_cons, ih, List.countP_cons, List.countP_cons, depthChange]
    push_cast
    ring

end Token

section Tokens

variable {before cs : List Char} {ts : List Token}

/-- The last token is the end. -/
theorem Tokenised.getLast?_kind (h : Tokenised before cs ts) :
    ts.getLast?.map Token.kind = some .eof := by
  induction h with
  | eof => rfl
  | token skipped stands more ih =>
    cases more with
    | eof => rfl
    | token => exact ih

/-- Tokens that are taken until the end comes are those of all characters still to come, also when
they are asked for line by line. -/
theorem Scanner.tokenised_tokensWithin {s : Scanner} (hs : s.source.Lined) (hheld : s.held = none)
    (hpos : s.source.pos = .behind before) {rounds : Nat}
    (hrounds : s.source.rest.length < rounds) :
    Tokenised before s.source.rest (s.tokensWithin rounds).1 := by
  -- Each token that is not the end takes a character at least, so the rounds do not run out.
  induction rounds generalizing s before with
  | zero => exact absurd hrounds (Nat.not_lt_zero _)
  | succ rounds ih =>
    obtain ⟨hflat, hlined⟩ := Source.scan_flat hs
    obtain ⟨gap, -, hnext⟩ := Source.scan_span (s := s.source.flat) rfl
    rw [hflat, Source.pos_flat, hpos, Position.advanceAll_behind] at hnext
    rw [tokensWithin, next_of_held_none hheld]
    dsimp only at hnext ⊢
    rcases hnext with ⟨htoken, hgap, hpasses, hend⟩ |
      ⟨kind, text, span, htoken, hgap, hspan, hpasses⟩
    · have hchars : s.source.rest = gap ++ s.source.scan.2.flat.chars := hpasses.chars
      rw [htoken, if_pos rfl, hchars, hend, List.append_nil]
      exact .eof hgap
    · have hchars : s.source.rest = gap ++ span ++ s.source.scan.2.rest := hpasses.chars
      have hspanned := List.length_pos_iff.mpr hspan.ne_nil
      have hbehind : s.source.scan.2.pos = .behind (before ++ gap ++ span) := by
        rw [← Source.pos_flat, hpasses.pos, Source.pos_flat, hpos, Position.advanceAll_behind,
          List.append_assoc]
      have hless : s.source.scan.2.rest.length < rounds := by
        rw [hchars, List.length_append, List.length_append] at hrounds
        omega
      let t : Scanner := { s with source := s.source.scan.2, held := none, log := s.scan.2.log }
      have hmore := ih (s := t) hlined rfl hbehind hless
      rw [htoken, if_neg hspan.kind_ne_eof, hchars]
      exact .token hgap hspan hmore

end Tokens

namespace Walkthrough

open Text

/-- Whether a character is an opening bracket. -/
def opens (c : Char) : Bool := c = '(' || c = '[' || c = '\x7b'

/-- Whether a character is a closing bracket. -/
def closes (c : Char) : Bool := c = ')' || c = ']' || c = '\x7d'

/-- Whether the count of brackets depends on a character. -/
def isMark (c : Char) : Bool := isQuote c || c = '#' || opens c || closes c

/-- The characters on which the count depends. -/
def marks : List Char := ['\x27', '\x22', '#', '(', '[', '\x7b', ')', ']', '\x7d']

/-- The marks, one by one. -/
theorem isMark_iff {c : Char} : isMark c = true ↔ c ∈ marks := by
  simp [isMark, isQuote, opens, closes, marks, or_assoc]

/-- A test that no mark passes tells characters that are none. -/
theorem isMark_eq_false {p : Char → Bool} (hp : marks.any p = false) {c : Char}
    (hc : p c = true) : isMark c = false :=
  Bool.eq_false_iff.mpr fun hmark => List.any_eq_false.mp hp c (isMark_iff.mp hmark) hc

/-- No mark stands beyond ASCII. -/
theorem isMark_of_le {c : Char} (hc : 0x80 ≤ c.toNat) : isMark c = false :=
  isMark_eq_false (p := fun d => 0x80 ≤ d.toNat) rfl (decide_eq_true hc)

/-- What a character outside of strings and comments adds to the count. -/
def charChange (c : Char) : Int := (if opens c then 1 else 0) - (if closes c then 1 else 0)

/-- A character that neither opens a string nor a comment is counted on its own. -/
theorem nestingFrom_cons {c : Char} (hquote : isQuote c = false) (hcomment : c ≠ '#')
    (cs : List Char) : nestingFrom none (c :: cs) = charChange c + nestingFrom none cs := by
  have hcount : nestingFrom none (c :: cs) = if opens c = true then nestingFrom none cs + 1
      else if closes c = true then nestingFrom none cs - 1 else nestingFrom none cs := by
    rw [nestingFrom, if_neg (by simp [hquote]), if_neg hcomment]
    rfl
  have hone (hopens : opens c = true) : closes c = false := by
    simp only [opens, Bool.or_eq_true, decide_eq_true_eq] at hopens
    rcases hopens with (rfl | rfl) | rfl <;> rfl
  rw [hcount, charChange]
  by_cases hopens : opens c = true
  · rw [if_pos hopens, if_pos hopens, if_neg (by simp [hone hopens])]
    omega
  · rw [if_neg hopens, if_neg hopens]
    by_cases hcloses : closes c = true
    · rw [if_pos hcloses, if_pos hcloses]
      omega
    · rw [if_neg hcloses, if_neg hcloses]
      omega

/-- A quote opens a string. -/
theorem nestingFrom_quote {quote : Char} (h : isQuote quote = true) (cs : List Char) :
    nestingFrom none (quote :: cs) = nestingFrom (some quote) cs := by
  rw [nestingFrom, if_pos h]

/-- A character that is no mark is passed over, inside strings and outside. -/
theorem nestingFrom_cons_of_not_isMark {quote : Option Char}
    (hquote : ∀ q ∈ quote, isQuote q = true) {c : Char} (hc : isMark c = false) (cs : List Char) :
    nestingFrom quote (c :: cs) = nestingFrom quote cs := by
  cases quote with
  | none =>
    simp only [isMark, Bool.or_eq_false_iff, decide_eq_false_iff_not] at hc
    obtain ⟨⟨⟨hnone, hcomment⟩, hopens⟩, hcloses⟩ := hc
    simp [nestingFrom_cons hnone hcomment, charChange, hopens, hcloses]
  | some quote =>
    have hne : c ≠ quote := by
      rintro rfl
      simp [isMark, hquote c rfl] at hc
    rw [nestingFrom, if_neg hne]

/-- The count depends on the marks alone. -/
theorem nestingFrom_filter_isMark {quote : Option Char} (hquote : ∀ q ∈ quote, isQuote q = true)
    (cs : List Char) : nestingFrom quote (cs.filter isMark) = nestingFrom quote cs := by
  have hnone : ∀ q ∈ (none : Option Char), isQuote q = true := by simp
  induction cs generalizing quote with
  | nil => rfl
  | cons c cs ih =>
    by_cases hmark : isMark c = true
    · rw [List.filter_cons_of_pos hmark]
      cases quote with
      | none =>
        by_cases hopen : isQuote c = true
        · rw [nestingFrom_quote hopen, nestingFrom_quote hopen, ih (by simpa using hopen)]
        by_cases hcomment : c = '#'
        · subst hcomment
          rfl
        · rw [Bool.not_eq_true] at hopen
          rw [nestingFrom_cons hopen hcomment, nestingFrom_cons hopen hcomment, ih hnone]
      | some quote =>
        rw [nestingFrom, nestingFrom]
        by_cases hc : c = quote
        · rw [if_pos hc, ih hnone]
        · rw [if_neg hc, ih hquote]
    · rw [List.filter_cons_of_neg hmark, ih hquote,
        nestingFrom_cons_of_not_isMark hquote (Bool.eq_false_iff.mpr hmark)]

/-- Characters with the same marks have the same count. -/
theorem nestingFrom_congr {cs ds : List Char} (h : cs.filter isMark = ds.filter isMark) :
    nestingFrom none cs = nestingFrom none ds := by
  rw [← nestingFrom_filter_isMark (by simp) cs, h, nestingFrom_filter_isMark (by simp)]

/-- Carriage returns that are dropped from the characters change nothing in the count. -/
theorem nestingFrom_filter_return (cs : List Char) :
    nestingFrom none (cs.filter (· ≠ '\r')) = nestingFrom none cs := by
  apply nestingFrom_congr
  rw [List.filter_filter]
  refine List.filter_congr fun c _ => ?_
  by_cases hc : c = '\r'
  · subst hc
    rfl
  · simp [hc]

/-- Characters without a mark are passed over. -/
theorem nestingFrom_append_of_not_isMark {cs : List Char} (h : ∀ c ∈ cs, isMark c = false)
    (rest : List Char) : nestingFrom none (cs ++ rest) = nestingFrom none rest := by
  have hnone : cs.filter isMark = [] := List.filter_eq_nil_iff.mpr fun c hc => by simp [h c hc]
  apply nestingFrom_congr
  rw [List.filter_append, hnone, List.nil_append]

/-- Inside a string nothing is counted up to the quote that closes it, or up to the end. -/
theorem nestingFrom_inside {quote : Char} {inside : List Char} (h : quote ∉ inside) :
    nestingFrom (some quote) inside = 0 ∧
      ∀ rest, nestingFrom (some quote) (inside ++ quote :: rest) = nestingFrom none rest := by
  induction inside with
  | nil => exact ⟨rfl, fun rest => by rw [List.nil_append, nestingFrom, if_pos rfl]⟩
  | cons c inside ih =>
    obtain ⟨hc, hinside⟩ := not_or.mp (mt List.mem_cons.mpr h)
    simpa only [List.cons_append, nestingFrom, if_neg (Ne.symm hc)] using ih hinside

/-- Characters of which at most the last one is a line feed. -/
def OnLine (cs : List Char) : Prop := '\n' ∉ cs.dropLast

/-- What is left of a line is on it. -/
theorem OnLine.of_append {cs ds : List Char} (h : OnLine (cs ++ ds)) : OnLine ds := by
  by_cases hds : ds = []
  · subst hds
    exact List.not_mem_nil
  · rw [OnLine, List.dropLast_append_of_ne_nil hds, List.mem_append, not_or] at h
    exact h.2

/-- Characters without a line feed, and a line feed behind them. -/
theorem onLine_of_not_mem {cs : List Char} (h : '\n' ∉ cs) : OnLine cs ∧ OnLine (cs ++ ['\n']) := by
  refine ⟨fun hmem => h (List.mem_of_mem_dropLast hmem), ?_⟩
  rwa [OnLine, List.dropLast_concat]

/-- Nothing follows the line feed. -/
theorem OnLine.eq_nil {cs ds : List Char} (h : OnLine (cs ++ '\n' :: ds)) : ds = [] := by
  by_contra hds
  apply h.of_append
  rw [List.dropLast_cons_of_ne_nil hds]
  exact List.mem_cons_self

/-- No bracket is counted in a gap. A comment stops the count, but it also goes to the end of the
line. -/
theorem nestingFrom_gap {after gap : List Char} (h : Gap after gap)
    (hline : OnLine (gap ++ after)) : nestingFrom none (gap ++ after) = nestingFrom none after := by
  induction h with
  | nil => rfl
  | @blank c gap blank rest ih =>
    have hc : isMark c = false :=
      isMark_eq_false (p := fun d => isSpace d || d = '\n') rfl (by simpa using blank)
    have hrest : OnLine ([c] ++ (gap ++ after)) := hline
    rw [List.cons_append, nestingFrom_cons_of_not_isMark (by simp) hc]
    exact ih hrest.of_append
  | @comment inside gap line rest ih =>
    -- The count stops at the comment sign; behind the line feed nothing is left to be counted.
    have hnil : gap ++ after = [] := by
      rw [List.append_assoc] at hline
      exact hline.eq_nil
    rw [(List.append_eq_nil_iff.mp hnil).2]
    rfl
  | last line ends =>
    subst ends
    rfl

/-- Words other than punctuation have no mark. -/
theorem isMark_of_isWord {kind : Kind} {word : List Char} (h : IsWord kind word)
    (hkind : kind ≠ .punctuation) : ∀ c ∈ word, isMark c = false := by
  have hdigit {c : Char} (hc : c.isDigit = true) : isMark c = false :=
    isMark_eq_false (p := Char.isDigit) rfl hc
  have hpart {c : Char} (hc : isNamePart c = true) : isMark c = false :=
    isMark_eq_false (p := isNamePart) rfl hc
  have hname {c : Char} {cs : List Char} (hc : isNameStart c = true)
      (hcs : ∀ d ∈ cs, isNamePart d = true) : ∀ d ∈ c :: cs, isMark d = false :=
    List.forall_mem_cons.mpr
      ⟨isMark_eq_false (p := isNameStart) rfl hc, fun d hd => hpart (hcs d hd)⟩
  cases h with
  | whole hc hdigits =>
    exact List.forall_mem_cons.mpr ⟨hdigit hc, fun d hd => hdigit (hdigits d hd)⟩
  | decimal hc hwhole hfraction =>
    refine List.forall_mem_append.mpr ⟨?_, ?_⟩
    · exact List.forall_mem_cons.mpr ⟨hdigit hc, fun d hd => hdigit (hwhole d hd)⟩
    · exact List.forall_mem_cons.mpr ⟨rfl, fun d hd => hdigit (hfraction d hd)⟩
  | mark => exact List.forall_mem_singleton.mpr rfl
  | operator hall =>
    exact fun d hd => isMark_eq_false (p := isOperatorChar) rfl (hall d hd).1
  | punctuation => exact absurd rfl hkind
  | keyword hc hcs => exact hname hc hcs
  | identifier hc hcs => exact hname hc hcs

/-- A bracket is counted as its token is. -/
theorem depthChange_punctuation (c : Char) (pos : Position) :
    Token.depthChange ⟨.punctuation, Text.ofChars [c], pos⟩ = charChange c := by
  have hpunct (d : Char) : Token.isPunct ⟨.punctuation, Text.ofChars [c], pos⟩ (Text.ofChars [d]) =
      decide (c = d) := by
    simp [Token.isPunct, Text.ofChars_inj]
  have hopens : Token.opensBracket ⟨.punctuation, Text.ofChars [c], pos⟩ = opens c := by
    rw [opens, ← hpunct, ← hpunct, ← hpunct]
    rfl
  have hcloses : Token.closesBracket ⟨.punctuation, Text.ofChars [c], pos⟩ = closes c := by
    rw [closes, ← hpunct, ← hpunct, ← hpunct]
    rfl
  rw [Token.depthChange, hopens, hcloses, charChange]

/-- What is counted over a span is what its token adds. -/
theorem nestingFrom_span {rest span : List Char} {kind : Kind} {text : Text}
    (h : Span rest kind text span) (pos : Position) : nestingFrom none (span ++ rest) =
      Token.depthChange ⟨kind, text, pos⟩ + nestingFrom none rest := by
  cases h with
  | word spelled =>
    by_cases hkind : kind = .punctuation
    · subst hkind
      cases spelled with
      | @punctuation c only =>
        have hstart := (startsWord_of_isPunctuation only).1
        rw [depthChange_punctuation, List.singleton_append,
          nestingFrom_cons hstart.quote hstart.comment]
    · rw [nestingFrom_append_of_not_isMark (isMark_of_isWord spelled hkind),
        Token.depthChange_of_kind_ne hkind, zero_add]
  | string hopens hcloses =>
    rw [Token.depthChange_of_kind_ne (by simp), zero_add, List.append_assoc, List.cons_append,
      nestingFrom_quote hopens]
    exact (nestingFrom_inside hcloses).2 rest
  | unclosed hopens hcloses ends =>
    rw [Token.depthChange_of_kind_ne (by simp), zero_add, ends, List.append_nil,
      nestingFrom_quote hopens, (nestingFrom_inside hcloses).1]
    rfl
  | @stray c starts unknown =>
    -- All brackets are punctuation, so a character that is no word is none of them.
    have hcases : ∀ d ∈ marks, isQuote d = true ∨ d = '#' ∨ isPunctuation d = true := by
      simp [marks, isQuote, isPunctuation]
    have hmark : isMark c = false := by
      refine Bool.eq_false_iff.mpr fun hmark => ?_
      rcases hcases c (isMark_iff.mp hmark) with hquote | hcomment | hpunct
      · rw [starts.quote] at hquote
        cases hquote
      · exact starts.comment hcomment
      · exact unknown .punctuation (.punctuation hpunct)
    rw [Token.depthChange_of_kind_ne (by simp), zero_add,
      nestingFrom_append_of_not_isMark (List.forall_mem_singleton.mpr hmark)]

/-- What is counted over the characters of a line is what its tokens add. -/
theorem nestingFrom_tokenised {before cs : List Char} {ts : List Token}
    (h : Tokenised before cs ts) (hline : OnLine cs) :
    nestingFrom none cs = (ts.map Token.depthChange).sum := by
  induction h with
  | @eof before gap skipped =>
    have hgap := nestingFrom_gap skipped (by rwa [List.append_nil])
    rw [List.append_nil] at hgap
    rw [hgap]
    rfl
  | @token before gap span rest kind text tokens skipped stands more ih =>
    rw [List.append_assoc] at hline ⊢
    rw [nestingFrom_gap skipped hline, nestingFrom_span stands (.behind (before ++ gap)),
      ih hline.of_append.of_append, List.map_cons, List.sum_cons]

/-- The character with the number of a byte. -/
def byteChar (b : UInt8) : Char := Char.ofNat b.toNat

/-- A byte beyond ASCII is no mark. -/
theorem isMark_byteChar {b : UInt8} (hb : ¬b < 0x80) : isMark (byteChar b) = false := by
  have hle : 0x80 ≤ b.toNat := Nat.le_of_not_lt hb
  have hlt := b.toNat_lt
  exact isMark_of_le (le_toNat_ofNat hle (.inl (by omega)))

/-- The marks among the bytes of a character: the character itself, if it is one. -/
theorem filter_isMark_utf8EncodeChar (c : Char) :
    ((String.utf8EncodeChar c).map byteChar).filter isMark = [c].filter isMark := by
  have htail := fun b => continuation?_of_mem_tail (c := c) (b := b)
  have hlead := leading?_utf8EncodeChar c []
  cases hbytes : String.utf8EncodeChar c with
  | nil => exact absurd hbytes String.utf8EncodeChar_ne_nil
  | cons b tail =>
    rw [hbytes, List.tail_cons] at htail
    rw [hbytes, List.append_nil] at hlead
    have hnone : (tail.map byteChar).filter isMark = [] := by
      refine List.filter_eq_nil_iff.mpr (List.forall_mem_map.mpr fun x hx => ?_)
      obtain ⟨n, hn⟩ := Option.isSome_iff_exists.mp (htail x hx)
      have hascii : ¬x < 0x80 := by
        change ¬x.toNat < 0x80
        rw [(continuation?_eq_some_iff.mp hn).2]
        omega
      rw [isMark_byteChar hascii]
      exact Bool.false_ne_true
    have hfirst : [byteChar b].filter isMark = [c].filter isMark := by
      by_cases hb : b < 0x80
      · simp only [leading?, if_pos hb, Option.some.injEq, Prod.mk.injEq] at hlead
        rw [← hlead.1, byteChar]
      · rcases leading?_cases hlead with ⟨hascii, -⟩ | ⟨hc, -⟩
        · exact absurd hascii hb
        · rw [List.filter_singleton, List.filter_singleton, isMark_of_le hc, isMark_byteChar hb]
          rfl
    rw [List.map_cons, ← List.singleton_append, List.filter_append, hnone, hfirst, List.append_nil]

/-- The marks among characters are those among the bytes. -/
theorem filter_isMark_decode (bs : List UInt8) :
    (decode bs).filter isMark = (bs.map byteChar).filter isMark := by
  induction bs using decode_induction with
  | nil => rfl
  | char c rest ih =>
    rw [decode_utf8EncodeChar_append, List.map_append, List.filter_append,
      filter_isMark_utf8EncodeChar, ← ih, ← List.filter_append, List.singleton_append]
  | stray b rest hnone ih =>
    have hb : ¬b < 0x80 := by
      intro hb
      simp [leading?, hb] at hnone
    rw [decode_of_leading?_none hnone, List.map_cons, List.filter_cons_of_neg (by decide),
      List.filter_cons_of_neg (by simp [isMark_byteChar hb]), ih]

/-- Carriage returns that are dropped from the bytes change nothing in the count, also where one of
them interrupts a character. -/
theorem nestingFrom_decode_withoutReturns (bs : List UInt8) :
    nestingFrom none (decode (withoutReturns bs)) = nestingFrom none (decode bs) := by
  apply nestingFrom_congr
  rw [filter_isMark_decode, filter_isMark_decode, List.filter_map, List.filter_map, withoutReturns,
    List.filter_filter]
  refine congrArg (List.map byteChar) (List.filter_congr fun b _ => ?_)
  by_cases hb : b = carriageReturn
  · subst hb
    rfl
  · simp [hb]

/-- What is counted over a line that is still to come from its start is the balance of brackets
among its tokens, of which the last is the end. -/
theorem nestingFrom_eq_brackets {s : Scanner} (hs : s.source.Lined) (hheld : s.held = none)
    (hpos : s.source.pos = .behind []) (hline : OnLine s.source.rest) :
    s.tokens.1.getLast?.map Token.kind = some .eof ∧
      nestingFrom none s.source.rest =
        (s.tokens.1.countP Token.opensBracket : Int) - s.tokens.1.countP Token.closesBracket := by
  have hrounds : s.source.rest.length < s.size := by
    rw [Scanner.size, Source.size_eq]
    omega
  have htokens : Tokenised [] s.source.rest s.tokens.1 :=
    Scanner.tokenised_tokensWithin hs hheld hpos hrounds
  refine ⟨htokens.getLast?_kind, ?_⟩
  rw [nestingFrom_tokenised htokens hline, Token.sum_depthChange]

/-- A line is what stands before its line feed, with or without the line feed. -/
theorem takeWhile_line {line : List UInt8} (h : newline ∉ line.dropLast) :
    newline ∉ line.takeWhile (· ≠ newline) ∧ (line = line.takeWhile (· ≠ newline) ∨
      line = line.takeWhile (· ≠ newline) ++ [newline]) := by
  refine ⟨fun hmem => by simpa using List.mem_takeWhile_imp hmem, ?_⟩
  have hsplit := List.takeWhile_append_dropWhile (p := (· ≠ newline)) (l := line)
  cases hrest : line.dropWhile (· ≠ newline) with
  | nil =>
    rw [hrest, List.append_nil] at hsplit
    exact .inl hsplit.symm
  | cons b rest =>
    have hb : b = newline := by
      have hhead := List.head?_dropWhile_not (· ≠ newline) line
      rw [hrest] at hhead
      simpa using hhead
    rw [hrest, hb] at hsplit
    have hnil : rest = [] := by
      by_contra hne
      apply h
      rw [← hsplit, List.dropLast_append_of_ne_nil (List.cons_ne_nil _ _),
        List.dropLast_cons_of_ne_nil hne]
      exact List.mem_append_right _ List.mem_cons_self
    rw [hnil] at hsplit
    exact .inr hsplit.symm

/-- The characters of a line are on one line. -/
theorem onLine_decode {line : List UInt8} (h : newline ∉ line.dropLast) :
    OnLine ((decode line).filter (· ≠ '\r')) := by
  obtain ⟨hbody, hsplit⟩ := takeWhile_line h
  generalize line.takeWhile (· ≠ newline) = body at hbody hsplit
  have hleft : '\n' ∉ (decode body).filter (· ≠ '\r') :=
    fun hmem => newline_not_mem_decode hbody (List.mem_filter.mp hmem).1
  rcases hsplit with rfl | rfl
  · exact (onLine_of_not_mem hleft).1
  · rw [decode_append_newline, List.filter_append]
    exact (onLine_of_not_mem hleft).2

/-- Brackets are counted as they are scanned. The count of a walkthrough over a line, which has
a line feed at its end or none, is the number of opening brackets less the number of closing ones
among the tokens of the line through its end. The line may be scanned as a text, or be the only one
that is given when lines are asked for. -/
theorem nesting_counts_scanned_brackets (line : List UInt8) (hline : newline ∉ line.dropLast)
    (name log : Text) (logTokens : Bool) :
    ∀ source ∈ [Source.ofText (ofBytes line),
        Source.ofLines [some (ofBytes (line.takeWhile (· ≠ newline)))]],
      let s : Scanner := { source := source, name := name, logTokens := logTokens, log := log }
      s.tokens.1.getLast?.map Token.kind = some .eof ∧
        nesting line =
          (s.tokens.1.countP Token.opensBracket : Int) - s.tokens.1.countP Token.closesBracket := by
  intro source hsource
  rcases List.mem_pair.mp hsource with rfl | rfl
  · intro s
    have hrest : s.source.rest = (decode line).filter (· ≠ '\r') := Source.rest_of_feed_none rfl
    have hbrackets := nestingFrom_eq_brackets (s := s) (Source.lined_of_feed_none rfl) rfl rfl
      (hrest ▸ onLine_decode hline)
    rwa [hrest, nestingFrom_filter_return] at hbrackets
  · obtain ⟨hbody, hsplit⟩ := takeWhile_line hline
    generalize line.takeWhile (· ≠ newline) = body at hbody hsplit ⊢
    intro s
    have hkept : '\n' ∉ decode (withoutReturns body) :=
      newline_not_mem_decode fun hmem => hbody (List.mem_filter.mp hmem).1
    have hlined : s.source.Lined := by
      intro f hf
      cases hf
      exact ⟨.inl rfl, List.forall_mem_singleton.mpr (.inr ⟨_, hkept, rfl⟩)⟩
    have hrest : s.source.rest = decode (withoutReturns body) ++ ['\n'] :=
      (Source.rest_ofLines [ofBytes body]).trans (List.flatMap_singleton ..)
    have hcount : nesting line = nestingFrom none (decode body) := by
      rcases hsplit with rfl | rfl
      · rfl
      · exact nesting_append_newline body
    have hbrackets := nestingFrom_eq_brackets (s := s) hlined rfl rfl
      (hrest ▸ (onLine_of_not_mem hkept).2)
    rwa [hrest, nestingFrom_append_newline, nestingFrom_decode_withoutReturns,
      ← hcount] at hbrackets

/-- A line with a comment sign and a bracket in a string, a character of no word, a character that a
carriage return interrupts, and a bracket in a string that is not closed. Two brackets are left
open. -/
theorem brackets_of_unclosed_line :
    let line : List UInt8 := (ofString "f(\"#]\", \x7b[1 $ ) ").bytes ++ [0xE2, 13, 0x82, 0xAC] ++
      (ofString "'a]\n").bytes
    newline ∉ line.dropLast ∧ nesting line = 2 ∧
      ∀ source ∈ [Source.ofText (ofBytes line),
          Source.ofLines [some (ofBytes (line.takeWhile (· ≠ newline)))]],
        let s : Scanner := { source := source }
        (s.tokens.1.countP Token.opensBracket : Int) - s.tokens.1.countP Token.closesBracket =
          2 := by
  intro line
  have hline : newline ∉ line.dropLast := by decide +kernel
  have hcount : nesting line = 2 := by decide +kernel
  refine ⟨hline, hcount, fun source hsource => ?_⟩
  have hbrackets := (nesting_counts_scanned_brackets line hline "" "" false source hsource).2
  exact hbrackets.symm.trans hcount

end Walkthrough

end SymCalc
