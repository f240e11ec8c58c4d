import Mathlib
import SymCalc.Proofs.Utf8
import SymCalc.Proofs.Lookahead

/-!
# Bytes behind characters

A text is decoded before carriage returns are dropped, and a line after they were dropped from its
bytes. Main statement: lines that are asked for deliver the characters of the text that they make
up, with the same positions, unless a carriage return stands between the bytes of one character;
then, and only then, the line has a character that the text has not.
-/

namespace SymCalc

namespace Text

/-- Nothing is found at the front of the bytes exactly when they begin with no character. -/
theorem leading?_eq_none_iff {bs : List UInt8} :
    leading? bs = none ↔ ∀ c rest, bs ≠ String.utf8EncodeChar c ++ rest := by
  constructor
  · rintro h c rest rfl
    rw [leading?_utf8EncodeChar] at h
    cases h
  · intro h
    cases hlead : leading? bs with
    | none => rfl
    | some found =>
      obtain ⟨rest, hbs⟩ := leading?_sound hlead
      exact absurd hbs (h _ _)

/-- A byte that begins no character is decoded on its own. -/
theorem decode_of_leading?_none {b : UInt8} {bs : List UInt8} (h : leading? (b :: bs) = none) :
    decode (b :: bs) = replacement :: decode bs := by
  simp only [decode, segments, segmentsFrom, h, List.map_cons]

/-- Bytes are nothing, the bytes of a character before others, or a byte that begins no character
before others. -/
theorem decode_induction {P : List UInt8 → Prop} (nil : P [])
    (char : ∀ c rest, P rest → P (String.utf8EncodeChar c ++ rest))
    (stray : ∀ b rest, leading? (b :: rest) = none → P rest → P (b :: rest))
    (bs : List UInt8) : P bs := by
  induction hlength : bs.length using Nat.strong_induction_on generalizing bs with
  | _ n ih =>
    cases bs with
    | nil => exact nil
    | cons b bs =>
      cases hlead : leading? (b :: bs) with
      | none => exact stray b bs hlead (ih bs.length (by rw [← hlength]; simp) bs rfl)
      | some found =>
        obtain ⟨rest, hbs⟩ := leading?_sound hlead
        have hne := List.length_pos_of_ne_nil (String.utf8EncodeChar_ne_nil (c := found.1))
        have hless : rest.length < n := by
          rw [← hlength, hbs, List.length_append]
          omega
        rw [hbs]
        exact char found.1 rest (ih rest.length hless rest rfl)

/-- Bytes and the characters that they stand for: the bytes of a character stand for it, and a byte
that begins no character stands for one replacement character. -/
inductive Decoded : List UInt8 → List Char → Prop where
  /-- No bytes. -/
  | nil : Decoded [] []
  /-- A character in front. -/
  | char (c : Char) {rest : List UInt8} {cs : List Char} (later : Decoded rest cs) :
      Decoded (String.utf8EncodeChar c ++ rest) (c :: cs)
  /-- A byte in front that begins no character. -/
  | stray {b : UInt8} {rest : List UInt8} {cs : List Char}
      (alone : ∀ c tail, b :: rest ≠ String.utf8EncodeChar c ++ tail) (later : Decoded rest cs) :
      Decoded (b :: rest) (replacement :: cs)

/-- Decoding gives the characters that the bytes stand for, and no others do. -/
theorem decoded_iff {bs : List UInt8} {cs : List Char} : Decoded bs cs ↔ decode bs = cs := by
  constructor
  · intro h
    induction h with
    | nil => rfl
    | char c later ih => rw [decode_utf8EncodeChar_append, ih]
    | stray alone later ih => rw [decode_of_leading?_none (leading?_eq_none_iff.mpr alone), ih]
  · rintro rfl
    induction bs using decode_induction with
    | nil => exact .nil
    | char c rest ih =>
      rw [decode_utf8EncodeChar_append]
      exact .char c ih
    | stray b rest hnone ih =>
      rw [decode_of_leading?_none hnone]
      exact .stray (leading?_eq_none_iff.mp hnone) ih

/-- All bytes of a character but the first are continuation bytes. -/
theorem continuation?_of_mem_tail {c : Char} {b : UInt8}
    (h : b ∈ (String.utf8EncodeChar c).tail) : (continuation? b).isSome := by
  have hmark (n : Nat) : (continuation? (UInt8.ofNat (n % 64 + 128))).isSome := by
    rw [continuation?_byte (by omega)]
    rfl
  unfold String.utf8EncodeChar at h
  dsimp only at h
  split at h
  · cases h
  split at h
  · simp only [List.tail_cons, List.mem_cons, List.not_mem_nil, or_false] at h
    rw [h]
    exact hmark _
  split at h
  · simp only [List.tail_cons, List.mem_cons, List.not_mem_nil, or_false] at h
    rcases h with rfl | rfl <;> exact hmark _
  · simp only [List.tail_cons, List.mem_cons, List.not_mem_nil, or_false] at h
    rcases h with rfl | rfl | rfl <;> exact hmark _

/-- A continuation byte begins no character. -/
theorem leading?_of_continuation? {b : UInt8} (h : (continuation? b).isSome) (bs : List UInt8) :
    leading? (b :: bs) = none := by
  obtain ⟨n, hn⟩ := Option.isSome_iff_exists.mp h
  obtain ⟨hsmall, hbyte⟩ := continuation?_eq_some_iff.mp hn
  have hascii : ¬b < 0x80 := by
    change ¬b.toNat < 0x80
    omega
  have hnone : b < 0xC2 := by
    change b.toNat < 0xC2
    omega
  simp only [leading?, if_neg hascii, if_pos hnone]

/-- Continuation bytes that follow no beginning are decoded one by one. -/
theorem decode_append_continuations {tail : List UInt8}
    (h : ∀ b ∈ tail, (continuation? b).isSome) (rest : List UInt8) :
    decode (tail ++ rest) = List.replicate tail.length replacement ++ decode rest := by
  induction tail with
  | nil => rfl
  | cons b tail ih =>
    obtain ⟨hb, htail⟩ := List.forall_mem_cons.mp h
    rw [List.cons_append, decode_of_leading?_none (leading?_of_continuation? hb _), ih htail]
    rfl

/-- The bytes that are left when carriage returns are dropped. -/
abbrev withoutReturns (bs : List UInt8) : List UInt8 := bs.filter (· ≠ carriageReturn)

/-- The bytes of a character, with carriage returns between them. -/
structure Broken (bs : List UInt8) (c : Char) : Prop where
  /-- Without the carriage returns the bytes are those of the character. -/
  bytes : withoutReturns bs = String.utf8EncodeChar c
  /-- There is a carriage return. -/
  return_mem : carriageReturn ∈ bs
  /-- It is not the first byte. -/
  first : bs.head? ≠ some carriageReturn
  /-- It is not the last byte. -/
  last : bs.getLast? ≠ some carriageReturn

/-- The bytes begin with a character that is interrupted by carriage returns. -/
def InterruptedAtFront (bs : List UInt8) : Prop :=
  ∃ inside after c, bs = inside ++ after ∧ Broken inside c

/-- Among the bytes there is a character that is interrupted by carriage returns. -/
def Interrupted (bs : List UInt8) : Prop :=
  ∃ before inside after c, bs = before ++ (inside ++ after) ∧ Broken inside c

/-- Broken bytes are not nothing. -/
theorem Broken.ne_nil {bs : List UInt8} {c : Char} (h : Broken bs c) : bs ≠ [] :=
  List.ne_nil_of_mem h.return_mem

/-- Where there are no bytes, none are interrupted. -/
theorem not_interrupted_nil : ¬Interrupted [] := by
  rintro ⟨before, inside, after, c, hbs, hbroken⟩
  exact hbroken.ne_nil (List.append_eq_nil_iff.mp (List.append_eq_nil_iff.mp hbs.symm).2).1

/-- An interrupted character stands in front or further on. -/
theorem interrupted_cons {b : UInt8} {bs : List UInt8} :
    Interrupted (b :: bs) ↔ InterruptedAtFront (b :: bs) ∨ Interrupted bs := by
  constructor
  · rintro ⟨before, inside, after, c, hbs, hbroken⟩
    cases before with
    | nil => exact .inl ⟨inside, after, c, hbs, hbroken⟩
    | cons b' before =>
      obtain ⟨-, rfl⟩ := List.cons.inj hbs
      exact .inr ⟨before, inside, after, c, rfl, hbroken⟩
  · rintro (⟨inside, after, c, hbs, hbroken⟩ | ⟨before, inside, after, c, rfl, hbroken⟩)
    · exact ⟨[], inside, after, c, hbs, hbroken⟩
    · exact ⟨b :: before, inside, after, c, rfl, hbroken⟩

/-- A carriage return in front interrupts nothing. -/
theorem interrupted_cons_return {bs : List UInt8} :
    Interrupted (carriageReturn :: bs) ↔ Interrupted bs := by
  refine interrupted_cons.trans (or_iff_right ?_)
  rintro ⟨inside, after, c, hbs, hbroken⟩
  cases inside with
  | nil => exact hbroken.ne_nil rfl
  | cons b inside =>
    obtain ⟨rfl, -⟩ := List.cons.inj hbs
    exact hbroken.first rfl

/-- Dropping carriage returns behind the bytes of another character leaves its bytes. -/
theorem withoutReturns_utf8EncodeChar_append {c : Char} (hc : c ≠ '\r') (rest : List UInt8) :
    withoutReturns (String.utf8EncodeChar c ++ rest) =
      String.utf8EncodeChar c ++ withoutReturns rest := by
  rw [withoutReturns, List.filter_append, filter_utf8EncodeChar hc]

/-- Only the carriage return has bytes that begin with one. -/
theorem ne_return_of_cons {b : UInt8} {bs rest : List UInt8} {c : Char} (hb : b ≠ carriageReturn)
    (h : b :: bs = String.utf8EncodeChar c ++ rest) : c ≠ '\r' := by
  rintro rfl
  exact hb (List.cons.inj h).1

/-- Where broken bytes stand, the bytes of their character do not. -/
theorem Broken.append_ne {inside : List UInt8} {c : Char} (h : Broken inside c) (hc : c ≠ '\r')
    (after rest : List UInt8) : inside ++ after ≠ String.utf8EncodeChar c ++ rest := by
  have hwhole : carriageReturn ∉ String.utf8EncodeChar c := mt eq_of_carriageReturn_mem hc
  intro heq
  rcases List.append_eq_append_iff.mp heq with ⟨more, hmore, -⟩ | ⟨more, hmore, -⟩
  · exact hwhole (hmore ▸ List.mem_append_left more h.return_mem)
  · -- What follows the bytes of the character could only be carriage returns.
    have hreturns : withoutReturns more = [] := by
      have hbytes := h.bytes
      rw [hmore, withoutReturns_utf8EncodeChar_append hc] at hbytes
      exact List.append_right_eq_self.mp hbytes
    rcases List.eq_nil_or_concat more with rfl | ⟨init, last, rfl⟩
    · rw [List.append_nil] at hmore
      exact hwhole (hmore ▸ h.return_mem)
    · have hlast := List.filter_eq_nil_iff.mp hreturns last (by simp)
      refine h.last ?_
      rw [hmore, List.concat_eq_append, ← List.append_assoc, List.getLast?_concat]
      simpa using hlast

/-- Without their carriage returns, some bytes begin with a character. Up to its last byte they are
broken, or are the bytes of the character. -/
theorem exists_broken {bs rest : List UInt8} {c : Char}
    (h : withoutReturns bs = String.utf8EncodeChar c ++ rest)
    (hfirst : bs.head? ≠ some carriageReturn) :
    (∃ inside after, bs = inside ++ after ∧ Broken inside c) ∨
      ∃ after, bs = String.utf8EncodeChar c ++ after := by
  obtain ⟨init, last, henc⟩ :=
    (List.eq_nil_or_concat (String.utf8EncodeChar c)).resolve_left String.utf8EncodeChar_ne_nil
  rw [henc, List.concat_eq_append, List.append_assoc] at h
  obtain ⟨front, back, rfl, hfront, hback⟩ := List.filter_eq_append_iff.mp h
  obtain ⟨returns, after, rfl, hreturns, hlast, -⟩ := List.filter_eq_cons_iff.mp hback
  have hbytes : withoutReturns (front ++ returns ++ [last]) = String.utf8EncodeChar c := by
    rw [henc, List.concat_eq_append, withoutReturns, List.filter_append, List.filter_append,
      hfront, List.filter_eq_nil_iff.mpr hreturns, List.append_nil, List.filter_singleton, hlast]
    rfl
  have hsplit : front ++ (returns ++ last :: after) = front ++ returns ++ [last] ++ after := by simp
  rw [hsplit] at hfirst ⊢
  by_cases hmem : carriageReturn ∈ front ++ returns ++ [last]
  · refine .inl ⟨_, after, rfl, hbytes, hmem, ?_, ?_⟩
    · rwa [List.head?_append_of_ne_nil _ (List.ne_nil_of_mem hmem)] at hfirst
    · rw [List.getLast?_concat]
      simpa using hlast
  · refine .inr ⟨after, congrArg (· ++ after) ?_⟩
    rw [← hbytes]
    exact (List.filter_eq_self.mpr fun b hb => decide_eq_true (ne_of_mem_of_not_mem hb hmem)).symm

/-- A character is interrupted in front exactly when the bytes begin with one only without their
carriage returns. -/
theorem interruptedAtFront_iff {b : UInt8} {bs : List UInt8} (hb : b ≠ carriageReturn) :
    InterruptedAtFront (b :: bs) ↔
      leading? (b :: bs) = none ∧ leading? (b :: withoutReturns bs) ≠ none := by
  have hkeep : withoutReturns (b :: bs) = b :: withoutReturns bs :=
    List.filter_cons_of_pos (decide_eq_true hb)
  rw [← hkeep]
  constructor
  · rintro ⟨inside, after, c, hbs, hbroken⟩
    have hwithout : withoutReturns (b :: bs) = String.utf8EncodeChar c ++ withoutReturns after := by
      rw [hbs, withoutReturns, List.filter_append]
      exact congrArg (· ++ _) hbroken.bytes
    refine ⟨leading?_eq_none_iff.mpr fun c' rest hrest => ?_, fun hnone => ?_⟩
    · -- Otherwise the same character would stand there without an interruption.
      have hc' := ne_return_of_cons hb hrest
      have hsame : c' = c := by
        have hlead := leading?_utf8EncodeChar c (withoutReturns after)
        rw [← hwithout, hrest, withoutReturns_utf8EncodeChar_append hc',
          leading?_utf8EncodeChar] at hlead
        exact (Prod.mk.inj (Option.some.inj hlead)).1
      subst hsame
      exact hbroken.append_ne hc' after rest (hbs ▸ hrest)
    · exact leading?_eq_none_iff.mp hnone c _ hwithout
  · rintro ⟨hnone, hsome⟩
    obtain ⟨⟨c, n⟩, hlead⟩ := Option.ne_none_iff_exists'.mp hsome
    obtain ⟨rest, hrest⟩ := leading?_sound hlead
    rcases exists_broken hrest (by simpa using hb) with ⟨inside, after, hbs, hbroken⟩ | ⟨after, hbs⟩
    · exact ⟨inside, after, c, hbs, hbroken⟩
    · exact absurd hbs (leading?_eq_none_iff.mp hnone c after)

/-- Continuation bytes in front, without a beginning, are not interrupted. -/
theorem interrupted_append_continuations {tail : List UInt8}
    (h : ∀ b ∈ tail, (continuation? b).isSome) (rest : List UInt8) :
    Interrupted (tail ++ rest) ↔ Interrupted rest := by
  induction tail with
  | nil => rfl
  | cons b tail ih =>
    obtain ⟨hb, htail⟩ := List.forall_mem_cons.mp h
    have hreturn : b ≠ carriageReturn := by
      rintro rfl
      cases hb
    rw [List.cons_append, interrupted_cons, interruptedAtFront_iff hreturn, ih htail]
    exact or_iff_right fun hfront => hfront.2 (leading?_of_continuation? hb _)

/-- The bytes of a character are not interrupted. -/
theorem interrupted_utf8EncodeChar_append (c : Char) (rest : List UInt8) :
    Interrupted (String.utf8EncodeChar c ++ rest) ↔ Interrupted rest := by
  by_cases hc : c = '\r'
  · subst hc
    exact interrupted_cons_return
  · have htail := fun b => continuation?_of_mem_tail (c := c) (b := b)
    have hsome := leading?_utf8EncodeChar c rest
    cases henc : String.utf8EncodeChar c with
    | nil => exact absurd henc String.utf8EncodeChar_ne_nil
    | cons b tail =>
      rw [henc, List.tail_cons] at htail
      rw [henc] at hsome
      have hreturn : b ≠ carriageReturn := by
        rintro rfl
        exact hc (eq_of_carriageReturn_mem (henc ▸ List.mem_cons_self))
      rw [List.cons_append, interrupted_cons, interruptedAtFront_iff hreturn,
        interrupted_append_continuations htail]
      refine or_iff_right fun hfront => ?_
      rw [List.cons_append, hfront.1] at hsome
      cases hsome

/-- The first byte of a longer character takes its further bytes, which without it would be
characters of their own. -/
theorem length_decode_cons_le {b : UInt8} {bs : List UInt8} (hlead : leading? (b :: bs) ≠ none)
    (hb : ∀ c, String.utf8EncodeChar c ≠ [b]) : (decode (b :: bs)).length ≤ (decode bs).length := by
  obtain ⟨⟨c, n⟩, hfound⟩ := Option.ne_none_iff_exists'.mp hlead
  obtain ⟨rest, hrest⟩ := leading?_sound hfound
  have htail := fun x => continuation?_of_mem_tail (c := c) (b := x)
  have hchar : decode (b :: bs) = c :: decode rest := by
    rw [hrest, decode_utf8EncodeChar_append]
  cases henc : String.utf8EncodeChar c with
  | nil => exact absurd henc String.utf8EncodeChar_ne_nil
  | cons b' tail =>
    rw [henc, List.tail_cons] at htail
    rw [henc, List.cons_append] at hrest
    obtain ⟨rfl, rfl⟩ := List.cons.inj hrest
    have hne : tail ≠ [] := fun hnil => hb c (hnil ▸ henc)
    have hpos := List.length_pos_of_ne_nil hne
    rw [hchar, decode_append_continuations htail, List.length_append, List.length_replicate,
      List.length_cons]
    omega

/-- Characters are no more than others, fewer if something has happened, and the same otherwise. -/
structure Shortened (happened : Prop) (cs ds : List Char) : Prop where
  /-- They are no more. -/
  le : cs.length ≤ ds.length
  /-- They are fewer if it has happened. -/
  lt : happened → cs.length < ds.length
  /-- They are the same if it has not. -/
  eq : ¬happened → cs = ds

/-- One character more in front of both. -/
theorem Shortened.cons {happened : Prop} {cs ds : List Char} (h : Shortened happened cs ds)
    (c : Char) : Shortened happened (c :: cs) (c :: ds) :=
  ⟨Nat.succ_le_succ h.le, fun hp => Nat.succ_lt_succ (h.lt hp),
    fun hp => congrArg (c :: ·) (h.eq hp)⟩

/-- An interruption makes a line shorter when its carriage returns are dropped before it is
decoded, and not after; without one both give the same characters. -/
theorem decode_withoutReturns (bs : List UInt8) :
    Shortened (Interrupted bs) (decode (withoutReturns bs)) ((decode bs).filter (· ≠ '\r')) := by
  induction bs using decode_induction with
  | nil => exact ⟨le_refl _, fun h => absurd h not_interrupted_nil, fun _ => rfl⟩
  | char c rest ih =>
    rw [interrupted_utf8EncodeChar_append, decode_utf8EncodeChar_append]
    by_cases hc : c = '\r'
    · subst hc
      exact ih
    · rw [withoutReturns_utf8EncodeChar_append hc, decode_utf8EncodeChar_append,
        List.filter_cons_of_pos (by simpa using hc)]
      exact ih.cons c
  | stray b rest hnone ih =>
    have hb : b ≠ carriageReturn := by
      rintro rfl
      cases hnone
    have hkeep : withoutReturns (b :: rest) = b :: withoutReturns rest :=
      List.filter_cons_of_pos (decide_eq_true hb)
    rw [interrupted_cons, interruptedAtFront_iff hb, decode_of_leading?_none hnone,
      List.filter_cons_of_pos (by decide), hkeep]
    by_cases hlead : leading? (b :: withoutReturns rest) = none
    · rw [decode_of_leading?_none hlead, or_iff_right fun h => h.2 hlead]
      exact ih.cons replacement
    · -- A character is interrupted here: its further bytes count as characters of their own when
      -- the carriage returns are still there.
      have halone (c : Char) : String.utf8EncodeChar c ≠ [b] := fun henc =>
        leading?_eq_none_iff.mp hnone c rest (by rw [henc]; rfl)
      have hless : (decode (b :: withoutReturns rest)).length <
          (replacement :: (decode rest).filter (· ≠ '\r')).length :=
        Nat.lt_succ_of_le ((length_decode_cons_le hlead halone).trans ih.le)
      exact ⟨hless.le, fun _ => hless, fun hnot => absurd (.inl ⟨hnone, hlead⟩) hnot⟩

/-- Dropping carriage returns from the bytes gives the characters that dropping them from the
characters gives, exactly when no character is interrupted. -/
theorem decode_withoutReturns_iff {bs : List UInt8} :
    decode (withoutReturns bs) = (decode bs).filter (· ≠ '\r') ↔ ¬Interrupted bs :=
  ⟨fun heq h => ((decode_withoutReturns bs).lt h).ne (congrArg List.length heq),
    (decode_withoutReturns bs).eq⟩

/-- The text that lines make up, each with a line feed behind it. -/
def joined (lines : List Text) : Text := ofBytes (lines.flatMap fun line => line.bytes ++ [newline])

/-- Lines with line feeds behind them are decoded one by one. -/
theorem decode_flatMap_line (f : Text → List UInt8) (lines : List Text) :
    decode (lines.flatMap fun line => f line ++ [newline]) =
      lines.flatMap fun line => decode (f line) ++ ['\n'] := by
  induction lines with
  | nil => rfl
  | cons line lines ih =>
    rw [List.flatMap_cons, List.flatMap_cons, List.append_assoc, List.singleton_append,
      decode_append_newline, ih, List.append_assoc, List.singleton_append]

/-- Lines without line feeds are known from what they make up. -/
theorem flatMap_line_inj {lines : List Text} {f g : Text → List Char}
    (hf : ∀ line ∈ lines, '\n' ∉ f line) (hg : ∀ line ∈ lines, '\n' ∉ g line) :
    (lines.flatMap fun line => f line ++ ['\n']) = (lines.flatMap fun line => g line ++ ['\n']) ↔
      ∀ line ∈ lines, f line = g line := by
  induction lines with
  | nil => simp
  | cons line lines ih =>
    obtain ⟨hf, hf'⟩ := List.forall_mem_cons.mp hf
    obtain ⟨hg, hg'⟩ := List.forall_mem_cons.mp hg
    rw [List.flatMap_cons, List.flatMap_cons, List.append_assoc, List.append_assoc,
      List.singleton_append, List.singleton_append, List.forall_mem_cons, ← ih hf' hg']
    refine ⟨cut_inj hf hg, ?_⟩
    rintro ⟨hline, hlines⟩
    rw [hline, hlines]

/-- A line feed among the characters is one among the bytes. -/
theorem newline_not_mem_decode {bs : List UInt8} (h : newline ∉ bs) : '\n' ∉ decode bs :=
  fun hmem => h (mem_of_mem_decode hmem (by decide))

end Text

namespace Source

/-- The source after as many characters were taken. -/
def past (s : Source) : Nat → Source
  | 0 => s
  | n + 1 => past s.next.2 n

/-- What is delivered when a character is asked for after as many others: the position before it,
and the character if there is one. -/
def delivery (s : Source) (i : Nat) : Position × Option Char := ((s.past i).pos, (s.past i).next.1)

/-- Taking a character takes the first of those to come. -/
theorem next_rest (s : Source) : s.next.1 = s.rest.head? ∧ s.next.2.rest = s.rest.tail ∧
    s.next.2.pos = s.pos.advanceAll (s.rest.take 1) := by
  cases hchars : s.fill.chars with
  | nil =>
    have hnext : s.next = (none, s.fill) := by simp only [next, hchars]
    obtain ⟨hrest, -⟩ := rest_of_chars_fill hchars
    rw [hnext, hrest]
    exact ⟨rfl, (rest_fill s).trans hrest, pos_fill s⟩
  | cons c cs =>
    have hnext : s.next = (some c, { s.fill with chars := cs, pos := s.fill.pos.advance c }) := by
      simp only [next, hchars]
    have hrest : s.rest = c :: s.next.2.rest := by
      rw [← rest_fill, hnext, rest, rest, hchars, List.cons_append]
    rw [hrest, hnext]
    exact ⟨rfl, rfl, congrArg (·.advance c) (pos_fill s)⟩

/-- What is delivered is what is still to come, one character after the other, each at the place
to which those before it lead. -/
theorem delivery_eq (s : Source) (i : Nat) :
    s.delivery i = (s.pos.advanceAll (s.rest.take i), s.rest[i]?) := by
  induction i generalizing s with
  | zero => exact Prod.ext rfl (s.next_rest.1.trans List.head?_eq_getElem?)
  | succ i ih =>
    obtain ⟨-, hrest, hpos⟩ := s.next_rest
    have hlater : s.delivery (i + 1) = s.next.2.delivery i := rfl
    have htake : s.rest.take 1 ++ s.rest.tail.take i = s.rest.take (i + 1) := by
      cases s.rest with
      | nil => simp
      | cons c cs => rfl
    rw [hlater, ih, hrest, hpos, ← Position.advanceAll_append, htake, List.getElem?_tail]

/-- Sources at the same place deliver the same exactly when the same is still to come. -/
theorem delivery_eq_iff {s t : Source} (hpos : s.pos = t.pos) :
    (∀ i, s.delivery i = t.delivery i) ↔ s.rest = t.rest := by
  constructor
  · intro h
    refine List.ext_getElem? fun i => ?_
    have hi := congrArg Prod.snd (h i)
    rwa [delivery_eq, delivery_eq] at hi
  · intro h i
    rw [delivery_eq, delivery_eq, h, hpos]

/-- What is to come from lines that are asked for. -/
theorem rest_ofLines (lines : List Text) : (ofLines (lines.map some)).rest =
    lines.flatMap fun line => Text.decode (Text.withoutReturns line.bytes) ++ ['\n'] := by
  change (lines.map some).flatMap Line.chars = _
  rw [List.flatMap_map]
  rfl

/-- What is to come from the text that lines make up. -/
theorem rest_ofText_joined (lines : List Text) : (ofText (Text.joined lines)).rest =
    lines.flatMap fun line => (Text.decode line.bytes).filter (· ≠ '\r') ++ ['\n'] := by
  rw [rest_of_feed_none rfl, ofText, Text.chars, Text.joined, Text.bytes_ofBytes,
    Text.decode_flatMap_line, List.filter_flatMap]
  refine congrArg (List.flatMap · lines) (funext fun line => ?_)
  rw [List.filter_append]
  rfl

end Source

/-- Lines deliver what the text that they make up delivers, characters and positions, exactly
when no character of a line is interrupted by carriage returns. The text delivers the characters
that its bytes stand for, less carriage returns; a byte that begins no character stands for one
replacement character. The lines deliver the characters that the bytes stand for once carriage
returns are dropped from them. -/
theorem lines_deliver_text_unless_interrupted (lines : List Text)
    (hlines : ∀ line ∈ lines, Text.newline ∉ line.bytes) :
    (∃ cs, Text.Decoded (Text.joined lines).bytes cs ∧
      ∀ i, (Source.ofText (Text.joined lines)).delivery i =
        (Position.ofIndex (cs.filter (· ≠ '\r')) i, (cs.filter (· ≠ '\r'))[i]?)) ∧
    (∃ cs, Text.Decoded (Text.withoutReturns (Text.joined lines).bytes) cs ∧
      ∀ i, (Source.ofLines (lines.map some)).delivery i = (Position.ofIndex cs i, cs[i]?)) ∧
    ((∀ i, (Source.ofLines (lines.map some)).delivery i =
        (Source.ofText (Text.joined lines)).delivery i) ↔
      ∀ line ∈ lines, ¬Text.Interrupted line.bytes) := by
  refine ⟨⟨_, Text.decoded_iff.mpr rfl, fun i => ?_⟩, ⟨_, Text.decoded_iff.mpr rfl, fun i => ?_⟩, ?_⟩
  · rw [Source.delivery_eq, Source.rest_of_feed_none rfl]
    rfl
  · have hbytes : Text.withoutReturns (Text.joined lines).bytes =
        lines.flatMap fun line => Text.withoutReturns line.bytes ++ [Text.newline] := by
      rw [Text.joined, Text.bytes_ofBytes, Text.withoutReturns, List.filter_flatMap]
      refine congrArg (List.flatMap · lines) (funext fun line => ?_)
      rw [List.filter_append]
      rfl
    rw [Source.delivery_eq, Source.rest_ofLines, hbytes, Text.decode_flatMap_line]
    rfl
  · have hkept (line : Text) (hline : line ∈ lines) :
        '\n' ∉ Text.decode (Text.withoutReturns line.bytes) :=
      Text.newline_not_mem_decode fun hmem => hlines line hline (List.mem_filter.mp hmem).1
    have hleft (line : Text) (hline : line ∈ lines) :
        '\n' ∉ (Text.decode line.bytes).filter (· ≠ '\r') :=
      fun hmem => Text.newline_not_mem_decode (hlines line hline) (List.mem_filter.mp hmem).1
    have hstart : (Source.ofLines (lines.map some)).pos = (Source.ofText (Text.joined lines)).pos :=
      rfl
    rw [Source.delivery_eq_iff hstart, Source.rest_ofLines, Source.rest_ofText_joined,
      Text.flatMap_line_inj hkept hleft]
    exact forall₂_congr fun line _ => Text.decode_withoutReturns_iff

/-- The three bytes of a character with a carriage return behind the first of them are that character
when they are a line, and three replacement characters in a text. -/
theorem interrupted_line_and_text_differ :
    let lines : List Text := [Text.ofBytes [0x61, 13], Text.ofBytes [0xE2, 13, 0x82, 0xAC]]
    (∀ line ∈ lines, Text.newline ∉ line.bytes) ∧
      ¬∀ i, (Source.ofLines (lines.map some)).delivery i =
        (Source.ofText (Text.joined lines)).delivery i := by
  intro lines
  have hlines : ∀ line ∈ lines, Text.newline ∉ line.bytes := by decide
  have hbroken : Text.Broken [0xE2, 13, 0x82, 0xAC] '€' :=
    ⟨by decide, by decide, by decide, by decide⟩
  refine ⟨hlines, fun hsame => ?_⟩
  have hnone := (lines_deliver_text_unless_interrupted lines hlines).2.2.mp hsame
  exact hnone _ (List.mem_cons_of_mem _ List.mem_cons_self) ⟨[], _, [], '€', rfl, hbroken⟩

end SymCalc
