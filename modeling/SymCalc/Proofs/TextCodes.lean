import Mathlib
import SymCalc.Proofs.Utf8

/-!
# Codes that can be read again

A text stands for something if what it stands for is known from the text and the first character
that follows it. Main statements: runs of characters of one kind are known, and so are lists of
known texts with separators between them.
-/

namespace SymCalc

namespace Text

/-- The first character of some bytes. -/
def front (bs : List UInt8) : Option Char := (decode bs).head?

/-- The first character of a text that has one is the first of what it starts. -/
theorem front_append {t : Text} {c : Char} {cs : List Char} (ht : t = ofChars (c :: cs))
    (rest : List UInt8) : front (t.bytes ++ rest) = some c := by
  rw [front, ht, decode_ofChars_append]
  rfl

/-- A text is made of characters that pass a test. -/
def MadeOf (p : Char → Bool) (t : Text) : Prop := ∃ cs, t = ofChars cs ∧ ∀ c ∈ cs, p c = true

end Text

open Text

section Codes

variable {α β : Type}

/-- What a text stands for is known from the text and what follows it, if the first character that
follows is of some kind. -/
def Decodes (C : Option Char → Prop) (P : α → Prop) (code : α → Text) (meaning : α → β)
    (x : α) : Prop :=
  ∀ y, P y → ∀ rest rest', C (front rest) → C (front rest') →
    (code x).bytes ++ rest = (code y).bytes ++ rest' → meaning x = meaning y ∧ rest = rest'

variable {C : Option Char → Prop} {P : α → Prop} {code : α → Text} {meaning : α → β} {sep : Text}
  {d : Char} {ds : List Char} {x : α} {xs : List α}

/-- A text of characters that pass a test is known where a character follows that does not. -/
theorem decodes_of_madeOf {p : Char → Bool}
    (hmeaning : ∀ y, code x = code y → meaning x = meaning y) (hx : MadeOf p (code x)) :
    Decodes (fun c => ∃ d, c = some d ∧ p d = false) (fun y => MadeOf p (code y)) code meaning
      x := by
  have htaken {cs : List Char} {rest : List UInt8} (hcs : ∀ c ∈ cs, p c = true)
      (hrest : ∃ d, front rest = some d ∧ p d = false) :
      (cs ++ decode rest).takeWhile p = cs := by
    obtain ⟨d, hfront, hd⟩ := hrest
    obtain ⟨ds, hdecode⟩ := List.head?_eq_some_iff.mp hfront
    rw [hdecode, List.takeWhile_append_of_pos hcs, List.takeWhile_cons_of_neg (by simp [hd]),
      List.append_nil]
  rintro y ⟨cs', hy, hcs'⟩ rest rest' hrest hrest' h
  obtain ⟨cs, hx, hcs⟩ := hx
  have hchars := congrArg decode h
  rw [hx, hy, decode_ofChars_append, decode_ofChars_append] at hchars
  have hsame : cs = cs' := by rw [← htaken hcs hrest, hchars, htaken hcs' hrest']
  have hcode : code x = code y := by rw [hx, hy, hsame]
  rw [hcode] at h
  exact ⟨hmeaning y hcode, List.append_cancel_left h⟩

/-- Texts of characters that pass a test are told apart before a separator that does not. -/
theorem madeOf_cut {p : Char → Bool} {t t' : Text} (ht : MadeOf p t) (ht' : MadeOf p t')
    (hsep : sep = ofChars (d :: ds)) (hd : p d = false) {rest rest' : List UInt8}
    (h : t.bytes ++ (sep.bytes ++ rest) = t'.bytes ++ (sep.bytes ++ rest')) :
    t = t' ∧ rest = rest' := by
  have hfront (s : List UInt8) : ∃ c, front (sep.bytes ++ s) = some c ∧ p c = false :=
    ⟨d, front_append hsep s, hd⟩
  have hknown : Decodes _ (fun u => MadeOf p (id u)) id id t :=
    decodes_of_madeOf (fun _ hu => hu) ht
  obtain ⟨htext, hrest⟩ := hknown t' ht' _ _ (hfront rest) (hfront rest') h
  exact ⟨htext, List.append_cancel_left hrest⟩

/-- Texts behind separators. -/
def followers (sep : Text) (code : α → Text) (xs : List α) : List UInt8 :=
  xs.flatMap fun x => sep.bytes ++ (code x).bytes

/-- Texts put together are the first, and the others behind separators. -/
theorem bytes_join_cons (sep : Text) (code : α → Text) (x : α) (xs : List α) :
    (Text.join sep ((x :: xs).map code)).bytes = (code x).bytes ++ followers sep code xs := by
  induction xs generalizing x with
  | nil => exact (List.append_nil _).symm
  | cons y ys ih =>
    rw [List.map_cons, Text.join_cons _ _ (by simp), bytes_append, bytes_append, ih, followers,
      followers, List.flatMap_cons, List.append_assoc, List.append_assoc]

/-- After texts behind separators comes a separator or what follows them. -/
theorem front_followers (hsep : sep = ofChars (d :: ds)) (hd : C (some d)) (xs : List α)
    {rest : List UInt8} (hrest : C (front rest)) : C (front (followers sep code xs ++ rest)) := by
  cases xs with
  | nil => exact hrest
  | cons x xs =>
    rw [followers, List.flatMap_cons, List.append_assoc, List.append_assoc, front_append hsep]
    exact hd

/-- Texts behind separators are known if each is, where no separator follows. -/
theorem followers_decode (hsep : sep = ofChars (d :: ds)) (hd : C (some d))
    (hxs : ∀ x ∈ xs, Decodes C P code meaning x) {ys : List α} (hys : ∀ y ∈ ys, P y)
    {rest rest' : List UInt8} (hrest : C (front rest) ∧ front rest ≠ some d)
    (hrest' : C (front rest') ∧ front rest' ≠ some d)
    (h : followers sep code xs ++ rest = followers sep code ys ++ rest') :
    xs.map meaning = ys.map meaning ∧ rest = rest' := by
  -- The lists are as long as each other: a separator is not the start of what follows them.
  induction xs generalizing ys with
  | nil =>
    cases ys with
    | nil => exact ⟨rfl, h⟩
    | cons y ys =>
      rw [followers, List.flatMap_nil, List.nil_append, followers, List.flatMap_cons,
        List.append_assoc, List.append_assoc] at h
      exact absurd (h ▸ front_append hsep _) hrest.2
  | cons x xs ih =>
    obtain ⟨hx, hxs⟩ := List.forall_mem_cons.mp hxs
    cases ys with
    | nil =>
      rw [followers, List.flatMap_cons, List.append_assoc, List.append_assoc, followers,
        List.flatMap_nil, List.nil_append] at h
      exact absurd (h ▸ front_append hsep _) hrest'.2
    | cons y ys =>
      obtain ⟨hy, hys⟩ := List.forall_mem_cons.mp hys
      rw [followers, followers, List.flatMap_cons, List.flatMap_cons, List.append_assoc,
        List.append_assoc, List.append_assoc, List.append_assoc] at h
      obtain ⟨hmeaning, hlater⟩ := hx y hy _ _ (front_followers hsep hd xs hrest.1)
        (front_followers hsep hd ys hrest'.1) (List.append_cancel_left h)
      obtain ⟨hmeanings, hrests⟩ := ih hxs hys hlater
      exact ⟨by rw [List.map_cons, List.map_cons, hmeaning, hmeanings], hrests⟩

/-- Texts put together, behind one more separator, are all behind separators. -/
theorem sep_append_join (sep : Text) (code : α → Text) (hne : xs ≠ []) :
    sep.bytes ++ (Text.join sep (xs.map code)).bytes = followers sep code xs := by
  obtain ⟨x, xs, rfl⟩ := List.exists_cons_of_ne_nil hne
  rw [bytes_join_cons, followers, followers, List.flatMap_cons, List.append_assoc]

/-- Texts with separators between them are known if each is, where no separator follows. -/
theorem join_decodes (hsep : sep = ofChars (d :: ds)) (hd : C (some d)) (hne : xs ≠ [])
    (hxs : ∀ x ∈ xs, Decodes C P code meaning x) :
    Decodes (fun c => C c ∧ c ≠ some d) (fun ys => ys ≠ [] ∧ ∀ y ∈ ys, P y)
      (fun xs => Text.join sep (xs.map code)) (List.map meaning) xs := by
  rintro ys ⟨hys, hP⟩ rest rest' hrest hrest' h
  have hfollowers := congrArg (sep.bytes ++ ·) h
  dsimp only at hfollowers
  rw [← List.append_assoc, ← List.append_assoc, sep_append_join sep code hne,
    sep_append_join sep code hys] at hfollowers
  exact followers_decode hsep hd hxs hP hrest hrest' hfollowers

/-- Texts with separators between them, perhaps none, are known if each is, where a character
follows that starts neither a text nor a separator. -/
theorem list_decodes {stop : Char} (hsep : sep = ofChars (d :: ds)) (hd : C (some d))
    (hstop : C (some stop)) (hne : stop ≠ d) (hP : ∀ x ∈ xs, P x)
    (hfront : ∀ x, P x → ∀ rest, front ((code x).bytes ++ rest) ≠ some stop)
    (hxs : ∀ x ∈ xs, Decodes C P code meaning x) :
    Decodes (· = some stop) (fun ys => ∀ y ∈ ys, P y)
      (fun xs => Text.join sep (xs.map code)) (List.map meaning) xs := by
  intro ys hys rest rest' hrest hrest' h
  dsimp only at h
  have hends {s : List UInt8} (hs : front s = some stop) : C (front s) ∧ front s ≠ some d := by
    rw [hs]
    exact ⟨hstop, fun heq => hne (Option.some.inj heq)⟩
  rcases xs with _ | ⟨x, xs⟩ <;> rcases ys with _ | ⟨y, ys⟩
  · exact ⟨rfl, h⟩
  · rw [bytes_join_cons, List.append_assoc] at h
    exact absurd ((congrArg front h).symm.trans hrest) (hfront y (hys y List.mem_cons_self) _)
  · rw [bytes_join_cons, List.append_assoc] at h
    exact absurd ((congrArg front h).trans hrest') (hfront x (hP x List.mem_cons_self) _)
  · exact join_decodes hsep hd (List.cons_ne_nil x xs) hxs _ ⟨List.cons_ne_nil y ys, hys⟩ _ _
      (hends hrest) (hends hrest') h

end Codes

end SymCalc
