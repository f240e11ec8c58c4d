import Mathlib
import SymCalc.Proofs.BracketBalance
import SymCalc.Proofs.Scanning

/-!
# Contracts of readers

A contract says where a reader stands when it has taken some tokens and how it may fail. It may
speak of a second reader as well, which finds the same tokens at other positions and must come to
the same. What is asked of the readers of single tokens, and of the way out of a bad matrix, are the
laws of a contract; the rules for putting readers together follow from them.
-/

namespace SymCalc

open Parse

/-- What is asked of a reader, or of two readers that go side by side. -/
structure Contract where
  /-- Where the second reader finds what the first one finds at a position. -/
  move : Position → Position
  /-- The second reader must come to the same as the first. -/
  paired : Prop
  /-- Something is asked when the first reader fails. -/
  strict : Prop
  /-- A bound on the tokens that are taken. -/
  bound : Nat
  /-- The readers stand here when they have taken some tokens, the end of the input apart. If they
  are near, they have looked at nothing behind the line of the last one. -/
  At : (near : Bool) → (taken : List Token) → Cursor → Cursor → Prop
  /-- The readers may fail with these errors at these places. -/
  Bad : SyntaxError → Cursor → SyntaxError → Cursor → Prop

/-- Whole tokens are taken after others. -/
def AddsWhole (taken all : List Token) : Prop := ∃ more, Whole more ∧ all = taken ++ more

namespace AddsWhole

variable {taken all more : List Token}

/-- Taking nothing is taking whole tokens. -/
theorem refl (taken : List Token) : AddsWhole taken taken :=
  ⟨[], .nil, (List.append_nil taken).symm⟩

/-- Whole tokens are taken after the others. -/
theorem append (h : Whole more) : AddsWhole taken (taken ++ more) := ⟨more, h, rfl⟩

/-- Whole tokens are taken one after the other. -/
theorem trans {later : List Token} (h : AddsWhole taken all) (h' : AddsWhole all later) :
    AddsWhole taken later := by
  obtain ⟨more, hmore, rfl⟩ := h
  obtain ⟨most, hmost, rfl⟩ := h'
  exact ⟨more ++ most, hmore.append hmost, List.append_assoc taken more most⟩

/-- Nothing that was taken is lost. -/
theorem subset (h : AddsWhole taken all) : taken ⊆ all := by
  obtain ⟨more, -, rfl⟩ := h
  exact List.subset_append_left taken more

/-- No fewer tokens are taken in the end. -/
theorem length_le (h : AddsWhole taken all) : taken.length ≤ all.length := by
  obtain ⟨more, -, rfl⟩ := h
  rw [List.length_append]
  exact Nat.le_add_right _ _

end AddsWhole

namespace Contract

variable {α β M : Type} (K : Contract)

/-- What readers come to: a result with a property, which is the same for both up to its positions,
or an error that is allowed. -/
def Met (g : α → α) (P : α → Cursor → Cursor → Prop)
    (r r' : EStateM.Result SyntaxError Cursor α) : Prop :=
  match r with
  | .ok a d => ∃ d', (K.paired → r' = .ok (g a) d') ∧ P a d d'
  | .error e d => K.strict → ∃ e' d', (K.paired → r' = .error e' d') ∧ K.Bad e d e' d'

/-- Whatever is wrong, other than with a matrix, the readers may fail at a token. -/
def MayFail (t : Token) (c c' : Cursor) : Prop :=
  K.strict → ∀ fault : SyntaxFault, fault.ofMatrix = false →
    K.Bad ⟨c.scanner.name, t.pos, fault⟩ c
      ⟨c'.scanner.name, K.move t.pos, fault.relabel K.move⟩ c'

/-- Readers end near, when they have taken whole tokens after others, with a result that has a
property in view of all of them. -/
def Leaves (taken : List Token) (Q : List Token → α → Prop) (a : α) (d d' : Cursor) : Prop :=
  ∃ all, AddsWhole taken all ∧ K.At true all d d' ∧ Q all a

/-- The readers have come to a fault in the rows of a matrix, and to a token that it is at. -/
structure AtFault (M : Type) [Numeric M] (taken : List Token) (token : Token) (fault : SyntaxFault)
    (d d' : Cursor) : Prop where
  /-- They stand there. -/
  stands : K.At true taken d d'
  /-- The token has been taken. -/
  mem : token ∈ taken
  /-- They have come there from behind the opening bracket, with statements that may nest so deep as
  there are tokens. -/
  matrix : ∃ before bracket rest depth c c', taken = before ++ [bracket] ++ rest ∧
    bracket.isPunct "[" = true ∧ K.At true (before ++ [bracket]) c c' ∧
    K.bound < (before ++ [bracket]).length + depth ∧
    rowsVerdict (statementWithin (M := M) depth) (depth + 1) bracket (depth + 1) [] c =
      .ok (.error (token, fault)) d

/-- What the readers of single tokens keep, and what comes of giving up a matrix. -/
structure Lawful (M : Type) [Numeric M] : Prop where
  /-- The bound is one, if the second reader matters. -/
  within {near taken c c'} : K.paired → K.At near taken c c' → taken.length ≤ K.bound
  /-- A token that was taken may be what they fail at. -/
  mayFail {taken c c' t} : K.At true taken c c' → t ∈ taken → K.MayFail t c c'
  /-- A token is taken. At the end of the input they may fail. -/
  next {near taken c c'} : K.At near taken c c' →
    (¬K.strict ∧ c.scanner.peek.1.kind = .eof) ∨
      K.Met (Token.relabel K.move)
        (fun t d d' => K.MayFail t d d' ∧ (t.kind ≠ .eof → K.At true (taken ++ [t]) d d'))
        (Parse.next c) (Parse.next c')
  /-- A token is looked at, wherever it stands. -/
  peek {near taken c c'} : K.At near taken c c' →
    (¬K.strict ∧ c.scanner.peek.1.kind = .eof) ∨
      K.Met (Token.relabel K.move)
        (fun t d d' => K.At false taken d d' ∧ (t.kind = .eof → K.MayFail t d d'))
        (Parse.peek c) (Parse.peek c')
  /-- The end of the line is looked for, and a token that stands on the line is looked at. -/
  look {taken c c'} : K.At true taken c c' →
    K.Met id
      (fun ends d d' => K.At true taken d d' ∧
        (ends = false → K.Met (Token.relabel K.move) (fun _ => K.At true taken)
          (Parse.peek d) (Parse.peek d')))
      (Parse.atEndOfLine c) (Parse.atEndOfLine c')
  /-- They may fail when the bound is met. -/
  exhausted {near taken c c'} {α : Type} {g : α → α} {P : α → Cursor → Cursor → Prop} :
    K.At near taken c c' → K.bound < taken.length →
    K.Met g P ((Parse.exhausted : Parse α) c) ((Parse.exhausted : Parse α) c')
  /-- They may fail when the rest of a bad matrix has been skipped. -/
  giveUp {taken token fault d d'} {α : Type} {g : α → α} {P : α → Cursor → Cursor → Prop} :
    K.AtFault M taken token fault d d' →
    K.Met g P ((recover (.error (token, fault)) : Parse α) d)
      ((recover (.error (token.relabel K.move, fault.relabel K.move)) : Parse α) d')

variable {K} {near : Bool} {taken all : List Token} {c c' d d' : Cursor} {t : Token}
  {f : α → α} {g : β → β} {P P' : α → Cursor → Cursor → Prop} {R : β → Cursor → Cursor → Prop}

namespace Met

variable {r r' : EStateM.Result SyntaxError Cursor α}

/-- Less may be said of the result. -/
theorem mono (h : K.Met f P r r') (hP : ∀ a d d', P a d d' → P' a d d') : K.Met f P' r r' := by
  cases r with
  | ok a d =>
    obtain ⟨d', hsame, ha⟩ := h
    exact ⟨d', hsame, hP a d d' ha⟩
  | error e d => exact h

/-- What the second reader comes to does not matter if the second reader does not. -/
theorem congr {r'' : EStateM.Result SyntaxError Cursor α} (h : K.Met f P r r')
    (hsame : K.paired → r'' = r') : K.Met f P r r'' := by
  cases r with
  | ok a d =>
    obtain ⟨d', hr', ha⟩ := h
    exact ⟨d', fun hpaired => (hsame hpaired).trans (hr' hpaired), ha⟩
  | error e d =>
    intro hstrict
    obtain ⟨e', d', hr', hbad⟩ := h hstrict
    exact ⟨e', d', fun hpaired => (hsame hpaired).trans (hr' hpaired), hbad⟩

/-- A failure of the first reader counts if nothing is asked then. -/
theorem of_fails (hstrict : ¬K.strict) (h : Fails r) : K.Met f P r r' := by
  obtain ⟨e, d, rfl⟩ := h
  exact fun hyes => absurd hyes hstrict

/-- A result at hand. -/
theorem pure {a a' : α} (h : P a c c') (ha : f a = a') :
    K.Met f P ((Pure.pure a : Parse α) c) ((Pure.pure a' : Parse α) c') :=
  ⟨c', fun _ => by rw [ha]; rfl, h⟩

/-- Failing at a token. -/
theorem fail {fault fault' : SyntaxFault} (h : K.MayFail t c c') (hfault : fault.ofMatrix = false)
    (hsame : fault' = fault.relabel K.move) :
    K.Met f P ((Parse.fail t fault : Parse α) c)
      ((Parse.fail (t.relabel K.move) fault' : Parse α) c') := by
  intro hstrict
  rw [hsame]
  exact ⟨_, c', fun _ => rfl, h hstrict fault hfault⟩

/-- One reader after the other. -/
theorem bind {p p' : Parse α} {q q' : α → Parse β} (hp : K.Met f P (p c) (p' c'))
    (hq : ∀ a d d', p c = .ok a d → P a d d' → K.Met g R (q a d) (q' (f a) d')) :
    K.Met g R ((p >>= q) c) ((p' >>= q') c') := by
  cases hpc : p c with
  | ok a d =>
    rw [hpc] at hp
    obtain ⟨d', hsame, ha⟩ := hp
    rw [bind_of_ok hpc]
    exact (hq a d d' hpc ha).congr fun hpaired => bind_of_ok (hsame hpaired)
  | error e d =>
    rw [hpc] at hp
    rw [bind_of_error hpc]
    intro hstrict
    obtain ⟨e', d', hsame, hbad⟩ := hp hstrict
    exact ⟨e', d', fun hpaired => bind_of_error (hsame hpaired), hbad⟩

/-- Of two pairs of readers the one chosen. -/
theorem ite {x : Prop} [Decidable x] {p q p' q' : Parse α} (hp : x → K.Met f P (p c) (p' c'))
    (hq : ¬x → K.Met f P (q c) (q' c')) :
    K.Met f P ((if x then p else q) c) ((if x then p' else q') c') := by
  by_cases hx : x
  · rw [if_pos hx, if_pos hx]
    exact hp hx
  · rw [if_neg hx, if_neg hx]
    exact hq hx

variable {Q Q' : List Token → α → Prop} {S : List Token → β → Prop}

/-- Whole tokens may be taken before. -/
theorem after (hall : AddsWhole taken all) (h : K.Met f (K.Leaves all Q) r r') :
    K.Met f (K.Leaves taken Q) r r' := by
  refine h.mono ?_
  rintro a d d' ⟨last, hlast, hat, ha⟩
  exact ⟨last, hall.trans hlast, hat, ha⟩

/-- Less may be said of the result in view of the tokens taken. -/
theorem weaken (h : K.Met f (K.Leaves taken Q) r r')
    (hQ : ∀ all a, AddsWhole taken all → Q all a → Q' all a) :
    K.Met f (K.Leaves taken Q') r r' := by
  refine h.mono ?_
  rintro a d d' ⟨all, hall, hat, ha⟩
  exact ⟨all, hall, hat, hQ all a hall ha⟩

/-- A result at hand where the readers are near. -/
theorem stay {a a' : α} (h : K.At true taken c c') (ha : Q taken a) (hsame : f a = a') :
    K.Met f (K.Leaves taken Q) ((Pure.pure a : Parse α) c) ((Pure.pure a' : Parse α) c') :=
  .pure ⟨taken, .refl taken, h, ha⟩ hsame

/-- One reader after another that has taken whole tokens. -/
theorem andThen {p p' : Parse α} {q q' : α → Parse β}
    (hp : K.Met f (K.Leaves taken Q) (p c) (p' c'))
    (hq : ∀ a all d d', AddsWhole taken all → K.At true all d d' → Q all a →
      K.Met g (K.Leaves all S) (q a d) (q' (f a) d')) :
    K.Met g (K.Leaves taken S) ((p >>= q) c) ((p' >>= q') c') := by
  refine hp.bind ?_
  rintro a d d' - ⟨all, hall, hat, ha⟩
  exact .after hall (hq a all d d' hall hat ha)

end Met

namespace Lawful

variable [Numeric M] (hK : K.Lawful M)

include hK

/-- Taking a token and going on. What follows must fail at the end of the input. -/
theorem next_bind {q q' : Token → Parse β} (h : K.At near taken c c')
    (hq : ∀ t d d', c.scanner.peek.1 = t → t.kind ≠ .eof → K.At true (taken ++ [t]) d d' →
      K.Met g R (q t d) (q' (t.relabel K.move) d'))
    (hend : ∀ t : Token, t.kind = .eof → ∃ fault : SyntaxFault, fault.ofMatrix = false ∧
      q t = fail t fault ∧ q' (t.relabel K.move) = fail (t.relabel K.move) (fault.relabel K.move)) :
    K.Met g R ((Parse.next >>= q) c) ((Parse.next >>= q') c') := by
  rcases hK.next h with ⟨hstrict, heof⟩ | hmet
  · have hok := next_of_kind (c := c) (by rw [heof]; decide)
    obtain ⟨fault, -, hfails, -⟩ := hend _ heof
    refine .of_fails hstrict (fails_bind_of_ok hok ?_)
    rw [hfails]
    exact ⟨_, _, rfl⟩
  · refine hmet.bind ?_
    rintro t d d' hok ⟨hmay, hat⟩
    by_cases heof : t.kind = .eof
    · obtain ⟨fault, hfault, hfails, hfails'⟩ := hend t heof
      rw [hfails, hfails']
      exact .fail hmay hfault rfl
    · exact hq t d d' (of_next_eq_ok hok) heof (hat heof)

/-- Taking a token that is known not to be the end of the input. -/
theorem take_bind {q q' : Token → Parse β} (h : K.At near taken c c') (ht : c.scanner.peek.1 = t)
    (hkind : t.kind ≠ .eof)
    (hq : ∀ d d', K.At true (taken ++ [t]) d d' → K.Met g R (q t d) (q' (t.relabel K.move) d')) :
    K.Met g R ((Parse.next >>= q) c) ((Parse.next >>= q') c') := by
  rcases hK.next h with ⟨-, heof⟩ | hmet
  · exact absurd (ht ▸ heof) hkind
  · refine hmet.bind ?_
    rintro u d d' hok ⟨-, hat⟩
    obtain rfl : u = t := (of_next_eq_ok hok).symm.trans ht
    exact hq d d' (hat hkind)

/-- Looking at a token and going on. With nothing asked at a failure, what follows must fail at the
end of the input. -/
theorem peek_bind {q q' : Token → Parse β} (h : K.At near taken c c')
    (hq : ∀ t d d', d.scanner.peek.1 = t → K.At false taken d d' →
      (t.kind = .eof → K.MayFail t d d') → K.Met g R (q t d) (q' (t.relabel K.move) d'))
    (hend : ∀ t d, t.kind = .eof → d.Finished → Fails (q t d)) :
    K.Met g R ((Parse.peek >>= q) c) ((Parse.peek >>= q') c') := by
  rcases hK.peek h with ⟨hstrict, heof⟩ | hmet
  · have hok := peek_of_kind (c := c) (by rw [heof]; decide)
    exact .of_fails hstrict
      (fails_bind_of_ok hok (hend _ _ heof (finished_of_peek_eq_ok hok heof)))
  · refine hmet.bind ?_
    rintro t d d' hok ⟨hat, hmay⟩
    exact hq t d d' (of_peek_eq_ok hok).2 hat hmay

/-- Looking for the end of the line only. -/
theorem atEndOfLine_bind {q q' : Bool → Parse β} (h : K.At true taken c c')
    (hq : ∀ ends d d', K.At true taken d d' → K.Met g R (q ends d) (q' ends d')) :
    K.Met g R ((Parse.atEndOfLine >>= q) c) ((Parse.atEndOfLine >>= q') c') := by
  refine (hK.look h).bind ?_
  rintro ends d d' - ⟨hat, -⟩
  exact hq ends d d' hat

/-- Looking for the end of the line, and at a token if one stands on the line. -/
theorem look_bind {p p' : Parse β} (q q' : Token → Parse β) (h : K.At true taken c c')
    (hp : ∀ d d', K.At true taken d d' → K.Met g R (p d) (p' d'))
    (hq : ∀ t d d', d.scanner.peek.1 = t → t.kind ≠ .eof → K.At true taken d d' →
      K.Met g R (q t d) (q' (t.relabel K.move) d')) :
    K.Met g R ((do if ← atEndOfLine then p else q (← Parse.peek)) c)
      ((do if ← atEndOfLine then p' else q' (← Parse.peek)) c') := by
  refine (hK.look h).bind ?_
  rintro ends d d' hok ⟨hat, hpeek⟩
  cases ends with
  | true => exact hp d d' hat
  | false =>
    refine (hpeek rfl).bind fun t e e' hseen hat' => ?_
    obtain ⟨hd, he⟩ := of_peek_eq_ok hseen
    refine hq t e e' he ?_ hat'
    -- The line has not ended, so that a token stands on it.
    obtain ⟨hends, rfl⟩ := EStateM.Result.ok.inj hok
    rw [← hd]
    exact (Cursor.moreOnLine_of_atEndOfLine hends c.consumed).kind

end Lawful

/-- The contract of one reader. -/
def single (bound : Nat) (At : (near : Bool) → (taken : List Token) → Cursor → Prop)
    (Bad : SyntaxError → Cursor → Prop) : Contract where
  move := id
  paired := False
  strict := True
  bound := bound
  At near taken c _ := At near taken c
  Bad e d _ _ := Bad e d

section Single

variable {bound : Nat} {At : (near : Bool) → (taken : List Token) → Cursor → Prop}
  {Bad : SyntaxError → Cursor → Prop}

/-- What one reader comes to: a result with a property, or an error that is allowed. -/
theorem met_single {r r' : EStateM.Result SyntaxError Cursor α} :
    (single bound At Bad).Met f P r r' ↔
      match r with
      | .ok a d => ∃ d', P a d d'
      | .error e d => Bad e d := by
  cases r with
  | ok a d =>
    constructor
    · rintro ⟨d', -, ha⟩
      exact ⟨d', ha⟩
    · rintro ⟨d', ha⟩
      exact ⟨d', False.elim, ha⟩
  | error e d =>
    constructor
    · intro h
      obtain ⟨e', d', -, hbad⟩ := h trivial
      exact hbad
    · exact fun hbad _ => ⟨e, d, False.elim, hbad⟩

/-- The laws of a contract of one reader, which are about its scanner. -/
structure SingleLawful (M : Type) [Numeric M] (bound : Nat)
    (At : (near : Bool) → (taken : List Token) → Cursor → Prop)
    (Bad : SyntaxError → Cursor → Prop) : Prop where
  /-- A token that was taken may be what it fails at. -/
  mayFail {taken : List Token} {c : Cursor} {t : Token} {fault : SyntaxFault} : At true taken c →
    t ∈ taken → fault.ofMatrix = false → Bad ⟨c.scanner.name, t.pos, fault⟩ c
  /-- It may fail at the token taken last, be it the end or an error. -/
  fails_next {near : Bool} {taken : List Token} {c : Cursor} {fault : SyntaxFault} :
    At near taken c → fault.ofMatrix = false →
    Bad ⟨c.scanner.next.2.name, c.scanner.peek.1.pos, fault⟩ ⟨c.scanner.next.2, c.consumed + 1⟩
  /-- A token is taken. -/
  next {near : Bool} {taken : List Token} {c : Cursor} :
    At near taken c → c.scanner.peek.1.kind ≠ .eof →
    At true (taken ++ [c.scanner.peek.1]) ⟨c.scanner.next.2, c.consumed + 1⟩
  /-- It may fail at the token looked at. -/
  fails_peek {near : Bool} {taken : List Token} {c : Cursor} {fault : SyntaxFault} :
    At near taken c → fault.ofMatrix = false →
    Bad ⟨c.scanner.peek.2.name, c.scanner.peek.1.pos, fault⟩ ⟨c.scanner.peek.2, c.consumed⟩
  /-- A token is looked at, wherever it stands. -/
  peek {near : Bool} {taken : List Token} {c : Cursor} :
    At near taken c → At false taken ⟨c.scanner.peek.2, c.consumed⟩
  /-- The end of the line is looked for. -/
  atEndOfLine {taken : List Token} {c : Cursor} :
    At true taken c → At true taken ⟨c.scanner.atEndOfLine.2, c.consumed⟩
  /-- A token that stands on the line is looked at. -/
  look {taken : List Token} {c : Cursor} :
    At true taken c → c.scanner.atEndOfLine.1 = false →
    At true taken ⟨c.scanner.atEndOfLine.2.peek.2, c.consumed⟩
  /-- It may fail when the rest of a bad matrix has been skipped. -/
  giveUp {taken : List Token} {token : Token} {fault : SyntaxFault} {d d' : Cursor} :
    (single bound At Bad).AtFault M taken token fault d d' →
    Bad ⟨(skipMatrixWithin d.scanner.size 1 d).scanner.name, token.pos, fault⟩
      (skipMatrixWithin d.scanner.size 1 d)

namespace SingleLawful

variable [Numeric M]

/-- An error that is looked at is taken, and fails. -/
theorem peek_error (h : SingleLawful M bound At Bad) (hat : At near taken c)
    (hkind : c.scanner.peek.1.kind = .error) :
    ∃ e d, Parse.peek c = .error e d ∧ Bad e d := by
  refine ⟨_, _, peek_of_error hkind, ?_⟩
  have hbad : Bad ⟨_, _, .lexical c.scanner.peek.1.text⟩ _ := h.fails_next (h.peek hat) rfl
  rwa [Scanner.peek_peek] at hbad

/-- The laws of a contract of one reader are those of a contract. -/
theorem lawful (h : SingleLawful M bound At Bad) : (single bound At Bad).Lawful M := by
  constructor
  case within => exact fun hpaired => hpaired.elim
  case mayFail => exact fun hat hmem _ fault hfault => h.mayFail hat hmem hfault
  case next =>
    intro near taken c c' hat
    refine .inr (met_single.mpr ?_)
    rw [next_eq, c.scanner.next_fst]
    by_cases hkind : c.scanner.peek.1.kind = .error
    · rw [if_pos hkind]
      exact h.fails_next hat rfl
    · rw [if_neg hkind]
      exact ⟨c', fun _ fault hfault => h.fails_next hat hfault, h.next hat⟩
  case peek =>
    intro near taken c c' hat
    refine .inr (met_single.mpr ?_)
    by_cases hkind : c.scanner.peek.1.kind = .error
    · obtain ⟨e, d, hrun, hbad⟩ := h.peek_error hat hkind
      rw [hrun]
      exact hbad
    · rw [peek_of_kind hkind]
      exact ⟨c', h.peek hat, fun _ _ fault hfault => h.fails_peek hat hfault⟩
  case look =>
    intro taken c c' hat
    rw [atEndOfLine_eq]
    refine met_single.mpr ⟨c', h.atEndOfLine hat, fun hends => met_single.mpr ?_⟩
    have hlook := h.atEndOfLine hat
    by_cases hkind : c.scanner.atEndOfLine.2.peek.1.kind = .error
    · obtain ⟨e, d, hrun, hbad⟩ := h.peek_error hlook hkind
      rw [hrun]
      exact hbad
    · rw [peek_of_kind (c := ⟨c.scanner.atEndOfLine.2, c.consumed⟩) hkind]
      exact ⟨c', h.look hat hends⟩
  case exhausted =>
    intro near taken c c' α g P hat _
    refine met_single.mpr ?_
    by_cases hkind : c.scanner.peek.1.kind = .error
    · obtain ⟨e, d, hrun, hbad⟩ := h.peek_error hat hkind
      rw [Parse.exhausted, bind_of_error hrun]
      exact hbad
    · rw [Parse.exhausted, bind_of_ok (peek_of_kind hkind)]
      exact h.fails_peek hat rfl
  case giveUp => exact fun hfault => met_single.mpr (h.giveUp hfault)

end SingleLawful

end Single

end Contract

end SymCalc
