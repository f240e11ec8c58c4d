import Mathlib
import SymCalc.Proofs.Readers

/-!
# Brackets among tokens

Square brackets are counted over a list of tokens. The words of an operator declaration may be
brackets as well, and are told from the other tokens. Main notions: tokens that are balanced, the
bracket that closes what stands before it, and tokens that are whole, with declarations that have
all their words and brackets that are balanced outside of them.
-/

namespace SymCalc

/-- What a token adds to the number of open brackets. -/
def Token.bracketStep (t : Token) : Int :=
  if t.isPunct "[" then 1 else if t.isPunct "]" then -1 else 0

/-- The number of brackets that some tokens leave open. -/
def bracketSum (ts : List Token) : Int := (ts.map Token.bracketStep).sum

@[simp] theorem bracketSum_nil : bracketSum [] = 0 := rfl

@[simp] theorem bracketSum_cons (t : Token) (ts : List Token) :
    bracketSum (t :: ts) = t.bracketStep + bracketSum ts := by
  rw [bracketSum, List.map_cons, List.sum_cons, bracketSum]

@[simp] theorem bracketSum_append (ss ts : List Token) :
    bracketSum (ss ++ ts) = bracketSum ss + bracketSum ts := by
  rw [bracketSum, List.map_append, List.sum_append, bracketSum, bracketSum]

/-- No token is an opening and a closing bracket. -/
theorem isPunct_open_of_close {t : Token} (h : t.isPunct "]" = true) : t.isPunct "[" = false := by
  rw [Token.isPunct, (Token.isPunct_eq_true.mp h).2]
  exact Bool.and_false _

/-- An opening bracket opens one. -/
theorem bracketStep_open {t : Token} (h : t.isPunct "[" = true) : t.bracketStep = 1 := if_pos h

/-- A closing bracket closes one. -/
theorem bracketStep_close {t : Token} (h : t.isPunct "]" = true) : t.bracketStep = -1 := by
  rw [Token.bracketStep, isPunct_open_of_close h, h]
  rfl

/-- From a number of open brackets, tokens close all of them at their end and never more than are
open. -/
structure Settles (depth : Int) (ts : List Token) : Prop where
  /-- All are closed at the end. -/
  total : depth + bracketSum ts = 0
  /-- No more are closed than are open. -/
  nonneg : ∀ front, front <+: ts → 0 ≤ depth + bracketSum front

/-- Tokens close the brackets that they open, and no others. -/
abbrev Balanced (ts : List Token) : Prop := Settles 0 ts

/-- Whether brackets are closed as they should be can be computed. -/
instance (depth : Int) (ts : List Token) : Decidable (Settles depth ts) :=
  decidable_of_iff
      (depth + bracketSum ts = 0 ∧ ∀ front ∈ ts.inits, 0 ≤ depth + bracketSum front) <| by
    simp only [List.mem_inits]
    exact ⟨fun h => ⟨h.1, h.2⟩, fun h => ⟨h.total, h.nonneg⟩⟩

variable {ts ss rest : List Token} {t close : Token} {depth : Int}

/-- The beginnings of two lists put together reach into the second or not. -/
theorem front_append_cases {front : List Token} (h : front <+: ss ++ ts) :
    front <+: ss ∨ ∃ more, more <+: ts ∧ front = ss ++ more := by
  rcases List.prefix_or_prefix_of_prefix h (List.prefix_append ss ts) with hfirst | ⟨more, rfl⟩
  · exact .inl hfirst
  · exact .inr ⟨more, (List.prefix_append_right_inj ss).mp h, rfl⟩

/-- Without tokens nothing is open. -/
theorem Balanced.nil : Balanced [] := by
  refine ⟨rfl, fun front h => ?_⟩
  rw [List.prefix_nil.mp h]
  exact le_refl 0

/-- The first token, and then the others with what it has opened or closed. -/
theorem settles_cons :
    Settles depth (t :: ts) ↔ 0 ≤ depth ∧ Settles (depth + t.bracketStep) ts := by
  constructor
  · intro h
    have htotal := h.total
    rw [bracketSum_cons] at htotal
    refine ⟨?_, by omega, fun front hfront => ?_⟩
    · have hnone := h.nonneg [] List.nil_prefix
      rwa [bracketSum_nil, add_zero] at hnone
    · have hmore := h.nonneg (t :: front) (List.cons_prefix_cons.mpr ⟨rfl, hfront⟩)
      rw [bracketSum_cons] at hmore
      omega
  · rintro ⟨hdepth, h⟩
    have htotal := h.total
    refine ⟨by rw [bracketSum_cons]; omega, fun front hfront => ?_⟩
    cases front with
    | nil =>
      rw [bracketSum_nil]
      omega
    | cons u front =>
      obtain ⟨rfl, hmore⟩ := List.cons_prefix_cons.mp hfront
      have hmore := h.nonneg front hmore
      rw [bracketSum_cons]
      omega

/-- Balanced tokens may stand before others. -/
theorem Balanced.append (hs : Balanced ss) (ht : Settles depth ts) : Settles depth (ss ++ ts) := by
  have hs_total := hs.total
  have ht_total := ht.total
  have hdepth := ht.nonneg [] List.nil_prefix
  rw [bracketSum_nil] at hdepth
  refine ⟨by rw [bracketSum_append]; omega, fun front h => ?_⟩
  rcases front_append_cases h with hfirst | ⟨more, hmore, rfl⟩
  · have hnonneg := hs.nonneg front hfirst
    omega
  · have hnonneg := ht.nonneg more hmore
    rw [bracketSum_append]
    omega

/-- A token that is no bracket is balanced. -/
theorem Balanced.single (h : t.bracketStep = 0) : Balanced [t] := by
  refine settles_cons.mpr ⟨le_refl 0, ?_⟩
  rw [h, add_zero]
  exact Balanced.nil

/-- Brackets around balanced tokens are balanced. -/
theorem Balanced.enclosed {opening : Token} (hopening : opening.isPunct "[" = true)
    (hts : Balanced ts) (hclose : close.isPunct "]" = true) :
    Balanced (opening :: (ts ++ [close])) := by
  refine settles_cons.mpr ⟨le_refl 0, ?_⟩
  rw [bracketStep_open hopening]
  refine hts.append (settles_cons.mpr ⟨by decide, ?_⟩)
  rw [bracketStep_close hclose]
  exact Balanced.nil

/-- Tokens with a closing bracket too many do not start balanced ones. -/
theorem Balanced.not_prefix (hts : Balanced ts) (hss : Balanced ss)
    (hclose : close.isPunct "]" = true) (more : List Token) : ts ≠ ss ++ close :: more := by
  rintro rfl
  have htotal := hss.total
  have hnonneg := hts.nonneg (ss ++ [close]) ⟨more, by simp⟩
  rw [bracketSum_append, bracketSum_cons, bracketStep_close hclose, bracketSum_nil] at hnonneg
  omega

/-- From a number of open brackets on, `rest` is what follows the bracket that closes one more. -/
def ClosesFrom (depth : Int) (ts rest : List Token) : Prop :=
  ∃ inner close, ts = inner ++ close :: rest ∧ Settles depth inner ∧ close.isPunct "]" = true

/-- The rest is what follows the bracket that closes the one opened before the tokens. -/
abbrev Closes (ts rest : List Token) : Prop := ClosesFrom 0 ts rest

/-- The bracket that closes stands behind balanced tokens. -/
theorem Closes.of_append (h : Closes (ss ++ ts) rest) (hss : Balanced ss) : Closes ts rest := by
  obtain ⟨inner, close, heq, hinner, hclose⟩ := h
  have hss_total := hss.total
  have htotal := hinner.total
  rcases List.append_eq_append_iff.mp heq with ⟨more, rfl, hmore⟩ | ⟨more, rfl, hmore⟩
  · refine ⟨more, close, hmore, ⟨?_, fun front hfront => ?_⟩, hclose⟩
    · rw [bracketSum_append] at htotal
      omega
    · have hnonneg := hinner.nonneg (ss ++ front) ((List.prefix_append_right_inj ss).mpr hfront)
      rw [bracketSum_append] at hnonneg
      omega
  · cases more with
    | nil =>
      refine ⟨[], close, ?_, Balanced.nil, hclose⟩
      simpa using hmore.symm
    | cons u more =>
      obtain ⟨rfl, -⟩ := List.cons.inj hmore
      exact absurd rfl (hss.not_prefix hinner hclose more)

/-- Where more brackets are closed than are open, there is one that closes one too many. -/
theorem exists_closesFrom (hdepth : 0 ≤ depth) (h : depth + bracketSum ts < 0) :
    ∃ rest, ClosesFrom depth ts rest := by
  induction ts generalizing depth with
  | nil =>
    rw [bracketSum_nil] at h
    omega
  | cons t ts ih =>
    rw [bracketSum_cons] at h
    by_cases hstep : 0 ≤ depth + t.bracketStep
    · obtain ⟨rest, inner, close, rfl, hinner, hclose⟩ := ih hstep (by omega)
      exact ⟨rest, t :: inner, close, rfl, settles_cons.mpr ⟨hdepth, hinner⟩, hclose⟩
    · have hclose : t.isPunct "]" = true := by
        by_contra hno
        have hpos : 0 ≤ t.bracketStep := by
          rw [Token.bracketStep, if_neg hno]
          split <;> decide
        omega
      rw [bracketStep_close hclose] at hstep
      obtain rfl : depth = 0 := by omega
      exact ⟨ts, [], t, rfl, Balanced.nil, hclose⟩

/-- Behind an opening bracket the bracket that closes it comes before the one that closes the
bracket opened earlier. -/
theorem Closes.exists_before {opening : Token} (h : Closes (opening :: ts) rest)
    (hopening : opening.isPunct "[" = true) :
    ∃ more close, close.isPunct "]" = true ∧ Closes ts (more ++ close :: rest) := by
  obtain ⟨inner, close, heq, hinner, hclose⟩ := h
  cases inner with
  | nil =>
    obtain ⟨rfl, -⟩ := List.cons.inj heq
    rw [isPunct_open_of_close hclose] at hopening
    cases hopening
  | cons u inner =>
    obtain ⟨rfl, rfl⟩ := List.cons.inj heq
    have htotal := (settles_cons.mp hinner).2.total
    rw [bracketStep_open hopening] at htotal
    have hless : 0 + bracketSum inner < 0 := by omega
    obtain ⟨more, inner', close', rfl, hinner', hclose'⟩ := exists_closesFrom (le_refl 0) hless
    exact ⟨more, close, hclose, inner', close', by simp, hinner', hclose'⟩

/-- How many words of a declaration are to come after a token outside of declarations. -/
def Token.wordsAfter (t : Token) : Nat := if t.isKeyword "set" then 5 else 0

/-- The words of declarations among tokens, of which the first so many are such words. -/
def wordsFrom : Nat → List Token → List Token
  | _, [] => []
  | 0, t :: ts => wordsFrom t.wordsAfter ts
  | n + 1, t :: ts => t :: wordsFrom n ts

/-- The tokens that are no words of declarations. -/
def plainFrom : Nat → List Token → List Token
  | _, [] => []
  | 0, t :: ts => t :: plainFrom t.wordsAfter ts
  | n + 1, _ :: ts => plainFrom n ts

/-- How many words of a declaration are to come after tokens. -/
def wordsLeft : Nat → List Token → Nat
  | n, [] => n
  | 0, t :: ts => wordsLeft t.wordsAfter ts
  | n + 1, _ :: ts => wordsLeft n ts

/-- The words of declarations in two lists put together. -/
theorem wordsFrom_append (n : Nat) (ss ts : List Token) :
    wordsFrom n (ss ++ ts) = wordsFrom n ss ++ wordsFrom (wordsLeft n ss) ts := by
  induction ss generalizing n with
  | nil => cases n <;> rfl
  | cons t ss ih =>
    cases n with
    | zero => exact ih t.wordsAfter
    | succ n => exact congrArg (t :: ·) (ih n)

/-- The other tokens in two lists put together. -/
theorem plainFrom_append (n : Nat) (ss ts : List Token) :
    plainFrom n (ss ++ ts) = plainFrom n ss ++ plainFrom (wordsLeft n ss) ts := by
  induction ss generalizing n with
  | nil => cases n <;> rfl
  | cons t ss ih =>
    cases n with
    | zero => exact congrArg (t :: ·) (ih t.wordsAfter)
    | succ n => exact ih n

/-- How many words are to come after two lists put together. -/
theorem wordsLeft_append (n : Nat) (ss ts : List Token) :
    wordsLeft n (ss ++ ts) = wordsLeft (wordsLeft n ss) ts := by
  induction ss generalizing n with
  | nil => cases n <;> rfl
  | cons t ss ih =>
    cases n with
    | zero => exact ih t.wordsAfter
    | succ n => exact ih n

/-- Every token is a word of a declaration or is not. -/
theorem bracketSum_eq (n : Nat) (ts : List Token) :
    bracketSum ts = bracketSum (plainFrom n ts) + bracketSum (wordsFrom n ts) := by
  induction ts generalizing n with
  | nil => cases n <;> rfl
  | cons t ts ih =>
    cases n with
    | zero =>
      rw [bracketSum_cons, ih t.wordsAfter, plainFrom, bracketSum_cons, wordsFrom]
      omega
    | succ n =>
      rw [bracketSum_cons, ih n, plainFrom, wordsFrom, bracketSum_cons]
      omega

/-- The words of the declarations among tokens. -/
abbrev declaredWords (ts : List Token) : List Token := wordsFrom 0 ts

/-- Tokens are balanced if the words of declarations among them are, and the others. -/
theorem balanced_of_plain (hplain : Balanced (plainFrom 0 ts))
    (hwords : Balanced (declaredWords ts)) : Balanced ts := by
  have hplain_total : 0 + bracketSum (plainFrom 0 ts) = 0 := hplain.total
  have hwords_total : 0 + bracketSum (wordsFrom 0 ts) = 0 := hwords.total
  refine ⟨by rw [bracketSum_eq 0 ts]; omega, ?_⟩
  rintro front ⟨more, rfl⟩
  have hplain := hplain.nonneg (plainFrom 0 front) ⟨_, (plainFrom_append 0 front more).symm⟩
  have hwords := hwords.nonneg (wordsFrom 0 front) ⟨_, (wordsFrom_append 0 front more).symm⟩
  rw [bracketSum_eq 0 front]
  omega

/-- Tokens with whole declarations and with brackets that are balanced outside of them. -/
structure Whole (ts : List Token) : Prop where
  /-- No words of a declaration are missing. -/
  complete : wordsLeft 0 ts = 0
  /-- The brackets outside of declarations are balanced. -/
  balanced : Balanced (plainFrom 0 ts)

/-- A token that is neither a bracket nor the first of a declaration. -/
structure Token.Plain (t : Token) : Prop where
  /-- It opens and closes no bracket. -/
  step : t.bracketStep = 0
  /-- It starts no declaration. -/
  alone : t.wordsAfter = 0

/-- No tokens are whole. -/
theorem Whole.nil : Whole [] := ⟨rfl, Balanced.nil⟩

/-- Whole tokens one after the other are whole. -/
theorem Whole.append (hs : Whole ss) (ht : Whole ts) : Whole (ss ++ ts) := by
  refine ⟨?_, ?_⟩
  · rw [wordsLeft_append, hs.complete, ht.complete]
  · rw [plainFrom_append, hs.complete]
    exact hs.balanced.append ht.balanced

/-- A plain token is whole. -/
theorem Token.Plain.whole (h : t.Plain) : Whole [t] :=
  ⟨h.alone, .single h.step⟩

/-- A bracket starts no declaration. -/
theorem wordsAfter_punct {text : Text} (h : t.isPunct text = true) : t.wordsAfter = 0 := by
  rw [Token.wordsAfter, Token.isKeyword, (Token.isPunct_eq_true.mp h).1]
  rfl

/-- Whole tokens in brackets are whole. -/
theorem Whole.enclosed {opening : Token} (hopening : opening.isPunct "[" = true) (hts : Whole ts)
    (hclose : close.isPunct "]" = true) : Whole (opening :: (ts ++ [close])) := by
  have hafter := wordsAfter_punct hopening
  refine ⟨?_, ?_⟩
  · rw [wordsLeft, hafter, wordsLeft_append, hts.complete]
    exact wordsAfter_punct hclose
  · rw [plainFrom, hafter, plainFrom_append, hts.complete]
    exact hts.balanced.enclosed hopening hclose

/-- A declaration is whole. -/
theorem Whole.declaration {words : List Token} (ht : t.isKeyword "set" = true)
    (hwords : words.length = 5) : Whole (t :: words) := by
  have hafter : t.wordsAfter = words.length := (if_pos ht).trans hwords.symm
  have hleft (ws : List Token) : wordsLeft ws.length ws = 0 ∧ plainFrom ws.length ws = [] := by
    induction ws with
    | nil => exact ⟨rfl, rfl⟩
    | cons w ws ih => exact ih
  have hstep : t.bracketStep = 0 := by
    simp [Token.bracketStep, Token.isPunct, (Token.isKeyword_eq_true.mp ht).1]
  refine ⟨?_, ?_⟩
  · rw [wordsLeft, hafter]
    exact (hleft words).1
  · rw [plainFrom, hafter, (hleft words).2]
    exact .single hstep

/-- A text that is neither a bracket nor the first word of a declaration. -/
abbrev PlainText (text : Text) : Prop := text ≠ "[" ∧ text ≠ "]" ∧ text ≠ "set"

/-- Tokens with plain texts are plain. -/
theorem PlainText.plain {t : Token} (h : PlainText t.text) : t.Plain := by
  obtain ⟨hopening, hclose, hset⟩ := h
  constructor
  · simp [Token.bracketStep, Token.isPunct, hopening, hclose]
  · simp [Token.wordsAfter, Token.isKeyword, hset]

/-- Tokens that are neither punctuation nor keywords are plain. -/
theorem Token.plain_of_kind {t : Token} {kind : Kind} (hkind : t.kind = kind)
    (h : kind ≠ .punctuation ∧ kind ≠ .keyword) : t.Plain := by
  obtain ⟨hpunct, hkeyword⟩ := h
  constructor
  · simp [Token.bracketStep, Token.isPunct, hkind, hpunct]
  · simp [Token.wordsAfter, Token.isKeyword, hkind, hkeyword]

/-- Punctuation with a plain text is plain. -/
theorem plain_of_isPunct {t : Token} {text : Text} (h : t.isPunct text = true)
    (htext : PlainText text) : t.Plain :=
  PlainText.plain ((Token.isPunct_eq_true.mp h).2 ▸ htext)

/-- A keyword with a plain text is plain. -/
theorem plain_of_isKeyword {t : Token} {text : Text} (h : t.isKeyword text = true)
    (htext : PlainText text) : t.Plain :=
  PlainText.plain ((Token.isKeyword_eq_true.mp h).2 ▸ htext)

/-- Whether a fault is one that only the rows of a matrix have. -/
def SyntaxFault.ofMatrix : SyntaxFault → Bool
  | expectedComma _ | expectedCell | raggedMatrix .. => true
  | _ => false

/-- Whether a fault is an opening bracket in place of a comma. -/
def SyntaxFault.opensBracket : SyntaxFault → Bool
  | expectedComma token => token.isPunct "["
  | _ => false

/-- What a reader has taken of a matrix when it gives it up: balanced tokens, and an opening
bracket if that is what it gives it up for. -/
structure Complaint (fault : SyntaxFault) (taken : List Token) : Prop where
  /-- The fault is one of a matrix. -/
  ofMatrix : fault.ofMatrix = true
  /-- Without the opening bracket the tokens are balanced outside of declarations. -/
  balanced : fault.opensBracket = false → Balanced (plainFrom 0 taken)
  /-- Before the opening bracket the tokens are whole. -/
  opening : fault.opensBracket = true →
    ∃ read bracket, taken = read ++ [bracket] ∧ Whole read ∧ bracket.isPunct "[" = true

/-- Whole tokens may stand before. -/
theorem Complaint.after {fault : SyntaxFault} {ss ts : List Token} (h : Complaint fault ts)
    (hss : Whole ss) : Complaint fault (ss ++ ts) := by
  refine ⟨h.ofMatrix, fun hno => ?_, fun hyes => ?_⟩
  · rw [plainFrom_append, hss.complete]
    exact hss.balanced.append (h.balanced hno)
  · obtain ⟨read, bracket, rfl, hread, hbracket⟩ := h.opening hyes
    exact ⟨ss ++ read, bracket, (List.append_assoc ss read [bracket]).symm, hss.append hread,
      hbracket⟩

/-- A fault other than an opening bracket, found without taking a token. -/
theorem Complaint.nil {fault : SyntaxFault} (hmatrix : fault.ofMatrix = true)
    (hno : fault.opensBracket = false) : Complaint fault [] := by
  refine ⟨hmatrix, fun _ => Balanced.nil, fun hyes => ?_⟩
  cases hno.symm.trans hyes

/-- A token taken in place of a comma, which is not the closing bracket. -/
theorem Complaint.comma (h : ¬t.isPunct "]" = true) : Complaint (.expectedComma t) [t] := by
  refine ⟨rfl, fun hno => .single ?_, fun hyes => ⟨[], t, rfl, .nil, hyes⟩⟩
  rw [SyntaxFault.opensBracket] at hno
  rw [Token.bracketStep, hno, if_neg h]
  rfl

end SymCalc
