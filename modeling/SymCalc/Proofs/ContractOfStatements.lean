import Mathlib
import SymCalc.Proofs.Contract

/-!
# What every reader keeps

Every production of the grammar keeps any lawful contract, given that the statements nested in it
do: it takes whole tokens, stays near, and builds its tree from the tokens taken. Main statement: so
do statements, with any bound on their nesting that exceeds the number of tokens to come.
-/

namespace SymCalc

open Parse

variable {α M : Type} [Numeric M]

/-- Trees that are built from tokens as a reader builds them. -/
inductive Expr.BuiltFrom (ts : List Token) : Expr M → Prop where
  | number {t : Token} {m : M} (mem : t ∈ ts) (kind : t.kind = .digit)
      (value : Numeric.read? t.text = some m) : BuiltFrom ts (.literal t.pos (.scalar (.number m)))
  | boolean {t : Token} (mem : t ∈ ts) (b : Bool) : BuiltFrom ts (.literal t.pos (.boolean b))
  | imaginaryUnit {t : Token} (mem : t ∈ ts) :
      BuiltFrom ts (.literal t.pos (.scalar (.poly (.term .imaginaryUnit))))
  | named {t name : Token} (mem : t ∈ ts) (read : name ∈ ts) (kind : name.kind = .identifier)
      (notUnit : name.text ≠ "i") :
      BuiltFrom ts (.literal t.pos (.scalar (.poly (.term (.named name.text)))))
  | reference {t : Token} (mem : t ∈ ts) (kind : t.kind = .identifier) :
      BuiltFrom ts (.reference ⟨t.pos, t.text⟩)
  | unary {t : Token} {x : Expr M} (mem : t ∈ ts) (known : isUnaryOperator t.text = true)
      (operand : BuiltFrom ts x) : BuiltFrom ts (.unary t.pos ⟨t.pos, t.text⟩ x)
  | operation {t : Token} {left right : Expr M} (mem : t ∈ ts) (kind : t.kind = .operator)
      (known : (priority? t.text).isSome = true) (notMinus : t.text ≠ "-")
      (first : BuiltFrom ts left) (second : BuiltFrom ts right) :
      BuiltFrom ts (rotate left ⟨t.pos, t.text⟩ right)
  | difference {t : Token} {left right : Expr M} (mem : t ∈ ts) (first : BuiltFrom ts left)
      (second : BuiltFrom ts right) :
      BuiltFrom ts (rotate left ⟨t.pos, "+"⟩ (.unary right.pos ⟨t.pos, "-"⟩ right))
  | assign {ref : Ref} {x : Expr M} (target : BuiltFrom ts (.reference ref))
      (value : BuiltFrom ts x) :
      BuiltFrom ts (.assign ref.pos ref x)
  | tuple {t : Token} {items : List (Expr M)} (mem : t ∈ ts) (nonempty : items ≠ [])
      (made : ∀ x ∈ items, BuiltFrom ts x) : BuiltFrom ts (.tuple t.pos items)
  | matrix {t : Token} {rows : List (List (Expr M))} (mem : t ∈ ts)
      (full : rows ≠ [] ∧ ∃ width, 0 < width ∧ ∀ row ∈ rows, row.length = width)
      (made : ∀ row ∈ rows, ∀ x ∈ row, BuiltFrom ts x) : BuiltFrom ts (.matrix t.pos rows)
  | ifThen {t : Token} {test yes : Expr M} (mem : t ∈ ts) (first : BuiltFrom ts test)
      (second : BuiltFrom ts yes) : BuiltFrom ts (.ifThen t.pos test yes)
  | ifElse {t : Token} {test yes no : Expr M} (mem : t ∈ ts) (first : BuiltFrom ts test)
      (second : BuiltFrom ts yes) (third : BuiltFrom ts no) :
      BuiltFrom ts (.ifElse t.pos test yes no)
  | lambda {t : Token} {params : List Ref} {start : Position} {body : List (Expr M)} (mem : t ∈ ts)
      (names : ∀ p ∈ params, BuiltFrom ts (.reference p)) (made : ∀ x ∈ body, BuiltFrom ts x) :
      BuiltFrom ts (.lambda t.pos params start body)
  | call {t : Token} {args : List (Expr M)} (mem : t ∈ ts) (kind : t.kind = .identifier)
      (made : ∀ x ∈ args, BuiltFrom ts x) : BuiltFrom ts (.call t.pos t.text args)
  | ret {t : Token} {x : Expr M} (mem : t ∈ ts) (value : BuiltFrom ts x) :
      BuiltFrom ts (.ret t.pos x)
  | declare {t : Token} (mem : t ∈ ts) (words : Declaration) : BuiltFrom ts (.declare t.pos words)

omit [Numeric M] in
/-- However operators are turned, the operation stands where its left side does. -/
theorem Parse.pos_rotate (left : Expr M) (op : Operator) (right : Expr M) :
    (rotate left op right).pos = left.pos := by
  unfold rotate
  cases right with
  | binary pos inner o last =>
    dsimp only
    split <;> rfl
  | _ => rfl

namespace Expr.BuiltFrom

variable {ts taken all : List Token} {x : Expr M} {xs : List (Expr M)}

/-- A tree is built from more tokens as well. -/
theorem mono (h : x.BuiltFrom taken) (hall : taken ⊆ all) : x.BuiltFrom all := by
  induction h with
  | number mem kind value => exact .number (hall mem) kind value
  | boolean mem b => exact .boolean (hall mem) b
  | imaginaryUnit mem => exact .imaginaryUnit (hall mem)
  | named mem read kind notUnit => exact .named (hall mem) (hall read) kind notUnit
  | reference mem kind => exact .reference (hall mem) kind
  | unary mem known _ ih => exact .unary (hall mem) known ih
  | operation mem kind known notMinus _ _ ih₁ ih₂ =>
    exact .operation (hall mem) kind known notMinus ih₁ ih₂
  | difference mem _ _ ih₁ ih₂ => exact .difference (hall mem) ih₁ ih₂
  | assign _ _ ih₁ ih₂ => exact .assign ih₁ ih₂
  | tuple mem nonempty _ ih => exact .tuple (hall mem) nonempty ih
  | matrix mem full _ ih => exact .matrix (hall mem) full ih
  | ifThen mem _ _ ih₁ ih₂ => exact .ifThen (hall mem) ih₁ ih₂
  | ifElse mem _ _ _ ih₁ ih₂ ih₃ => exact .ifElse (hall mem) ih₁ ih₂ ih₃
  | lambda mem _ _ ih₁ ih₂ => exact .lambda (hall mem) ih₁ ih₂
  | call mem kind _ ih => exact .call (hall mem) kind ih
  | ret mem _ ih => exact .ret (hall mem) ih
  | declare mem words => exact .declare (hall mem) words

/-- Several trees are built from more tokens as well. -/
theorem mono_all (h : ∀ x ∈ xs, x.BuiltFrom taken) (hall : taken ⊆ all) :
    ∀ x ∈ xs, x.BuiltFrom all :=
  fun x hx => (h x hx).mono hall

/-- A tree stands where one of its tokens does. -/
theorem exists_pos (h : x.BuiltFrom ts) : ∃ t ∈ ts, t.pos = x.pos := by
  induction h with
  | operation _ _ _ _ _ _ ih | difference _ _ _ ih =>
    rw [pos_rotate]
    exact ih
  | assign _ _ ih => exact ih
  | number mem | boolean mem | imaginaryUnit mem | named mem | reference mem | unary mem
  | tuple mem | matrix mem | ifThen mem | ifElse mem | lambda mem | call mem | ret mem
  | declare mem => exact ⟨_, mem, rfl⟩

end Expr.BuiltFrom

namespace Contract

variable {K : Contract} {near : Bool} {taken all : List Token} {c c' d d' : Cursor} {token : Token}
  {n n' rounds rounds' : Nat}

/-- Bounds on the rounds or on the nesting of both readers exceed the tokens to come. They are the
same if there is but one reader. -/
structure Suffices (K : Contract) (taken : List Token) (n n' : Nat) : Prop where
  /-- Without a second reader the bounds are the same. -/
  same : ¬K.paired → n' = n
  /-- The bound of the first reader. -/
  first : K.bound < taken.length + n
  /-- The bound of the second reader. -/
  second : K.bound < taken.length + n'

namespace Suffices

/-- More tokens leave fewer to come. -/
theorem of_le (h : K.Suffices taken n n') (hle : taken.length ≤ all.length) :
    K.Suffices all n n' := by
  have hfirst := h.first
  have hsecond := h.second
  exact ⟨h.same, by omega, by omega⟩

/-- A token more makes up for a round less. -/
theorem pred (h : K.Suffices taken (n + 1) (n' + 1)) (hlt : taken.length < all.length) :
    K.Suffices all n n' := by
  have hfirst := h.first
  have hsecond := h.second
  exact ⟨fun hone => Nat.succ.inj (h.same hone), by omega, by omega⟩

/-- A round more does no harm. -/
theorem succ (h : K.Suffices taken n n') : K.Suffices taken (n + 1) (n' + 1) := by
  have hfirst := h.first
  have hsecond := h.second
  exact ⟨fun hone => congrArg Nat.succ (h.same hone), by omega, by omega⟩

/-- Without a round left the bound on the tokens is met, and there is but one reader. -/
theorem of_zero (hK : K.Lawful M) (h : K.Suffices taken 0 n') (hat : K.At near taken c c') :
    n' = 0 ∧ K.bound < taken.length := by
  refine ⟨h.same fun hpaired => ?_, h.first⟩
  exact absurd h.first (not_lt.mpr (hK.within hpaired hat))

/-- With a round left for the first reader there is one for the second. -/
theorem exists_succ (hK : K.Lawful M) (h : K.Suffices taken (n + 1) n')
    (hat : K.At near taken c c') : ∃ m', n' = m' + 1 := by
  cases n' with
  | succ m' => exact ⟨m', rfl⟩
  | zero =>
    by_cases hpaired : K.paired
    · exact absurd h.second (not_lt.mpr (hK.within hpaired hat))
    · cases h.same hpaired

end Suffices

/-- Readers of statements keep a contract where few enough tokens are to come, and the first one
fails at the end of the input. -/
structure Nested (K : Contract) (n n' : Nat) (S S' : Bool → Parse (Expr M)) : Prop where
  /-- A statement takes a token and is built from those that were taken. -/
  read {alone near taken c c'} : K.At near taken c c' → K.Suffices taken n n' →
    K.Met (Expr.relabel K.move)
      (K.Leaves taken fun all x => taken.length < all.length ∧ x.BuiltFrom all)
      (S alone c) (S' alone c')
  /-- There is no statement at the end. -/
  fails (alone : Bool) {c : Cursor} : c.Finished → Fails (S alone c)

variable {S S' : Bool → Parse (Expr M)}

/-- There is no list at the end. -/
theorem Nested.membersWithin_fails (hS : K.Nested n n' S S') (stop separator : Text) (rounds : Nat)
    (read : List (Expr M)) (h : c.Finished) :
    Fails (membersWithin S stop separator rounds read c) := by
  cases rounds with
  | zero => exact exhausted_fails h
  | succ rounds => exact Fails.bind (Fails.bind (hS.fails false h))

/-- There is no row at the end. -/
theorem Nested.rowsVerdict_fails (hS : K.Nested n n' S S') (size : Nat) (bracket : Token)
    (rounds : Nat) (read : List (List (Expr M))) (h : c.Finished) :
    Fails (rowsVerdict S size bracket rounds read c) := by
  cases rounds with
  | zero => exact exhausted_fails h
  | succ rounds => exact Fails.bind (hS.fails false h)

/-- A verdict with its positions changed. -/
def relabelVerdict (f : Position → Position) (g : α → α) : Verdict α → Verdict α
  | .ok a => .ok (g a)
  | .error (token, fault) => .error (token.relabel f, fault.relabel f)

/-- Tokens are taken before a fault in a matrix, after others. -/
def AddsFault (fault : SyntaxFault) (taken all : List Token) : Prop :=
  ∃ more, Complaint fault more ∧ all = taken ++ more

/-- A fault that is no opening bracket is come to without taking a token. -/
theorem AddsFault.refl {fault : SyntaxFault} (hmatrix : fault.ofMatrix = true)
    (hno : fault.opensBracket = false) : AddsFault fault taken taken :=
  ⟨[], .nil hmatrix hno, (List.append_nil taken).symm⟩

/-- Whole tokens and a closing bracket are taken after others. -/
def AddsEnd (taken all : List Token) : Prop :=
  ∃ inner close, all = taken ++ (inner ++ [close]) ∧ Whole inner ∧ close.isPunct "]" = true

/-- Whole tokens may be taken before. -/
theorem AddsEnd.after {last : List Token} (hall : AddsWhole taken all) (h : AddsEnd all last) :
    AddsEnd taken last := by
  obtain ⟨more, hmore, rfl⟩ := hall
  obtain ⟨inner, close, rfl, hinner, hclose⟩ := h
  exact ⟨more ++ inner, close, by simp, hmore.append hinner, hclose⟩

/-- What a reader of a part of a matrix comes to: a result that has a property in view of all
tokens, when it has taken tokens of some sort, or a fault at one of the tokens. -/
def Judged (K : Contract) (taken : List Token) (E : List Token → List Token → Prop)
    (Q : List Token → α → Prop) : Verdict α → Cursor → Cursor → Prop
  | .ok a, d, d' => ∃ all, E taken all ∧ K.At true all d d' ∧ Q all a
  | .error (token, fault), d, d' =>
    ∃ all, AddsFault fault taken all ∧ token ∈ all ∧ K.At true all d d'

/-- Whole tokens may be taken before a part of a matrix. -/
theorem Met.judged {E : List Token → List Token → Prop} {Q : List Token → α → Prop}
    {f : Verdict α → Verdict α} {r r' : EStateM.Result SyntaxError Cursor (Verdict α)}
    (hall : AddsWhole taken all) (hE : ∀ last, E all last → E taken last)
    (h : K.Met f (K.Judged all E Q) r r') : K.Met f (K.Judged taken E Q) r r' := by
  refine h.mono ?_
  rintro (⟨token, fault⟩ | a) d d' hverdict
  · obtain ⟨_, ⟨more, hmore, rfl⟩, hmem, hat⟩ := hverdict
    obtain ⟨before, hbefore, rfl⟩ := hall
    exact ⟨_, ⟨before ++ more, hmore.after hbefore, List.append_assoc _ _ _⟩, hmem, hat⟩
  · obtain ⟨last, hlast, hat, ha⟩ := hverdict
    exact ⟨last, hE last hlast, hat, ha⟩

omit [Numeric M] in
/-- A row of the length of the others may be added to rows of one length. -/
theorem full_append {read : List (List (Expr M))} {row : List (Expr M)} (hne : row ≠ [])
    (hfull : ∃ width, 0 < width ∧ ∀ row ∈ read, row.length = width)
    (hlength : row.length = (read.headD row).length) :
    ∃ width, 0 < width ∧ ∀ row' ∈ read ++ [row], row'.length = width := by
  cases read with
  | nil => exact ⟨row.length, List.length_pos_iff.mpr hne, by simp⟩
  | cons first rest =>
    obtain ⟨width, hpos, hall⟩ := hfull
    have hfirst : row.length = width := hlength.trans (hall first List.mem_cons_self)
    exact ⟨width, hpos, List.forall_mem_append.mpr ⟨hall, List.forall_mem_singleton.mpr hfirst⟩⟩

section Productions

variable (hK : K.Lawful M)

include hK

/-- Taking a token of some sort. -/
theorem need_met {kind : Kind} (hkind : kind ≠ .eof) {text : Text} (htext : PlainText text)
    (h : K.At near taken c c') :
    K.Met id (K.Leaves taken fun _ _ => True) (need kind text c) (need kind text c') := by
  refine hK.next_bind h (fun t d d' _ _ hat => ?_) fun t hend => ?_
  · refine .ite (fun hsame => ?_) fun _ => .fail (hK.mayFail hat (by simp)) rfl rfl
    have htoken : t.text = text := of_decide_eq_true (Bool.and_eq_true_iff.mp hsame).2
    have hplain : t.Plain := PlainText.plain (htoken ▸ htext)
    exact .after (.append hplain.whole) (.stay hat trivial rfl)
  · have hno : ¬(decide (t.kind = kind) && decide (t.text = text)) = true := by
      simp [hend, Ne.symm hkind]
    exact ⟨.expected text t, rfl, if_neg hno, if_neg hno⟩

/-- Looking whether a token of some sort follows on the line. -/
theorem follows_met {test : Token → Bool} (htest : ∀ t, test (t.relabel K.move) = test t)
    (h : K.At true taken c c') :
    K.Met id (fun b d d' => K.At true taken d d' ∧ (b = true → test d.scanner.peek.1 = true))
      (follows test c) (follows test c') := by
  refine hK.look_bind (fun t => pure (test t)) (fun t => pure (test t)) h
    (fun d d' hat => .pure ⟨hat, nofun⟩ rfl) fun t d d' ht _ hat => ?_
  exact .pure ⟨hat, fun hyes => by rw [ht, hyes]⟩ (htest t).symm

/-- Looking for an operator. -/
theorem operatorFollows_met (h : K.At true taken c c') :
    K.Met id
      (fun b d d' => K.At true taken d d' ∧ (b = true → d.scanner.peek.1.kind = .operator))
      (operatorFollows c) (operatorFollows c') := by
  refine (follows_met hK (fun _ => rfl) h).mono ?_
  rintro b d d' ⟨hat, hseen⟩
  exact ⟨hat, fun hb => of_decide_eq_true (Bool.and_eq_true_iff.mp (hseen hb)).1⟩

/-- Looking for an opening parenthesis. -/
theorem callFollows_met (h : K.At true taken c c') :
    K.Met id (fun _ => K.At true taken) (callFollows c) (callFollows c') :=
  (follows_met hK (fun _ => rfl) h).mono fun _ _ _ hseen => hseen.1

/-- The operand that a token is. -/
theorem operand_met (hmem : token ∈ taken) (h : K.At true taken c c') :
    K.Met (Expr.relabel K.move)
      (fun x d d' => d = c ∧ d' = c' ∧ x.BuiltFrom taken ∧ token.Plain)
      ((operand token : Parse (Expr M)) c)
      ((operand (token.relabel K.move) : Parse (Expr M)) c') := by
  have hmay := hK.mayFail h hmem
  unfold operand
  simp only [Token.kind_relabel, Token.text_relabel, Token.pos_relabel]
  cases hkind : token.kind with
  | digit =>
    dsimp only
    cases hvalue : Numeric.read? (M := M) token.text with
    | some m =>
      exact .pure ⟨rfl, rfl, .number hmem hkind hvalue, Token.plain_of_kind hkind (by decide)⟩ rfl
    | none => exact .fail hmay rfl rfl
  | identifier =>
    exact .pure ⟨rfl, rfl, .reference hmem hkind, Token.plain_of_kind hkind (by decide)⟩ rfl
  | keyword =>
    refine .ite (fun htrue => ?_) fun _ => .ite (fun hfalse => ?_) fun _ => .fail hmay rfl rfl
    · exact .pure ⟨rfl, rfl, .boolean hmem true, PlainText.plain (htrue ▸ by decide)⟩ rfl
    · exact .pure ⟨rfl, rfl, .boolean hmem false, PlainText.plain (hfalse ▸ by decide)⟩ rfl
  | string | eof | error | operator | punctuation => exact .fail hmay rfl rfl

variable (hS : K.Nested n n' S S')

include hS

/-- An operator and what follows it. -/
theorem operation_met {left : Expr M} (hleft : left.BuiltFrom taken) (h : K.At true taken c c')
    (hop : c.scanner.peek.1.kind = .operator) (hn : K.Suffices taken n n') :
    K.Met (Expr.relabel K.move) (K.Leaves taken fun all x => x.BuiltFrom all)
      (operation S left c) (operation S' (left.relabel K.move) c') := by
  refine hK.take_bind h rfl (by rw [hop]; decide) fun d d' hat => ?_
  generalize c.scanner.peek.1 = t at hop hat ⊢
  have hmem : t ∈ taken ++ [t] := by simp
  have hmay := hK.mayFail hat hmem
  have hplain : t.Plain := Token.plain_of_kind hop (by decide)
  have hn' : K.Suffices (taken ++ [t]) n n' := hn.of_le (by simp)
  have hleft' : left.BuiltFrom (taken ++ [t]) := hleft.mono (List.subset_append_left taken [t])
  refine .after (.append hplain.whole) ?_
  refine .ite (fun _ => ?_) fun _ => .ite (fun _ => .fail hmay rfl rfl) fun hknown => ?_
  · cases left with
    | reference ref =>
      refine (hS.read hat hn').andThen fun x all e e' hall he hx => ?_
      exact .stay he (.assign (hleft'.mono hall.subset) hx.2) rfl
    | _ => exact .fail hmay rfl (congrArg SyntaxFault.cannotAssign (Expr.source_relabel _ _))
  · refine (hS.read hat hn').andThen fun x all e e' hall he hx => ?_
    have hmem' := hall.subset hmem
    have hleft'' := hleft'.mono hall.subset
    refine .ite (fun _ => ?_) fun hminus => ?_
    · refine .stay he (.difference hmem' hleft'' hx.2) ?_
      rw [Expr.rotate_relabel, Expr.relabel, Expr.pos_relabel]
      rfl
    · have hsome : (priority? t.text).isSome = true := by
        rw [Option.isNone_iff_eq_none] at hknown
        exact Option.isSome_iff_ne_none.mpr hknown
      refine .stay he (.operation hmem' hop hsome hminus hleft'' hx.2) ?_
      rw [Expr.rotate_relabel]
      rfl

/-- An operation that may follow. -/
theorem more_met {left : Expr M} (hleft : left.BuiltFrom taken) (alone : Bool)
    (h : K.At true taken c c') (hn : K.Suffices taken n n') :
    K.Met (Expr.relabel K.move) (K.Leaves taken fun all x => x.BuiltFrom all)
      (more S left alone c) (more S' (left.relabel K.move) alone c') := by
  refine .ite (fun _ => .stay h hleft rfl) fun _ => ?_
  refine (operatorFollows_met hK h).bind ?_
  rintro follows d d' - ⟨hat, hop⟩
  exact .ite (fun hyes => operation_met hK hS hleft hat (hop hyes) hn) fun _ => .stay hat hleft rfl

/-- A prefix operator and what follows it. -/
theorem prefixed_met (hmem : token ∈ taken) (h : K.At true taken c c')
    (hn : K.Suffices taken n n') :
    K.Met (Expr.relabel K.move) (K.Leaves taken fun all x => x.BuiltFrom all)
      (prefixed S token c) (prefixed S' (token.relabel K.move) c') := by
  refine .ite (fun _ => ?_) fun _ => .ite (fun _ => ?_) fun hknown => ?_
  · refine hK.next_bind h (fun name d d' _ _ hat => ?_) fun name hend => ?_
    · have hname : name ∈ taken ++ [name] := by simp
      have htoken : token ∈ taken ++ [name] := List.mem_append_left [name] hmem
      refine .ite (fun _ => .fail (hK.mayFail hat hname) rfl rfl) fun hkind => ?_
      have hkind : name.kind = .identifier := not_not.mp hkind
      refine .after (.append (Token.plain_of_kind hkind (by decide)).whole) ?_
      exact .ite (fun _ => .stay hat (.imaginaryUnit htoken) rfl)
        fun hunit => .stay hat (.named htoken hname hkind hunit) rfl
    · have hno : name.kind ≠ .identifier := by
        rw [hend]
        decide
      exact ⟨.expectedName name, rfl, if_pos hno, if_pos hno⟩
  · exact .fail (hK.mayFail h hmem) rfl rfl
  · refine (hS.read h hn).andThen fun x all d d' hall hat hx => ?_
    exact .stay hat (.unary (hall.subset hmem) (by simpa using hknown) hx.2) rfl

/-- A member of a list. -/
theorem member_met (h : K.At near taken c c') (hn : K.Suffices taken n n') :
    K.Met (Expr.relabel K.move)
      (K.Leaves taken fun all x => taken.length < all.length ∧ x.BuiltFrom all)
      (member S c) (member S' c') := by
  refine (hS.read h hn).andThen fun x all d d' hall hat hx => ?_
  refine (operatorFollows_met hK hat).bind ?_
  rintro follows e e' - ⟨hat', hop⟩
  refine .ite (fun hyes => ?_) fun _ => .stay hat' hx rfl
  refine (operation_met hK hS hx.2 hat' (hop hyes) (hn.of_le hall.length_le)).weaken ?_
  exact fun last y hlast hy => ⟨hx.1.trans_le hlast.length_le, hy⟩

/-- The members of a list, with any bounds that exceed the tokens to come. -/
theorem membersWithin_met {stop separator : Text} (hstop : PlainText stop)
    (hseparator : PlainText separator) {read : List (Expr M)}
    (hread : ∀ x ∈ read, x.BuiltFrom taken) (h : K.At near taken c c')
    (hn : K.Suffices taken n n') (hrounds : K.Suffices taken rounds rounds') :
    K.Met (List.map (Expr.relabel K.move)) (K.Leaves taken fun all xs => ∀ x ∈ xs, x.BuiltFrom all)
      (membersWithin S stop separator rounds read c)
      (membersWithin S' stop separator rounds' (read.map (Expr.relabel K.move)) c') := by
  induction rounds generalizing rounds' near taken c c' read with
  | zero =>
    obtain ⟨rfl, hbound⟩ := hrounds.of_zero hK h
    exact hK.exhausted h hbound
  | succ rounds ih =>
    obtain ⟨rounds', rfl⟩ := hrounds.exists_succ hK h
    refine (member_met hK hS h hn).andThen fun x all d d' hall hat hx => ?_
    have hsame : read.map (Expr.relabel K.move) ++ [x.relabel K.move] =
        (read ++ [x]).map (Expr.relabel K.move) := by simp
    rw [hsame]
    have hread' : ∀ y ∈ read ++ [x], y.BuiltFrom all :=
      List.forall_mem_append.mpr
        ⟨Expr.BuiltFrom.mono_all hread hall.subset, List.forall_mem_singleton.mpr hx.2⟩
    -- Going on with the members read so far, and ending the list.
    have hagain {line : Bool} {last : List Token} {e e' : Cursor} (hlast : AddsWhole all last)
        (he : K.At line last e e') :
        K.Met (List.map (Expr.relabel K.move))
          (K.Leaves last fun all xs => ∀ x ∈ xs, x.BuiltFrom all)
          (membersWithin S stop separator rounds (read ++ [x]) e)
          (membersWithin S' stop separator rounds' ((read ++ [x]).map (Expr.relabel K.move)) e') :=
      ih (Expr.BuiltFrom.mono_all hread' hlast.subset) he
        (hn.of_le (hall.trans hlast).length_le)
        (hrounds.pred (hx.1.trans_le hlast.length_le))
    have hends {t : Token} {last : List Token} {e e' : Cursor} (hlast : AddsWhole all last)
        (he : K.At false last e e') (ht : e.scanner.peek.1 = t) (hclose : t.isPunct stop = true) :
        K.Met (List.map (Expr.relabel K.move))
          (K.Leaves last fun all xs => ∀ x ∈ xs, x.BuiltFrom all)
          ((do let _ ← Parse.next; return read ++ [x] : Parse (List (Expr M))) e)
          ((do let _ ← Parse.next; return (read ++ [x]).map (Expr.relabel K.move) :
            Parse (List (Expr M))) e') := by
      refine hK.take_bind he ht (Token.ne_eof_of_isPunct hclose) fun g g' hg => ?_
      have htake : AddsWhole last (last ++ [t]) := .append (plain_of_isPunct hclose hstop).whole
      exact .after htake (.stay hg (Expr.BuiltFrom.mono_all hread' (hlast.trans htake).subset) rfl)
    refine hK.peek_bind hat (fun t e e' ht he hmay => ?_) fun t e heof hfinished => ?_
    · refine .ite (hends (.refl all) he ht) fun _ => .ite (fun heof => ?_) fun _ =>
        .ite (fun _ => ?_) fun _ => .ite (fun hbetween => ?_) fun _ => hagain (.refl all) he
      · exact .fail (hmay heof) rfl rfl
      · refine (need_met hK (by decide) hseparator he).andThen fun _ last g g' hlast hg _ => ?_
        exact hagain hlast hg
      · refine hK.take_bind he ht (Token.ne_eof_of_isPunct hbetween) fun g g' hg => ?_
        have htake : AddsWhole all (all ++ [t]) :=
          .append (plain_of_isPunct hbetween (by decide)).whole
        refine .after htake (hK.peek_bind hg (fun u v v' hu hv _ => ?_)
          fun u v heof hfinished => ?_)
        · exact .ite (hends htake hv hu) fun _ => hagain htake hv
        · rw [if_neg (by simp [Token.isPunct, heof])]
          exact hS.membersWithin_fails stop separator rounds _ hfinished
    · rw [if_neg (by simp [Token.isPunct, heof]), if_pos heof]
      exact ⟨_, _, rfl⟩

/-- A list of which the opening bracket has been read. -/
theorem members_met {stop separator : Text} (hstop : PlainText stop)
    (hseparator : PlainText separator) (h : K.At near taken c c') (hn : K.Suffices taken n n')
    (hrounds : K.Suffices taken rounds rounds') :
    K.Met (List.map (Expr.relabel K.move)) (K.Leaves taken fun all xs => ∀ x ∈ xs, x.BuiltFrom all)
      (members S rounds stop separator c) (members S' rounds' stop separator c') := by
  have hnone (ts : List Token) : ∀ x ∈ ([] : List (Expr M)), x.BuiltFrom ts := List.forall_mem_nil _
  refine hK.peek_bind h (fun t d d' ht hat _ => ?_) fun t d heof hfinished => ?_
  · refine .ite (fun hends => ?_) fun _ => ?_
    · refine hK.take_bind hat ht (Token.ne_eof_of_isPunct hends) fun e e' he => ?_
      exact .after (.append (plain_of_isPunct hends hstop).whole) (.stay he (hnone _) rfl)
    · exact membersWithin_met hK hS hstop hseparator (hnone _) hat hn hrounds
  · rw [if_neg (by simp [Token.isPunct, heof])]
    exact hS.membersWithin_fails stop separator rounds _ hfinished

/-- A list with its brackets. -/
theorem bracketed_met {start stop separator : Text} (hstart : PlainText start)
    (hstop : PlainText stop) (hseparator : PlainText separator) (h : K.At near taken c c')
    (hn : K.Suffices taken n n') (hrounds : K.Suffices taken rounds rounds') :
    K.Met (List.map (Expr.relabel K.move)) (K.Leaves taken fun all xs => ∀ x ∈ xs, x.BuiltFrom all)
      (bracketed S rounds start stop separator c)
      (bracketed S' rounds' start stop separator c') := by
  refine (need_met hK (by decide) hstart h).andThen fun _ all d d' hall hat _ => ?_
  exact members_met hK hS hstop hseparator hat (hn.of_le hall.length_le)
    (hrounds.of_le hall.length_le)

/-- A list in parentheses. -/
theorem parenthesised_met (hmem : token ∈ taken) (h : K.At true taken c c')
    (hn : K.Suffices taken n n') (hrounds : K.Suffices taken rounds rounds') :
    K.Met (Expr.relabel K.move) (K.Leaves taken fun all x => x.BuiltFrom all)
      (parenthesised S rounds token c) (parenthesised S' rounds' (token.relabel K.move) c') := by
  refine (members_met hK hS (by decide) (by decide) h hn hrounds).andThen
    fun items all d d' hall hat hitems => ?_
  have hmem' := hall.subset hmem
  have htuple (items : List (Expr M)) : (Expr.tuple token.pos items).relabel K.move =
      .tuple (K.move token.pos) (items.map (Expr.relabel K.move)) := by
    rw [Expr.relabel, Expr.relabelAll_eq_map]
  rcases items with _ | ⟨x, _ | ⟨y, items⟩⟩
  · exact .fail (hK.mayFail hat hmem') rfl rfl
  · cases x with
    | binary pos left op right => exact .stay hat (.tuple hmem' (by simp) hitems) rfl
    | _ => exact .stay hat (hitems _ List.mem_cons_self) rfl
  · cases x with
    | _ => exact .stay hat (.tuple hmem' (by simp) hitems) (htuple _)

/-- A condition after its first word. -/
theorem conditional_met (hmem : token ∈ taken) (h : K.At true taken c c')
    (hn : K.Suffices taken n n') :
    K.Met (Expr.relabel K.move) (K.Leaves taken fun all x => x.BuiltFrom all)
      (conditional S token c) (conditional S' (token.relabel K.move) c') := by
  refine (hS.read h hn).andThen fun test l₁ c₁ d₁ hl₁ h₁ htest => ?_
  refine (need_met hK (by decide) (by decide) h₁).andThen fun _ l₂ c₂ d₂ hl₂ h₂ _ => ?_
  have hn₂ := hn.of_le (hl₁.trans hl₂).length_le
  refine (hS.read h₂ hn₂).andThen fun yes l₃ c₃ d₃ hl₃ h₃ hyes => ?_
  have hn₃ := hn₂.of_le hl₃.length_le
  have htest := htest.2.mono (hl₂.trans hl₃).subset
  have hmem := (hl₁.trans (hl₂.trans hl₃)).subset hmem
  refine hK.peek_bind h₃ (fun t c₄ d₄ ht h₄ _ => ?_) fun t e heof hfinished => ?_
  · refine .ite (fun helse => ?_) fun _ => ?_
    · refine hK.take_bind h₄ ht (Token.ne_eof_of_isKeyword helse) fun c₅ d₅ h₅ => ?_
      have hl₅ : AddsWhole l₃ (l₃ ++ [t]) := .append (plain_of_isKeyword helse (by decide)).whole
      refine .after hl₅ ((hS.read h₅ (hn₃.of_le hl₅.length_le)).andThen
        fun no l₆ c₆ d₆ hl₆ h₆ hno => ?_)
      refine (need_met hK (by decide) (by decide) h₆).andThen fun _ l₇ c₇ d₇ hl₇ h₇ _ => ?_
      have hlast := hl₅.trans (hl₆.trans hl₇)
      exact .stay h₇ (.ifElse (hlast.subset hmem) (htest.mono hlast.subset)
        (hyes.2.mono hlast.subset) (hno.2.mono hl₇.subset)) rfl
    · refine (need_met hK (by decide) (by decide) h₄).andThen fun _ l₅ c₅ d₅ hl₅ h₅ _ => ?_
      exact .stay h₅ (.ifThen (hl₅.subset hmem) (htest.mono hl₅.subset)
        (hyes.2.mono hl₅.subset)) rfl
  · rw [if_neg (by simp [Token.isKeyword, heof])]
    exact Fails.bind (need_fails (by decide) _ hfinished)

omit hS in
/-- The names that parameters are. -/
theorem parameters_met {items : List (Expr M)} (hitems : ∀ x ∈ items, x.BuiltFrom taken)
    (hmem : token ∈ taken) (h : K.At true taken c c') :
    K.Met (List.map (Ref.relabel K.move))
      (fun refs d d' => K.At true taken d d' ∧
        ∀ ref ∈ refs, (Expr.reference ref : Expr M).BuiltFrom taken)
      (parameters token items c)
      (parameters (token.relabel K.move) (items.map (Expr.relabel K.move)) c') := by
  induction items with
  | nil => exact .pure ⟨h, List.forall_mem_nil _⟩ rfl
  | cons x items ih =>
    obtain ⟨hx, hrest⟩ := List.forall_mem_cons.mp hitems
    cases x with
    | reference ref =>
      refine (ih hrest).bind ?_
      rintro refs d d' - ⟨hat, hrefs⟩
      exact .pure ⟨hat, List.forall_mem_cons.mpr ⟨hx, hrefs⟩⟩ rfl
    | _ =>
      exact .fail (hK.mayFail h hmem) rfl
        (congrArg SyntaxFault.parameter (Expr.source_relabel _ _))

/-- A function after its first word. -/
theorem function_met (hmem : token ∈ taken) (h : K.At true taken c c')
    (hn : K.Suffices taken n n') (hrounds : K.Suffices taken rounds rounds') :
    K.Met (Expr.relabel K.move) (K.Leaves taken fun all x => x.BuiltFrom all)
      (function S rounds token c) (function S' rounds' (token.relabel K.move) c') := by
  refine (bracketed_met hK hS (by decide) (by decide) (by decide) h hn hrounds).andThen
    fun items all d d' hall hat hitems => ?_
  have hmem' := hall.subset hmem
  refine (parameters_met hK hitems hmem' hat).bind ?_
  rintro params e e' - ⟨he, hparams⟩
  refine hK.peek_bind he (fun start g g' _ hg _ => ?_) fun start g _ hfinished => ?_
  · refine (bracketed_met hK hS (by decide) (by decide) (by decide) hg (hn.of_le hall.length_le)
      (hrounds.of_le hall.length_le)).andThen fun body last u u' hlast hu hbody => ?_
    refine .stay hu (.lambda (hlast.subset hmem') (fun p hp => (hparams p hp).mono hlast.subset)
      hbody) ?_
    rw [Expr.relabel, Expr.relabelAll_eq_map]
    rfl
  · exact Fails.bind (Fails.bind (need_fails (by decide) _ hfinished))

omit hS in
/-- A word of a declaration. -/
theorem word_met (h : K.At near taken c c') :
    K.Met id (fun _ d d' => ∃ t, K.At true (taken ++ [t]) d d') (word c) (word c') := by
  refine hK.next_bind h (fun t d d' _ hkind hat => ?_) fun t hend => ?_
  · exact .ite (fun heof => absurd heof hkind) fun _ => .pure ⟨t, hat⟩ rfl
  · exact ⟨.unexpectedEndOfDeclaration, rfl, if_pos hend, if_pos hend⟩

omit hS in
/-- A declaration after its first word. -/
theorem declaration_met (hset : token.isKeyword "set" = true)
    (h : K.At true (taken ++ [token]) c c') :
    K.Met (Expr.relabel K.move)
      (K.Leaves taken fun all x => taken.length < all.length ∧ x.BuiltFrom all)
      ((declaration token : Parse (Expr M)) c)
      ((declaration (token.relabel K.move) : Parse (Expr M)) c') := by
  refine (word_met hK h).bind fun _ c₁ d₁ _ h₁ => ?_
  obtain ⟨t₁, h₁⟩ := h₁
  refine (word_met hK h₁).bind fun _ c₂ d₂ _ h₂ => ?_
  obtain ⟨t₂, h₂⟩ := h₂
  refine (word_met hK h₂).bind fun _ c₃ d₃ _ h₃ => ?_
  obtain ⟨t₃, h₃⟩ := h₃
  refine (word_met hK h₃).bind fun _ c₄ d₄ _ h₄ => ?_
  obtain ⟨t₄, h₄⟩ := h₄
  refine (word_met hK h₄).bind fun _ c₅ d₅ _ h₅ => ?_
  obtain ⟨t₅, h₅⟩ := h₅
  have hwhole : Whole [token, t₁, t₂, t₃, t₄, t₅] := .declaration hset rfl
  refine .pure ⟨_, .append hwhole, ?_, by simp, .declare (t := token) (by simp) _⟩ rfl
  simpa using h₅

/-- The further values of a row, with any bounds that exceed the tokens to come. -/
theorem rowVerdict_met (read : List (Expr M)) (hne : read ≠ [])
    (hread : ∀ x ∈ read, x.BuiltFrom taken) (h : K.At true taken c c') (hn : K.Suffices taken n n')
    (hrounds : K.Suffices taken rounds rounds') :
    K.Met (relabelVerdict K.move (List.map (Expr.relabel K.move)))
      (K.Judged taken AddsWhole fun all row => row ≠ [] ∧ ∀ x ∈ row, x.BuiltFrom all)
      (rowVerdict S rounds read c)
      (rowVerdict S' rounds' (read.map (Expr.relabel K.move)) c') := by
  induction rounds generalizing rounds' taken c c' read with
  | zero =>
    obtain ⟨rfl, hbound⟩ := hrounds.of_zero hK h
    exact hK.exhausted h hbound
  | succ rounds ih =>
    obtain ⟨rounds', rfl⟩ := hrounds.exists_succ hK h
    have hdone {d d' : Cursor} (hat : K.At true taken d d') :
        K.Met (relabelVerdict K.move (List.map (Expr.relabel K.move)))
          (K.Judged taken AddsWhole fun all row => row ≠ [] ∧ ∀ x ∈ row, x.BuiltFrom all)
          ((pure (.ok read) : Parse (Verdict (List (Expr M)))) d)
          ((pure (.ok (read.map (Expr.relabel K.move))) : Parse (Verdict (List (Expr M)))) d') :=
      .pure ⟨taken, .refl taken, hat, hne, hread⟩ rfl
    refine hK.look_bind _ _ h (fun d d' hat => hdone hat) fun t d d' ht hkind hat => ?_
    refine .ite (fun _ => hdone hat) fun hclose => ?_
    refine hK.take_bind hat ht hkind fun e e' he => ?_
    refine .ite (fun _ => ?_) fun hyes => ?_
    · exact .pure ⟨_, ⟨[t], .comma hclose, rfl⟩, by simp, he⟩ rfl
    have hcomma : t.isPunct "," = true := by simpa using hyes
    have htake : AddsWhole taken (taken ++ [t]) :=
      .append (plain_of_isPunct hcomma (by decide)).whole
    refine .judged htake (fun _ => htake.trans) ?_
    refine hK.atEndOfLine_bind he fun ends g g' hg => ?_
    refine .ite (fun _ => ?_) fun _ => ?_
    · exact .pure ⟨_, .refl rfl rfl, by simp, hg⟩ rfl
    have hlonger := hn.of_le htake.length_le
    refine (hS.read hg hlonger).bind ?_
    rintro x u u' - ⟨all, hall, hu, hlt, hx⟩
    have hsame : read.map (Expr.relabel K.move) ++ [x.relabel K.move] =
        (read ++ [x]).map (Expr.relabel K.move) := by simp
    rw [hsame]
    have hread' : ∀ y ∈ read ++ [x], y.BuiltFrom all := List.forall_mem_append.mpr
      ⟨Expr.BuiltFrom.mono_all hread (htake.trans hall).subset, List.forall_mem_singleton.mpr hx⟩
    exact .judged hall (fun _ => hall.trans) (ih _ (by simp) hread' hu
      (hlonger.of_le hall.length_le) (hrounds.pred (htake.length_le.trans_lt hlt)))

/-- The rows of a matrix, with any bounds that exceed the tokens to come. -/
theorem rowsVerdict_met {size size' : Nat} {bracket : Token} (read : List (List (Expr M)))
    (hmem : bracket ∈ taken) (hfull : ∃ width, 0 < width ∧ ∀ row ∈ read, row.length = width)
    (hread : ∀ row ∈ read, ∀ x ∈ row, x.BuiltFrom taken) (h : K.At near taken c c')
    (hn : K.Suffices taken n n') (hsize : K.Suffices taken size size')
    (hrounds : K.Suffices taken rounds rounds') :
    K.Met (relabelVerdict K.move (List.map (List.map (Expr.relabel K.move))))
      (K.Judged taken AddsEnd fun all rows =>
        (rows ≠ [] ∧ ∃ width, 0 < width ∧ ∀ row ∈ rows, row.length = width) ∧
          ∀ row ∈ rows, ∀ x ∈ row, x.BuiltFrom all)
      (rowsVerdict S size bracket rounds read c)
      (rowsVerdict S' size' (bracket.relabel K.move) rounds'
        (read.map (List.map (Expr.relabel K.move))) c') := by
  induction rounds generalizing rounds' near taken c c' read with
  | zero =>
    obtain ⟨rfl, hbound⟩ := hrounds.of_zero hK h
    exact hK.exhausted h hbound
  | succ rounds ih =>
    obtain ⟨rounds', rfl⟩ := hrounds.exists_succ hK h
    refine (hS.read h hn).bind ?_
    rintro x d d' - ⟨l₁, hl₁, hd, hlt, hx⟩
    refine .judged hl₁ (fun _ => AddsEnd.after hl₁) ?_
    refine (rowVerdict_met hK hS [x] (by simp) (List.forall_mem_singleton.mpr hx) hd
      (hn.of_le hl₁.length_le) (hsize.of_le hl₁.length_le)).bind ?_
    rintro (⟨token, fault⟩ | row) e e' - hrow
    · exact .pure hrow rfl
    obtain ⟨l₂, hl₂, he, hne, hrow⟩ := hrow
    have hl := hl₁.trans hl₂
    refine .judged hl₂ (fun _ => AddsEnd.after hl₂) ?_
    have hwant : ((read.map (List.map (Expr.relabel K.move))).headD
        (row.map (Expr.relabel K.move))).length = (read.headD row).length := by
      cases read <;> simp
    have hsame : read.map (List.map (Expr.relabel K.move)) ++ [row.map (Expr.relabel K.move)] =
        (read ++ [row]).map (List.map (Expr.relabel K.move)) := by simp
    simp only [relabelVerdict, hwant, List.length_map, hsame]
    refine .ite (fun _ => ?_) fun hlength => ?_
    · exact .pure ⟨l₂, .refl rfl rfl, hl.subset hmem, he⟩ rfl
    have hcells : ∀ row' ∈ read ++ [row], ∀ x ∈ row', x.BuiltFrom l₂ :=
      List.forall_mem_append.mpr
        ⟨fun row' hrow' => Expr.BuiltFrom.mono_all (hread row' hrow') hl.subset,
          List.forall_mem_singleton.mpr hrow⟩
    have hwidth := full_append hne hfull (not_not.mp hlength)
    refine hK.peek_bind he (fun t g g' ht hg _ => ?_) fun t g heof hfinished => ?_
    · refine .ite (fun hclose => ?_) fun _ => ?_
      · refine hK.take_bind hg ht (Token.ne_eof_of_isPunct hclose) fun u u' hu => ?_
        refine .pure ⟨_, ⟨[], t, rfl, .nil, hclose⟩, hu, ⟨by simp, hwidth⟩, ?_⟩ rfl
        exact fun row' hrow' =>
          Expr.BuiltFrom.mono_all (hcells row' hrow') (List.subset_append_left _ _)
      · exact ih _ (hl.subset hmem) hwidth hcells hg (hn.of_le hl.length_le)
          (hsize.of_le hl.length_le) (hrounds.pred (hlt.trans_le hl₂.length_le))
    · rw [if_neg (by simp [Token.isPunct, heof])]
      exact hS.rowsVerdict_fails size bracket rounds _ hfinished

/-- A matrix behind its opening bracket, until it ends or is given up. -/
theorem verdict_met {bracket : Token} (h : K.At near (taken ++ [bracket]) c c')
    (hn : K.Suffices (taken ++ [bracket]) n n') :
    K.Met (relabelVerdict K.move (List.map (List.map (Expr.relabel K.move))))
      (K.Judged (taken ++ [bracket]) AddsEnd fun all rows =>
        (rows ≠ [] ∧ ∃ width, 0 < width ∧ ∀ row ∈ rows, row.length = width) ∧
          ∀ row ∈ rows, ∀ x ∈ row, x.BuiltFrom all)
      (rowsVerdict S (n + 1) bracket (n + 1) [] c)
      (rowsVerdict S' (n' + 1) (bracket.relabel K.move) (n' + 1) [] c') :=
  rowsVerdict_met hK hS [] (by simp) ⟨1, Nat.one_pos, List.forall_mem_nil _⟩
    (List.forall_mem_nil _) h hn hn.succ hn.succ

/-- A statement that starts with a leaf or a prefix operator. -/
theorem simple_met (alone : Bool) (hmem : token ∈ taken) (h : K.At true taken c c')
    (hn : K.Suffices taken n n') (hrounds : K.Suffices taken rounds rounds') :
    K.Met (Expr.relabel K.move) (K.Leaves taken fun all x => x.BuiltFrom all ∧ token.Plain)
      (simple S rounds token alone c) (simple S' rounds' (token.relabel K.move) alone c') := by
  have hoperator : K.Met id
      (fun b d d' => K.At true taken d d' ∧ (b = true → d.scanner.peek.1.kind = .operator))
      ((if (decide (token.kind = .operator) || alone) = true then pure false
        else operatorFollows : Parse Bool) c)
      ((if (decide (token.kind = .operator) || alone) = true then pure false
        else operatorFollows : Parse Bool) c') :=
    .ite (fun _ => .pure ⟨h, nofun⟩ rfl) fun _ => operatorFollows_met hK h
  refine hoperator.bind ?_
  rintro follows d d' - ⟨hd, hop⟩
  refine .ite (fun hyes => ?_) fun _ => ?_
  · refine (operand_met hK hmem hd).bind ?_
    rintro left e e' - ⟨rfl, rfl, hleft, hplain⟩
    exact (operation_met hK hS hleft hd (hop hyes) hn).weaken fun _ _ _ hx => ⟨hx, hplain⟩
  have hcall : K.Met id
      (fun b e e' => K.At true taken e e' ∧ (b = true → token.kind = .identifier))
      ((if token.kind = .identifier then callFollows else pure false : Parse Bool) d)
      ((if token.kind = .identifier then callFollows else pure false : Parse Bool) d') :=
    .ite (fun hkind => (callFollows_met hK hd).mono fun _ _ _ he => ⟨he, fun _ => hkind⟩)
      fun _ => .pure ⟨hd, nofun⟩ rfl
  refine hcall.bind ?_
  rintro called e e' - ⟨he, hkind⟩
  refine .ite (fun hyes => ?_) fun _ => .ite (fun hop => ?_) fun _ => ?_
  · refine (bracketed_met hK hS (by decide) (by decide) (by decide) he hn hrounds).andThen
      fun args all g g' hall hg hargs => ?_
    have hsame : (Expr.call token.pos token.text args).relabel K.move =
        .call (K.move token.pos) token.text (args.map (Expr.relabel K.move)) := by
      rw [Expr.relabel, Expr.relabelAll_eq_map]
    have hplain : token.Plain := Token.plain_of_kind (hkind hyes) (by decide)
    have htree := Expr.BuiltFrom.call (hall.subset hmem) (hkind hyes) hargs
    exact hsame ▸ (more_met hK hS htree alone hg (hn.of_le hall.length_le)).weaken
      fun _ _ _ hx => ⟨hx, hplain⟩
  · have hplain : token.Plain := Token.plain_of_kind (by simpa using hop) (by decide)
    refine (prefixed_met hK hS hmem he hn).andThen fun x all g g' hall hg hx => ?_
    exact (more_met hK hS hx alone hg (hn.of_le hall.length_le)).weaken
      fun _ _ _ hy => ⟨hy, hplain⟩
  · refine (operand_met hK hmem he).mono ?_
    rintro x g g' ⟨rfl, rfl, hx, hplain⟩
    exact ⟨taken, .refl taken, he, hx, hplain⟩

end Productions

section Statements

variable (hK : K.Lawful M)

include hK

/-- A matrix behind its opening bracket. -/
theorem rowsWithin_met {bracket : Token}
    (hS : K.Nested n n' (statementWithin (M := M) n) (statementWithin n'))
    (hopens : bracket.isPunct "[" = true) (h : K.At true (taken ++ [bracket]) c c')
    (hn : K.Suffices (taken ++ [bracket]) n n') :
    K.Met (List.map (List.map (Expr.relabel K.move)))
      (K.Leaves taken fun all rows =>
        taken.length < all.length ∧ (Expr.matrix bracket.pos rows).BuiltFrom all)
      (rowsWithin (statementWithin (M := M) n) (n + 1) bracket (n + 1) [] c)
      (rowsWithin (statementWithin (M := M) n') (n' + 1) (bracket.relabel K.move) (n' + 1) []
        c') := by
  refine (verdict_met hK hS h hn).bind ?_
  rintro (⟨token, fault⟩ | rows) d d' hrun hverdict
  · obtain ⟨_, ⟨more, -, rfl⟩, hmem, hat⟩ := hverdict
    exact hK.giveUp ⟨hat, hmem, taken, bracket, more, n, c, c', rfl, hopens, h, hn.first, hrun⟩
  · obtain ⟨_, ⟨inner, close, rfl, hinner, hclose⟩, hat, hrows⟩ := hverdict
    refine .pure ⟨_, ?_, hat, by simp, .matrix (by simp) hrows.1 hrows.2⟩ rfl
    exact ⟨_, hinner.enclosed hopens hclose, by simp⟩

/-- A statement keeps the contract when the statements nested in it do. -/
theorem statementStep_met (hS : K.Nested n n' (statementWithin (M := M) n) (statementWithin n'))
    (alone : Bool) (h : K.At near taken c c') (hn : K.Suffices taken (n + 1) (n' + 1)) :
    K.Met (Expr.relabel K.move)
      (K.Leaves taken fun all x => taken.length < all.length ∧ x.BuiltFrom all)
      (statementStep (statementWithin (M := M) n) (n + 1) alone c)
      (statementStep (statementWithin (M := M) n') (n' + 1) alone c') := by
  refine hK.next_bind h (fun t d d' _ hkind hat => ?_) fun t hend => ?_
  · refine .ite (fun heof => absurd heof hkind) fun _ => ?_
    have hmem : t ∈ taken ++ [t] := by simp
    have hlt : taken.length < (taken ++ [t]).length := by simp
    have hn := hn.pred hlt
    -- Behind a first token that turns out to be plain.
    have hplain {r r' : EStateM.Result SyntaxError Cursor (Expr M)}
        (hr : K.Met (Expr.relabel K.move)
          (K.Leaves (taken ++ [t]) fun all x => x.BuiltFrom all ∧ t.Plain) r r') :
        K.Met (Expr.relabel K.move)
          (K.Leaves taken fun all x => taken.length < all.length ∧ x.BuiltFrom all) r r' := by
      refine hr.mono ?_
      rintro x e e' ⟨all, hall, he, hx, ht⟩
      exact ⟨all, AddsWhole.trans (.append ht.whole) hall, he, hlt.trans_le hall.length_le, hx⟩
    refine .ite (fun hif => ?_) fun _ => .ite (fun hlambda => ?_) fun _ =>
      .ite (fun hreturn => ?_) fun _ => .ite (fun hset => ?_) fun _ => .ite (fun hparen => ?_)
      fun _ => .ite (fun hopens => ?_) fun _ => hplain (simple_met hK hS alone hmem hat hn hn.succ)
    · have ht := plain_of_isKeyword hif (by decide)
      exact hplain ((conditional_met hK hS hmem hat hn).weaken fun _ _ _ hx => ⟨hx, ht⟩)
    · have ht := plain_of_isKeyword hlambda (by decide)
      exact hplain ((function_met hK hS hmem hat hn hn.succ).weaken fun _ _ _ hx => ⟨hx, ht⟩)
    · have ht := plain_of_isKeyword hreturn (by decide)
      refine hplain ((hS.read hat hn).andThen fun x all e e' hall he hx => ?_)
      exact .stay he ⟨.ret (hall.subset hmem) hx.2, ht⟩ rfl
    · exact declaration_met hK hset hat
    · have ht := plain_of_isPunct hparen (by decide)
      refine hplain ((parenthesised_met hK hS hmem hat hn hn.succ).andThen
        fun x all e e' hall he hx => ?_)
      exact (more_met hK hS hx alone he (hn.of_le hall.length_le)).weaken fun _ _ _ hy => ⟨hy, ht⟩
    · refine (rowsWithin_met hK hS hopens hat hn).andThen fun rows all e e' hall he hrows => ?_
      have hsame : (Expr.matrix t.pos rows).relabel K.move =
          .matrix (K.move t.pos) (rows.map (List.map (Expr.relabel K.move))) := by
        rw [Expr.relabel, Expr.relabelRows_eq_map]
      have hn : K.Suffices all n n' := hn.of_le (by simpa using hrows.1)
      exact hsame ▸ (more_met hK hS hrows.2 alone he hn).weaken
        fun _ _ hlast hx => ⟨hrows.1.trans_le hlast.length_le, hx⟩
  · exact ⟨.unexpectedEnd, rfl, if_pos hend, if_pos hend⟩

/-- Statements keep the contract, with any bounds on their nesting that exceed the tokens to
come. -/
theorem statementWithin_nested (n n' : Nat) :
    K.Nested n n' (statementWithin (M := M) n) (statementWithin n') := by
  induction n generalizing n' with
  | zero =>
    refine ⟨fun h hn => ?_, fun alone _ => Parse.statementWithin_fails 0 alone⟩
    obtain ⟨rfl, hbound⟩ := hn.of_zero hK h
    exact hK.exhausted h hbound
  | succ n ih =>
    refine ⟨fun h hn => ?_, fun alone _ => Parse.statementWithin_fails (n + 1) alone⟩
    obtain ⟨m', rfl⟩ := hn.exists_succ hK h
    exact statementStep_met hK (ih m') _ h hn

end Statements

section Single

variable {bound : Nat} {At : (near : Bool) → (taken : List Token) → Cursor → Prop}
  {Bad : SyntaxError → Cursor → Prop}

/-- What one reader of statements comes to, from where no token has been taken. -/
theorem SingleLawful.statementWithin (hK : SingleLawful M bound At Bad) (hn : bound < n)
    (alone : Bool) (h : At false [] c) :
    match Parse.statementWithin (M := M) n alone c with
    | .ok x d => ∃ all, Whole all ∧ all ≠ [] ∧ At true all d ∧ x.BuiltFrom all
    | .error e d => Bad e d := by
  have hless : bound < ([] : List Token).length + n := by simpa using hn
  have hat : (single bound At Bad).At false [] c c := h
  have hread : (single bound At Bad).Met _ _ (Parse.statementWithin (M := M) n alone c)
      (Parse.statementWithin n alone c) :=
    (statementWithin_nested hK.lawful n n).read hat ⟨fun _ => rfl, hless, hless⟩
  have hmet := met_single.mp hread
  cases hrun : Parse.statementWithin (M := M) n alone c with
  | error e d =>
    rw [hrun] at hmet
    exact hmet
  | ok x d =>
    rw [hrun] at hmet
    obtain ⟨_, all, ⟨ts, hts, hall⟩, hat, hlt, hx⟩ := hmet
    rw [List.nil_append] at hall
    exact ⟨all, hall ▸ hts, List.length_pos_iff.mp hlt, hat, hx⟩

/-- What has been taken behind an opening bracket when a reader comes to a fault in the matrix. -/
theorem SingleLawful.complaint (hK : SingleLawful M bound At Bad) {bracket : Token}
    {fault : SyntaxFault} (h : At true (taken ++ [bracket]) c)
    (hn : bound < (taken ++ [bracket]).length + n)
    (hrun : rowsVerdict (Parse.statementWithin (M := M) n) (n + 1) bracket (n + 1) [] c =
      .ok (.error (token, fault)) d) :
    ∃ more, Complaint fault more ∧ At true (taken ++ [bracket] ++ more) d := by
  have hat : (single bound At Bad).At true (taken ++ [bracket]) c c := h
  have hmet := verdict_met hK.lawful (statementWithin_nested hK.lawful n n) hat
    ⟨fun _ => rfl, hn, hn⟩
  rw [hrun] at hmet
  obtain ⟨_, _, ⟨more, hmore, rfl⟩, -, hd⟩ := met_single.mp hmet
  exact ⟨more, hmore, hd⟩

end Single

end Contract

end SymCalc
