import Mathlib
import SymCalc.Proofs.Grammar

/-!
# What the productions read

For each production of the reader of programs, what it yields if the readers of statements that
it calls yield what they should. Lists are read up to the bracket that closes them, matrices
line by line, and after an operand reading stops or goes on with an operator.
-/

namespace SymCalc

variable {M : Type} [Numeric M]

namespace Parse

open SymCalc.Expr

/-- How reading goes on after an operand: it stops, or an operator follows and is read with its
right side. -/
inductive Continues (statement : Bool → Parse (Expr M)) :
    (alone : Bool) → Expr M → (rest : List Word) →
      (EStateM.Result SyntaxError Cursor (Expr M) → Prop) → Prop where
  | stop {alone : Bool} {e : Expr M} {rest : List Word}
      {E : EStateM.Result SyntaxError Cursor (Expr M) → Prop}
      (ends : alone = true ∨ startsOperator rest = false)
      (result : ∀ e' c, e'.bare = e → c.scanner.Reads rest → E (.ok e' c)) :
      Continues statement alone e rest E
  | operation {e : Expr M} {rest : List Word}
      {E : EStateM.Result SyntaxError Cursor (Expr M) → Prop}
      (follows : startsOperator rest = true)
      (result : ∀ e', e'.bare = e → Meets (operation statement e') rest E) :
      Continues statement false e rest E

variable {statement : Bool → Parse (Expr M)} {alone : Bool} {e left right : Expr M}
  {rest ws vs us : List Word} {w o : Word} {token : Token}
  {E : EStateM.Result SyntaxError Cursor (Expr M) → Prop}

/-- Where nothing goes on after an operand, it is what is read. -/
theorem Continues.ends (h : alone = true ∨ startsOperator rest = false) :
    Continues statement alone e rest (Succeeds rest (·.bare = e)) :=
  .stop h fun e' c he' hc => ⟨e', c, rfl, hc, he'⟩

/-- After an operand, reading goes on as it should. -/
theorem more_meets (h : Continues statement alone left.bare rest E) :
    Meets (more statement left alone) rest E := by
  cases h with
  | stop ends result =>
    have hpure : Meets (Pure.pure left) rest E := Meets.pure fun c hc => result left c rfl hc
    cases alone with
    | true => exact Meets.ite_pos rfl hpure
    | false =>
      have hends : startsOperator rest = false := ends.resolve_left (by decide)
      refine Meets.ite_neg (by decide) (operatorFollows_yields.bind fun follows hf => ?_)
      exact Meets.ite_neg (by rw [hf, hends]; decide) hpure
  | operation follows result =>
    refine Meets.ite_neg (by decide) (operatorFollows_yields.bind fun b hb => ?_)
    exact Meets.ite_pos (hb.trans follows) (result left rfl)

/-- An operator that joins is looked at as one. -/
theorem startsOperator_cons (h : o.Joins) : startsOperator (o :: ws) = true := by
  have hquote : o.text ≠ "`" := h.text_ne (by decide)
  simp [startsOperator, h.line, h.kind, hquote]

/-- No call starts with an operator. -/
theorem startsCall_cons_operator (h : o.kind = .operator) : startsCall (o :: ws) = false := by
  simp [startsCall, h]

/-- A binary operation is read, once its left operand was. -/
theorem operation_yields (hjoins : o.Joins)
    (hright : Yields (statement false) ws vs (·.bare = right)) :
    Yields (operation statement left) (o :: ws) vs (·.bare = left.bare.combine o.text right) := by
  have hassign : o.text ≠ "=" := hjoins.text_ne (by decide)
  refine next_yields.bind fun token ht => ?_
  rw [ht.text]
  refine Meets.ite_neg hassign (Meets.ite_neg hjoins.known (hright.bind fun r hr => ?_))
  by_cases hminus : o.text = "-"
  · refine Meets.ite_pos hminus (Yields.pure ?_)
    rw [bare_rotate, combine, if_pos hminus, bare, hr]
  · refine Meets.ite_neg hminus (Yields.pure ?_)
    rw [bare_rotate, combine, if_neg hminus, hr]

/-- A binary operation is not read if its right side is not. -/
theorem operation_fails (hjoins : o.Joins) (hright : Meets (statement false) ws Fails) :
    Meets (operation statement left) (o :: ws) Fails := by
  have hassign : o.text ≠ "=" := hjoins.text_ne (by decide)
  refine next_yields.bind fun token ht => ?_
  rw [ht.text]
  exact Meets.ite_neg hassign (Meets.ite_neg hjoins.known (Meets.bind_fails hright))

/-- An equals sign on the line goes on with the statement. -/
theorem startsOperator_cons_equals (hkind : o.kind = .operator) (htext : o.text = "=")
    (hline : o.newline = false) : startsOperator (o :: ws) = true := by
  simp only [startsOperator, hline, hkind, htext]
  decide

/-- An assignment is read, once the name was. -/
theorem operation_yields_assign {ref : Ref} (htext : o.text = "=")
    (hleft : left.bare = .reference ref)
    (hright : Yields (statement false) ws vs (·.bare = right)) :
    Yields (operation statement left) (o :: ws) vs (·.bare = .assign {} ref right) := by
  cases left with
  | reference target =>
    refine next_yields.bind fun token ht => Meets.ite_pos (ht.text.trans htext) ?_
    refine hright.bind fun r hr => Yields.pure ?_
    have href : (⟨{}, target.name⟩ : Ref) = ref := Expr.reference.inj hleft
    rw [bare, hr, href]
  | _ => cases hleft

/-- Words that start as a phrase does: with no punctuation but an opening bracket. -/
def Opens (ws : List Word) : Prop :=
  ∃ w vs, ws = w :: vs ∧ (w.kind = .punctuation → w.text = "(" ∨ w.text = "[")

omit [Numeric M] in
/-- A phrase ends before punctuation other than an opening parenthesis. -/
theorem stops_of_isPunct {text : Text} (h : w.IsPunct text) (htext : text ≠ "(") :
    Stops (w :: ws) :=
  ⟨by simp [startsOperator, h.1], by simp [startsCall, h.1, h.2, htext]⟩

omit [Numeric M] in
/-- A phrase ends before a keyword. -/
theorem stops_of_isKeyword {text : Text} (h : w.IsKeyword text) : Stops (w :: ws) :=
  ⟨by simp [startsOperator, h.1], by simp [startsCall, h.1]⟩

omit [Numeric M] in
/-- A token is the punctuation that its word is. -/
theorem isPunct_iff {text : Text} (h : token.Is w) :
    token.isPunct text = true ↔ w.IsPunct text := by
  simp [Token.isPunct, Word.IsPunct, h.kind, h.text]

omit [Numeric M] in
/-- A token is the keyword that its word is. -/
theorem isKeyword_iff {text : Text} (h : token.Is w) :
    token.isKeyword text = true ↔ w.IsKeyword text := by
  simp [Token.isKeyword, Word.IsKeyword, h.kind, h.text]

omit [Numeric M] in
/-- The first word of a phrase is no closing bracket and no separator. -/
theorem Opens.not_isPunct (h : Opens ws) :
    ∃ w vs, ws = w :: vs ∧ ∀ text : Text, text ≠ "(" ∧ text ≠ "[" → ¬ w.IsPunct text := by
  obtain ⟨w, vs, rfl, hw⟩ := h
  refine ⟨w, vs, rfl, fun text hne hp => ?_⟩
  rcases hw hp.1 with htext | htext
  · exact hne.1 (hp.2.symm.trans htext)
  · exact hne.2 (hp.2.symm.trans htext)

omit [Numeric M] in
/-- What starts as a phrase does so with anything after it. -/
theorem Opens.append (h : Opens ws) (vs : List Word) : Opens (ws ++ vs) := by
  obtain ⟨w, us, rfl, hw⟩ := h
  exact ⟨w, us ++ vs, rfl, hw⟩

omit [Numeric M] in
/-- A list starts as its first member does. -/
theorem Separated.opens {separator : Text} {vss : List (List Word)}
    (h : Separated separator (ws :: vss) vs) (hws : Opens ws) : Opens vs := by
  cases h with
  | single => exact hws
  | cons => exact hws.append _

omit [Numeric M] in
/-- A body starts as its first statement does. -/
theorem Body.opens {vss : List (List Word)} (h : Body (ws :: vss) vs) (hws : Opens ws) :
    Opens vs := by
  cases h with
  | semicolon => exact hws.append _
  | adjacent => exact hws.append _

omit [Numeric M] in
/-- The rows of a matrix start as the first cell does. -/
theorem Rows.opens {cells : List (List Word)} {rows : List (List (List Word))}
    (h : Rows (cells :: rows) vs) (hcells : ∀ ws ∈ cells, Opens ws) : Opens vs := by
  have hrow : ∀ ws, Row "," cells ws → Opens ws := by
    intro ws hrow
    cases hrow with
    | single => exact hcells _ List.mem_cons_self
    | cons => exact (hcells _ List.mem_cons_self).append _
  cases h with
  | single row => exact hrow _ row
  | cons row => exact (hrow _ row).append _

/-- A phrase that is read as a member of a list, wherever it ends. -/
structure ReadsMember (statement : Bool → Parse (Expr M)) (p : List Word × Expr M) : Prop where
  /-- It starts as a phrase does. -/
  opens : Opens p.1
  /-- It is read before anything that ends it. -/
  read : ∀ rest, Stops rest → Yields (member statement) (p.1 ++ rest) rest (·.bare = p.2)

variable {items : List (List Word × Expr M)} {read : List (Expr M)} {c : Word}

/-- A list with separators is read, up to the bracket that closes it. -/
theorem membersWithin_yields {stop separator : Text} (hitems : items ≠ [])
    (hmembers : ∀ p ∈ items, ReadsMember statement p)
    (hlist : Separated separator (items.map (·.1)) ws) (hseparator : separator.isEmpty = false)
    (hc : c.IsPunct stop) (hstop : stop ≠ "(" ∧ separator ≠ "(" ∧ separator ≠ stop)
    {rounds : Nat} (hrounds : items.length ≤ rounds) :
    Yields (membersWithin statement stop separator rounds read) (ws ++ c :: rest) rest
      (fun es => es.map bare = read.map bare ++ items.map (·.2)) := by
  induction items generalizing ws read rounds with
  | nil => exact absurd rfl hitems
  | cons p items ih =>
    obtain ⟨hp, hitems'⟩ := List.forall_mem_cons.mp hmembers
    cases rounds with
    | zero => simp at hrounds
    | succ rounds =>
      cases items with
      | nil =>
        cases hlist with
        | single =>
          refine (hp.read _ (stops_of_isPunct hc hstop.1)).bind fun x hx => ?_
          refine peek_yields.bind fun token ht => Meets.ite_pos ((isPunct_iff ht).mpr hc) ?_
          refine next_yields.bind fun _ _ => Yields.pure ?_
          simp [hx]
      | cons q items =>
        cases hlist with
        | @cons _ _ vs w _ punct tail =>
          have hw : ¬ w.IsPunct stop := fun h => hstop.2.2 (punct.2.symm.trans h.2)
          rw [List.append_assoc, List.cons_append]
          refine (hp.read _ (stops_of_isPunct punct hstop.2.1)).bind fun x hx => ?_
          refine peek_yields.bind fun token ht => Meets.ite_neg (mt (isPunct_iff ht).mp hw) ?_
          have heof : token.kind ≠ .eof := by
            rw [ht.kind, punct.1]
            decide
          refine Meets.ite_neg heof (Meets.ite_pos (by simp [hseparator]) ?_)
          refine (need_yields punct.1 punct.2).bind fun _ _ => ?_
          refine (ih (List.cons_ne_nil q items) hitems' tail
            (Nat.le_of_succ_le_succ hrounds)).mono fun es hes => ?_
          simp [hes, hx]

/-- The statements of a body are read, up to the brace that closes it. -/
theorem bodyWithin_yields (hitems : items ≠ []) (hmembers : ∀ p ∈ items, ReadsMember statement p)
    (hbody : Body (items.map (·.1)) ws) (hc : c.IsPunct "\x7d") {rounds : Nat}
    (hrounds : items.length ≤ rounds) :
    Yields (membersWithin statement "\x7d" "" rounds read) (ws ++ c :: rest) rest
      (fun es => es.map bare = read.map bare ++ items.map (·.2)) := by
  induction items generalizing ws read rounds with
  | nil => exact absurd rfl hitems
  | cons p items ih =>
    obtain ⟨hp, hitems'⟩ := List.forall_mem_cons.mp hmembers
    cases rounds with
    | zero => simp at hrounds
    | succ rounds =>
      cases hbody with
      | @semicolon _ vs w _ punct tail =>
        have hw : ¬ w.IsPunct "\x7d" := fun h => absurd (punct.2.symm.trans h.2) (by decide)
        rw [List.append_assoc, List.cons_append]
        refine (hp.read _ (stops_of_isPunct punct (by decide))).bind fun x hx => ?_
        refine peek_yields.bind fun token ht => Meets.ite_neg (mt (isPunct_iff ht).mp hw) ?_
        have heof : token.kind ≠ .eof := by
          rw [ht.kind, punct.1]
          decide
        refine Meets.ite_neg heof (Meets.ite_neg (by decide) ?_)
        refine Meets.ite_pos ((isPunct_iff ht).mpr punct) (next_yields.bind fun _ _ => ?_)
        cases items with
        | nil =>
          cases tail
          refine peek_yields.bind fun token ht => Meets.ite_pos ((isPunct_iff ht).mpr hc) ?_
          refine next_yields.bind fun _ _ => Yields.pure ?_
          simp [hx]
        | cons q items =>
          have hq := (hitems' q List.mem_cons_self).opens
          obtain ⟨v, vs, rfl, hv⟩ := (Body.opens tail hq).not_isPunct
          have hbrace : ¬ v.IsPunct "\x7d" := hv _ (by decide)
          refine peek_yields.bind fun token ht => Meets.ite_neg (mt (isPunct_iff ht).mp hbrace) ?_
          refine (ih (List.cons_ne_nil q items) hitems' tail
            (Nat.le_of_succ_le_succ hrounds)).mono fun es hes => ?_
          simp [hes, hx]
      | @adjacent _ vs _ stops tail =>
        cases items with
        | nil =>
          cases tail
          rw [List.append_nil]
          refine (hp.read _ (stops_of_isPunct hc (by decide))).bind fun x hx => ?_
          refine peek_yields.bind fun token ht => Meets.ite_pos ((isPunct_iff ht).mpr hc) ?_
          refine next_yields.bind fun _ _ => Yields.pure ?_
          simp [hx]
        | cons q items =>
          have hq := (hitems' q List.mem_cons_self).opens
          obtain ⟨v, vs, rfl, hv⟩ := (Body.opens tail hq).not_isPunct
          have hbrace : ¬ v.IsPunct "\x7d" := hv _ (by decide)
          have hsemicolon : ¬ v.IsPunct ";" := hv _ (by decide)
          have hstops : Stops (v :: (vs ++ c :: rest)) := ⟨stops.operator, stops.call⟩
          rw [List.append_assoc, List.cons_append]
          refine (hp.read _ hstops).bind fun x hx => ?_
          refine peek_yields_word.bind fun token ht => ?_
          refine Meets.ite_neg (mt (isPunct_iff ht.1).mp hbrace) ?_
          refine Meets.ite_neg ht.2 (Meets.ite_neg (by decide) ?_)
          refine Meets.ite_neg (mt (isPunct_iff ht.1).mp hsemicolon) ?_
          refine (ih (List.cons_ne_nil q items) hitems' tail
            (Nat.le_of_succ_le_succ hrounds)).mono fun es hes => ?_
          simp [hes, hx]

/-- A list in parentheses is read after its opening parenthesis. -/
theorem list_yields (hmembers : ∀ p ∈ items, ReadsMember statement p)
    (hlist : Separated "," (items.map (·.1)) ws) (hc : c.IsPunct ")") {rounds : Nat}
    (hrounds : items.length ≤ rounds) :
    Yields (members statement rounds ")" ",") (ws ++ c :: rest) rest
      (fun es => es.map bare = items.map (·.2)) := by
  cases items with
  | nil =>
    cases hlist
    refine peek_yields.bind fun token ht => Meets.ite_pos ((isPunct_iff ht).mpr hc) ?_
    exact next_yields.bind fun _ _ => Yields.pure rfl
  | cons p items =>
    have hfirst := (hmembers p List.mem_cons_self).opens
    obtain ⟨w, vs, rfl, hw⟩ := (Separated.opens hlist hfirst).not_isPunct
    have hbracket : ¬ w.IsPunct ")" := hw _ (by decide)
    refine peek_yields.bind fun token ht => Meets.ite_neg (mt (isPunct_iff ht).mp hbracket) ?_
    exact membersWithin_yields (List.cons_ne_nil p items) hmembers hlist (by decide) hc (by decide)
      hrounds

/-- A body is read after its opening brace. -/
theorem body_yields (hmembers : ∀ p ∈ items, ReadsMember statement p)
    (hbody : Body (items.map (·.1)) ws) (hc : c.IsPunct "\x7d") {rounds : Nat}
    (hrounds : items.length ≤ rounds) :
    Yields (members statement rounds "\x7d" "") (ws ++ c :: rest) rest
      (fun es => es.map bare = items.map (·.2)) := by
  cases items with
  | nil =>
    cases hbody
    refine peek_yields.bind fun token ht => Meets.ite_pos ((isPunct_iff ht).mpr hc) ?_
    exact next_yields.bind fun _ _ => Yields.pure rfl
  | cons p items =>
    have hfirst := (hmembers p List.mem_cons_self).opens
    obtain ⟨w, vs, rfl, hw⟩ := (Body.opens hbody hfirst).not_isPunct
    have hbrace : ¬ w.IsPunct "\x7d" := hw _ (by decide)
    refine peek_yields.bind fun token ht => Meets.ite_neg (mt (isPunct_iff ht).mp hbrace) ?_
    exact bodyWithin_yields (List.cons_ne_nil p items) hmembers hbody hc hrounds

/-- A phrase that is read as a statement, wherever it ends. -/
structure ReadsWhole (statement : Bool → Parse (Expr M)) (p : List Word × Expr M) : Prop where
  /-- It starts as a phrase does. -/
  opens : Opens p.1
  /-- It is read before anything that ends it. -/
  read : ∀ rest, Stops rest → Yields (statement false) (p.1 ++ rest) rest (·.bare = p.2)

/-- Words before which a row ends: on a new line, or the bracket that closes the matrix. -/
def EndsRow (ws : List Word) : Prop :=
  endsLine ws = true ∨ ∃ w vs, ws = w :: vs ∧ w.IsPunct "]"

omit [Numeric M] in
/-- Where a row ends a phrase ends. -/
theorem EndsRow.stops (h : EndsRow ws) : Stops ws := by
  rcases h with h | ⟨w, vs, rfl, hw⟩
  · cases ws with
    | nil => exact ⟨rfl, rfl⟩
    | cons w ws =>
      have hline : w.newline = true := h
      exact ⟨by simp [startsOperator, hline], by simp [startsCall, hline]⟩
  · exact stops_of_isPunct hw (by decide)

omit [Numeric M] in
/-- A row is read up to its end. -/
theorem row_yields (read : List (Expr M)) (hcells : ∀ p ∈ items, ReadsWhole statement p)
    (hrow : Row "," (items.map (·.1)) ws) (hends : EndsRow rest) {rounds : Nat}
    (hrounds : items.length ≤ rounds) :
    Yields (statement false >>= fun x => rowVerdict statement rounds (read ++ [x])) (ws ++ rest)
      rest (fun v => ∃ es, v = .ok es ∧ es.map bare = read.map bare ++ items.map (·.2)) := by
  induction items generalizing ws read rounds with
  | nil => cases hrow
  | cons p items ih =>
    obtain ⟨hp, hcells'⟩ := List.forall_mem_cons.mp hcells
    cases items with
    | nil =>
      cases hrow with
      | single =>
        refine (hp.read rest hends.stops).bind fun x hx => ?_
        have hresult : (read ++ [x]).map bare = read.map bare ++ [p].map (·.2) := by simp [hx]
        have hdone : Yields (pure (.ok (read ++ [x]) : Verdict (List (Expr M)))) rest rest
            (fun v => ∃ es, v = .ok es ∧ es.map bare = read.map bare ++ [p].map (·.2)) :=
          Yields.pure ⟨_, rfl, hresult⟩
        cases rounds with
        | zero => simp at hrounds
        | succ rounds =>
          refine atEndOfLine_yields.bind fun ends hline => ?_
          rcases hends with h | ⟨w, vs, rfl, hw⟩
          · exact Meets.ite_pos (hline.trans h) hdone
          · cases ends with
            | true => exact Meets.ite_pos rfl hdone
            | false =>
              refine Meets.ite_neg (by decide) (peek_yields.bind fun token ht => ?_)
              exact Meets.ite_pos ((isPunct_iff ht).mpr hw) hdone
      | cons _ _ _ tail => cases tail
    | cons q items =>
      cases hrow with
      | @cons _ vs w v _ punct before after tail =>
        cases rounds with
        | zero => simp at hrounds
        | succ rounds =>
          have hw : ¬ w.IsPunct "]" := fun h => absurd (punct.2.symm.trans h.2) (by decide)
          rw [List.append_assoc, List.cons_append, List.cons_append]
          refine (hp.read _ (stops_of_isPunct punct (by decide))).bind fun x hx => ?_
          refine atEndOfLine_yields.bind fun ends hline => ?_
          refine Meets.ite_neg (by rw [hline]; simp [endsLine, before]) ?_
          refine peek_yields.bind fun token ht => Meets.ite_neg (mt (isPunct_iff ht).mp hw) ?_
          refine next_yields.bind fun comma hcomma => ?_
          have hpunct := (isPunct_iff hcomma).mpr punct
          refine Meets.ite_neg (by rw [hpunct]; decide) ?_
          refine atEndOfLine_yields.bind fun ends hline => ?_
          refine Meets.ite_neg (by rw [hline]; simp [endsLine, after]) ?_
          refine (ih _ hcells' tail (Nat.le_of_succ_le_succ hrounds)).mono fun v hv => ?_
          obtain ⟨es, rfl, hes⟩ := hv
          exact ⟨es, rfl, by simp [hes, hx]⟩

variable {rows : List (List (List Word × Expr M))} {lines : List (List (Expr M))}

omit [Numeric M] in
/-- The rows of a matrix are read without a fault, up to the bracket that closes it. -/
theorem rowsVerdict_yields (hcells : ∀ row ∈ rows, ∀ p ∈ row, ReadsWhole statement p)
    (hrows : Rows (rows.map (·.map (·.1))) ws) (hc : c.IsPunct "]") {width size rounds : Nat}
    (hfull : ∀ row ∈ rows, row.length = width) (hread : ∀ line ∈ lines, line.length = width)
    (hsize : width ≤ size) (hrounds : rows.length ≤ rounds) :
    Yields (rowsVerdict statement size token rounds lines) (ws ++ c :: rest) rest (fun v => ∃ ls,
      v = .ok ls ∧ ls.map (·.map bare) = lines.map (·.map bare) ++ rows.map (·.map (·.2))) := by
  induction rows generalizing ws lines rounds with
  | nil => cases hrows
  | cons row rows ih =>
    obtain ⟨hrow, hcells'⟩ := List.forall_mem_cons.mp hcells
    obtain ⟨hwidth, hfull'⟩ := List.forall_mem_cons.mp hfull
    cases rounds with
    | zero => simp at hrounds
    | succ rounds =>
      have hlength : ∀ line : List (Expr M), line.map bare = row.map (·.2) →
          ¬ line.length ≠ (lines.headD line).length := by
        intro line hline
        have hsame : line.length = width := by
          rw [← hwidth, ← List.length_map (f := bare), hline, List.length_map]
        cases lines with
        | nil => exact fun h => h rfl
        | cons first others => exact fun h => h (hsame.trans (hread first List.mem_cons_self).symm)
      have hmore : ∀ line : List (Expr M), line.map bare = row.map (·.2) →
          ∀ l ∈ lines ++ [line], l.length = width := by
        intro line hline
        refine List.forall_mem_append.mpr ⟨hread, List.forall_mem_singleton.mpr ?_⟩
        rw [← hwidth, ← List.length_map (f := bare), hline, List.length_map]
      cases rows with
      | nil =>
        cases hrows with
        | single words =>
          have hends : EndsRow (c :: rest) := .inr ⟨c, rest, rfl, hc⟩
          refine Meets.assoc ((row_yields [] hrow words hends (hwidth ▸ hsize)).bind ?_)
          rintro _ ⟨line, rfl, hline⟩
          refine Meets.ite_neg (hlength line hline) (peek_yields.bind fun token ht => ?_)
          refine Meets.ite_pos ((isPunct_iff ht).mpr hc) (next_yields.bind fun _ _ => ?_)
          exact Yields.pure ⟨_, rfl, by simpa using hline⟩
        | cons _ _ tail => cases tail
      | cons next rows =>
        cases hrows with
        | @cons _ _ _ vs v words newline tail =>
          have hnext : ∀ ws ∈ next.map (·.1), Opens ws := by
            intro ws hws
            obtain ⟨p, hp, rfl⟩ := List.mem_map.mp hws
            exact (hcells' next List.mem_cons_self p hp).opens
          obtain ⟨v', vs', heq, hv⟩ := (Rows.opens tail hnext).not_isPunct
          obtain ⟨rfl, rfl⟩ := List.cons.inj heq
          have hbracket : ¬ v.IsPunct "]" := hv _ (by decide)
          have hends : EndsRow (v :: (vs ++ c :: rest)) := .inl newline
          rw [List.append_assoc, List.cons_append]
          refine Meets.assoc ((row_yields [] hrow words hends (hwidth ▸ hsize)).bind ?_)
          rintro _ ⟨line, rfl, hline⟩
          refine Meets.ite_neg (hlength line hline) (peek_yields.bind fun token ht => ?_)
          refine Meets.ite_neg (mt (isPunct_iff ht).mp hbracket) ?_
          refine (ih hcells' tail hfull' (hmore line hline)
            (Nat.le_of_succ_le_succ hrounds)).mono fun v hv => ?_
          obtain ⟨ls, rfl, hls⟩ := hv
          refine ⟨ls, rfl, ?_⟩
          rw [hls, List.map_append, List.append_assoc, List.map_singleton, hline]
          rfl

omit [Numeric M] in
/-- The rows of a matrix are read, up to the bracket that closes it. -/
theorem rows_yields (hcells : ∀ row ∈ rows, ∀ p ∈ row, ReadsWhole statement p)
    (hrows : Rows (rows.map (·.map (·.1))) ws) (hc : c.IsPunct "]") {width size rounds : Nat}
    (hfull : ∀ row ∈ rows, row.length = width) (hsize : width ≤ size)
    (hrounds : rows.length ≤ rounds) :
    Yields (rowsWithin statement size token rounds []) (ws ++ c :: rest) rest
      (fun ls => ls.map (·.map bare) = rows.map (·.map (·.2))) := by
  refine (rowsVerdict_yields hcells hrows hc hfull (List.forall_mem_nil _) hsize hrounds).bind ?_
  rintro _ ⟨ls, rfl, hls⟩
  exact Yields.pure hls

variable {rounds : Nat}

/-- A leaf is read with what goes on after it. -/
theorem simple_meets_leaf (hkind : token.kind ≠ .operator) (hcall : startsCall rest = false)
    (hleaf : ∀ ws, Yields (operand token) ws ws (·.bare = e))
    (h : Continues statement alone e rest E) :
    Meets (simple statement rounds token alone) rest E := by
  cases h with
  | stop ends result =>
    have hfollows : Yields (if token.kind = .operator || alone then pure false else operatorFollows)
        rest rest (· = false) := by
      by_cases halone : alone = true
      · exact Meets.ite_pos (by simp [halone]) (Yields.pure rfl)
      · have hends := ends.resolve_left halone
        exact Meets.ite_neg (by simp [hkind, halone])
          (operatorFollows_yields.mono fun b hb => hb.trans hends)
    have hcalls : Yields (if token.kind = .identifier then callFollows else pure false)
        rest rest (· = false) := by
      by_cases hname : token.kind = .identifier
      · exact Meets.ite_pos hname (callFollows_yields.mono fun b hb => hb.trans hcall)
      · exact Meets.ite_neg hname (Yields.pure rfl)
    refine hfollows.bind fun b hb => Meets.ite_neg (by rw [hb]; decide) ?_
    refine hcalls.bind fun b hb => Meets.ite_neg (by rw [hb]; decide) ?_
    refine Meets.ite_neg hkind fun c hc => ?_
    obtain ⟨e', d, hrun, hd, he'⟩ := hleaf rest c hc
    rw [hrun]
    exact result e' d he' hd
  | operation follows result =>
    have hfollows : Yields (if token.kind = .operator || false then pure false else operatorFollows)
        rest rest (· = true) :=
      Meets.ite_neg (by simp [hkind]) (operatorFollows_yields.mono fun b hb => hb.trans follows)
    refine hfollows.bind fun b hb => Meets.ite_pos hb ?_
    exact (hleaf _).bind fun e' he' => result e' he'

/-- A call is read with what goes on after it. -/
theorem simple_meets_call (hkind : token.kind = .identifier) (ho : o.IsPunct "(")
    (hline : o.newline = false) (hmembers : ∀ p ∈ items, ReadsMember statement p)
    (hlist : Separated "," (items.map (·.1)) ws) (hc : c.IsPunct ")")
    (hrounds : items.length ≤ rounds)
    (h : Continues statement alone (.call {} token.text (items.map (·.2))) rest E) :
    Meets (simple statement rounds token alone) (o :: (ws ++ c :: rest)) E := by
  have hoperator : startsOperator (o :: (ws ++ c :: rest)) = false := by
    simp [startsOperator, ho.1]
  have hcall : startsCall (o :: (ws ++ c :: rest)) = true := by
    simp [startsCall, hline, ho.1, ho.2]
  have hfollows : Yields (if token.kind = .operator || alone then pure false else operatorFollows)
      (o :: (ws ++ c :: rest)) (o :: (ws ++ c :: rest)) (· = false) := by
    by_cases halone : alone = true
    · exact Meets.ite_pos (by simp [halone]) (Yields.pure rfl)
    · exact Meets.ite_neg (by simp [hkind, halone])
        (operatorFollows_yields.mono fun b hb => hb.trans hoperator)
  have hcalls : Yields (if token.kind = .identifier then callFollows else pure false)
      (o :: (ws ++ c :: rest)) (o :: (ws ++ c :: rest)) (· = true) :=
    Meets.ite_pos hkind (callFollows_yields.mono fun b hb => hb.trans hcall)
  have hargs : Yields (bracketed statement rounds "(" ")" ",") (o :: (ws ++ c :: rest)) rest
      (fun es => es.map bare = items.map (·.2)) :=
    (need_yields ho.1 ho.2).bind fun _ _ => list_yields hmembers hlist hc hrounds
  refine hfollows.bind fun b hb => Meets.ite_neg (by rw [hb]; decide) ?_
  refine hcalls.bind fun b hb => Meets.ite_pos hb (hargs.bind fun es hes => more_meets ?_)
  rw [bare, bareAll_eq_map, hes]
  exact h

/-- A prefix operator or a backquote is read with its operand and what goes on after it. -/
theorem simple_meets_prefixed (hkind : token.kind = .operator)
    (hright : Yields (prefixed statement token) ws rest (·.bare = e))
    (h : Continues statement alone e rest E) :
    Meets (simple statement rounds token alone) ws E := by
  have hfollows : Yields (if token.kind = .operator || alone then pure false else operatorFollows)
      ws ws (· = false) :=
    Meets.ite_pos (by simp [hkind]) (Yields.pure rfl)
  have hcalls : Yields (if token.kind = .identifier then callFollows else pure false) ws ws
      (· = false) :=
    Meets.ite_neg (by rw [hkind]; decide) (Yields.pure rfl)
  refine hfollows.bind fun b hb => Meets.ite_neg (by rw [hb]; decide) ?_
  refine hcalls.bind fun b hb => Meets.ite_neg (by rw [hb]; decide) (Meets.ite_pos hkind ?_)
  exact hright.bind fun e' he' => more_meets (he' ▸ h)

/-- No operand is read from punctuation. -/
theorem simple_fails (hkind : token.kind = .punctuation) :
    Meets (simple statement rounds token alone) ws Fails := by
  have hleaf : ∀ ws, Meets (operand (M := M) token) ws Fails := by
    intro ws c _
    simp only [operand, hkind]
    exact ⟨_, _, rfl⟩
  have hfollows : ∃ b, Yields (if token.kind = .operator || alone then pure false
      else operatorFollows) ws ws (· = b) := by
    by_cases halone : alone = true
    · exact ⟨false, Meets.ite_pos (by simp [halone]) (Yields.pure rfl)⟩
    · exact ⟨_, Meets.ite_neg (by simp [hkind, halone]) operatorFollows_yields⟩
  have hcalls : Yields (if token.kind = .identifier then callFollows else pure false) ws ws
      (· = false) :=
    Meets.ite_neg (by rw [hkind]; decide) (Yields.pure rfl)
  obtain ⟨b, hb⟩ := hfollows
  refine hb.bind fun follows hf => ?_
  by_cases hfollows : follows = true
  · exact Meets.ite_pos hfollows (Meets.bind_fails (hleaf ws))
  · refine Meets.ite_neg hfollows (hcalls.bind fun b hb => Meets.ite_neg (by rw [hb]; decide) ?_)
    exact Meets.ite_neg (by rw [hkind]; decide) (hleaf ws)

/-- What a prefix operator applies to is read after it. -/
theorem prefixed_yields (hsymbol : isUnaryOperator token.text = true)
    (hright : Yields (statement true) ws vs (·.bare = e)) :
    Yields (prefixed statement token) ws vs (·.bare = .unary {} ⟨{}, token.text⟩ e) := by
  have hquote : token.text ≠ "`" := by
    intro htext
    rw [htext] at hsymbol
    exact absurd hsymbol (by decide)
  refine Meets.ite_neg hquote (Meets.ite_neg (by rw [hsymbol]; decide) ?_)
  refine hright.bind fun r hr => Yields.pure ?_
  rw [bare, hr]

/-- The name after a backquote is read. -/
theorem prefixed_yields_quoted (hquote : token.text = "`") (hkind : w.kind = .identifier) :
    Yields (prefixed statement token) (w :: rest) rest
      (·.bare = .literal {} (.quoted w.text)) := by
  refine Meets.ite_pos hquote (next_yields.bind fun name hname => ?_)
  refine Meets.ite_neg (not_not.mpr (hname.kind.trans hkind)) ?_
  rw [hname.text]
  by_cases himaginary : w.text = "i"
  · refine Meets.ite_pos himaginary (Yields.pure ?_)
    rw [bare, Constant.quoted, if_pos himaginary]
  · refine Meets.ite_neg himaginary (Yields.pure ?_)
    rw [bare, Constant.quoted, if_neg himaginary]

/-- A statement that nothing goes on after is a member of a list. -/
theorem member_yields (h : Yields (statement false) ws rest (·.bare = e)) (hstops : Stops rest) :
    Yields (member statement) ws rest (·.bare = e) := by
  refine h.bind fun x hx => operatorFollows_yields.bind fun follows hf => ?_
  exact Meets.ite_neg (by rw [hf, hstops.operator]; decide) (Yields.pure hx)

/-- A member of a list goes on with the operator that a statement has left. -/
theorem member_yields_operation (h : Yields (statement false) us (o :: ws) (·.bare = left))
    (hjoins : o.Joins) (hright : Yields (statement false) ws vs (·.bare = right)) :
    Yields (member statement) us vs (·.bare = left.combine o.text right) := by
  refine h.bind fun x hx => operatorFollows_yields.bind fun follows hf => ?_
  refine Meets.ite_pos (hf.trans (startsOperator_cons hjoins)) ?_
  rw [← hx]
  exact operation_yields hjoins hright

/-- A statement that starts neither with a bracket nor with a word for a block is read as one
that starts with a leaf or a prefix operator. -/
theorem statementStep_meets_simple (hpunct : w.kind = .punctuation → w.text ≠ "(" ∧ w.text ≠ "[")
    (hword : w.kind = .keyword → w.text = "true" ∨ w.text = "false")
    (h : ∀ token : Token, token.Is w → Meets (simple statement rounds token alone) ws E) :
    Meets (statementStep statement rounds alone) (w :: ws) E := by
  have hblock : ∀ text : Text, text ≠ "true" → text ≠ "false" → ¬ w.IsKeyword text := by
    intro text htrue hfalse hk
    rcases hword hk.1 with htext | htext
    · exact htrue (hk.2.symm.trans htext)
    · exact hfalse (hk.2.symm.trans htext)
  refine next_yields_word.bind fun token ⟨ht, heof⟩ => Meets.ite_neg heof ?_
  refine Meets.ite_neg (mt (isKeyword_iff ht).mp (hblock _ (by decide) (by decide))) ?_
  refine Meets.ite_neg (mt (isKeyword_iff ht).mp (hblock _ (by decide) (by decide))) ?_
  refine Meets.ite_neg (mt (isKeyword_iff ht).mp (hblock _ (by decide) (by decide))) ?_
  refine Meets.ite_neg (mt (isKeyword_iff ht).mp (hblock _ (by decide) (by decide))) ?_
  refine Meets.ite_neg (mt (isPunct_iff ht).mp fun hp => (hpunct hp.1).1 hp.2) ?_
  exact Meets.ite_neg (mt (isPunct_iff ht).mp fun hp => (hpunct hp.1).2 hp.2) (h token ht)

/-- A keyword is no other keyword and no punctuation. -/
theorem keyword_unique {text other : Text} (ht : token.Is w) (hw : w.IsKeyword text)
    (hne : text ≠ other) : ¬ token.isKeyword other = true :=
  fun h => hne (hw.2.symm.trans ((isKeyword_iff ht).mp h).2)

/-- A bracket is no keyword. -/
theorem not_isKeyword_of_isPunct {text : Text} (ht : token.Is w) (hw : w.IsPunct text)
    (other : Text) : ¬ token.isKeyword other = true := by
  intro h
  have hkind := ((isKeyword_iff ht).mp h).1
  rw [hw.1] at hkind
  cases hkind

/-- A condition is read after its first word. -/
theorem statementStep_meets_if (hw : w.IsKeyword "if")
    (h : ∀ token : Token, token.Is w → Meets (conditional statement token) ws E) :
    Meets (statementStep statement rounds alone) (w :: ws) E := by
  refine next_yields_word.bind fun token ⟨ht, heof⟩ => Meets.ite_neg heof ?_
  exact Meets.ite_pos ((isKeyword_iff ht).mpr hw) (h token ht)

/-- A function is read after its first word. -/
theorem statementStep_meets_lambda (hw : w.IsKeyword "lambda")
    (h : ∀ token : Token, token.Is w → Meets (function statement rounds token) ws E) :
    Meets (statementStep statement rounds alone) (w :: ws) E := by
  refine next_yields_word.bind fun token ⟨ht, heof⟩ => Meets.ite_neg heof ?_
  refine Meets.ite_neg (keyword_unique ht hw (by decide)) ?_
  exact Meets.ite_pos ((isKeyword_iff ht).mpr hw) (h token ht)

/-- A return statement is read after its first word. -/
theorem statementStep_yields_return (hw : w.IsKeyword "return")
    (h : Yields (statement false) ws vs (·.bare = e)) :
    Yields (statementStep statement rounds alone) (w :: ws) vs (·.bare = .ret {} e) := by
  refine next_yields_word.bind fun token ⟨ht, heof⟩ => Meets.ite_neg heof ?_
  refine Meets.ite_neg (keyword_unique ht hw (by decide)) ?_
  refine Meets.ite_neg (keyword_unique ht hw (by decide)) ?_
  refine Meets.ite_pos ((isKeyword_iff ht).mpr hw) (h.bind fun value hvalue => Yields.pure ?_)
  rw [bare, hvalue]

/-- A declaration is read after its first word. -/
theorem statementStep_yields_set {w₁ w₂ w₃ w₄ w₅ : Word} (hw : w.IsKeyword "set") :
    Yields (statementStep statement rounds alone) (w :: w₁ :: w₂ :: w₃ :: w₄ :: w₅ :: rest) rest
      (·.bare = .declare {} ⟨w₁.text, w₂.text, w₃.text, w₄.text, w₅.text⟩) := by
  have hone : ∀ (w : Word) (ws : List Word), Yields Parse.word (w :: ws) ws (· = w.text) := by
    intro w ws
    refine next_yields_word.bind fun token ⟨ht, heof⟩ => Meets.ite_neg heof (Yields.pure ht.text)
  refine next_yields_word.bind fun token ⟨ht, heof⟩ => Meets.ite_neg heof ?_
  refine Meets.ite_neg (keyword_unique ht hw (by decide)) ?_
  refine Meets.ite_neg (keyword_unique ht hw (by decide)) ?_
  refine Meets.ite_neg (keyword_unique ht hw (by decide)) ?_
  refine Meets.ite_pos ((isKeyword_iff ht).mpr hw) ?_
  refine (hone w₁ _).bind fun t₁ h₁ => (hone w₂ _).bind fun t₂ h₂ => ?_
  refine (hone w₃ _).bind fun t₃ h₃ => (hone w₄ _).bind fun t₄ h₄ => ?_
  refine (hone w₅ _).bind fun t₅ h₅ => Yields.pure ?_
  rw [bare, h₁, h₂, h₃, h₄, h₅]

/-- Parentheses are read with what goes on after them. -/
theorem statementStep_meets_parentheses (hw : w.IsPunct "(")
    (hitems : items ≠ []) (hmembers : ∀ p ∈ items, ReadsMember statement p)
    (hlist : Separated "," (items.map (·.1)) ws) (hc : c.IsPunct ")")
    (hrounds : items.length ≤ rounds)
    (h : Continues statement alone (.parenthesised (items.map (·.2))) rest E) :
    Meets (statementStep statement rounds alone) (w :: (ws ++ c :: rest)) E := by
  have hinside : ∀ token, Yields (Parse.parenthesised statement rounds token) (ws ++ c :: rest) rest
      (·.bare = .parenthesised (items.map (·.2))) := by
    intro token
    refine (list_yields hmembers hlist hc hrounds).bind fun es hes => ?_
    rw [← hes]
    rcases es with _ | ⟨x, _ | ⟨y, es⟩⟩
    · exact absurd (List.map_eq_nil_iff.mp hes.symm) hitems
    · cases x <;> exact Yields.pure rfl
    · have hbare : (tuple token.pos (x :: y :: es)).bare =
          Expr.parenthesised ((x :: y :: es).map bare) := by
        rw [bare, bareAll_eq_map]
        cases x <;> rfl
      cases x <;> exact Yields.pure hbare
  refine next_yields_word.bind fun token hword => Meets.ite_neg hword.2 ?_
  have ht := hword.1
  refine Meets.ite_neg (not_isKeyword_of_isPunct ht hw _) ?_
  refine Meets.ite_neg (not_isKeyword_of_isPunct ht hw _) ?_
  refine Meets.ite_neg (not_isKeyword_of_isPunct ht hw _) ?_
  refine Meets.ite_neg (not_isKeyword_of_isPunct ht hw _) ?_
  refine Meets.ite_pos ((isPunct_iff ht).mpr hw) ?_
  exact (hinside token).bind fun e' he' => more_meets (he' ▸ h)

/-- A matrix is read with what goes on after it. -/
theorem statementStep_meets_matrix (hw : w.IsPunct "[")
    (hcells : ∀ row ∈ rows, ∀ p ∈ row, ReadsWhole statement p)
    (hrows : Rows (rows.map (·.map (·.1))) ws) (hc : c.IsPunct "]") {width : Nat}
    (hfull : ∀ row ∈ rows, row.length = width) (hsize : width ≤ rounds)
    (hrounds : rows.length ≤ rounds)
    (h : Continues statement alone (.matrix {} (rows.map (·.map (·.2)))) rest E) :
    Meets (statementStep statement rounds alone) (w :: (ws ++ c :: rest)) E := by
  have hopen : ¬ w.IsPunct "(" := fun hp => absurd (hw.2.symm.trans hp.2) (by decide)
  refine next_yields_word.bind fun token ⟨ht, heof⟩ => Meets.ite_neg heof ?_
  refine Meets.ite_neg (not_isKeyword_of_isPunct ht hw _) ?_
  refine Meets.ite_neg (not_isKeyword_of_isPunct ht hw _) ?_
  refine Meets.ite_neg (not_isKeyword_of_isPunct ht hw _) ?_
  refine Meets.ite_neg (not_isKeyword_of_isPunct ht hw _) ?_
  refine Meets.ite_neg (mt (isPunct_iff ht).mp hopen) ?_
  refine Meets.ite_pos ((isPunct_iff ht).mpr hw) ?_
  refine (rows_yields hcells hrows hc hfull hsize hrounds).bind fun lines hlines => ?_
  refine more_meets ?_
  rw [bare, bareRows_eq_map, hlines]
  exact h

variable {test yes no : Expr M} {t n l : Word}

omit [Numeric M] in
/-- A condition with one branch is read after its first word. -/
theorem conditional_yields_ifThen (htest : ReadsWhole statement (ws, test))
    (ht : t.IsKeyword "then") (hyes : ReadsWhole statement (vs, yes)) (hn : n.IsKeyword "end") :
    Yields (conditional statement token) (ws ++ t :: (vs ++ n :: rest)) rest
      (·.bare = .ifThen {} test yes) := by
  refine (htest.read _ (stops_of_isKeyword ht)).bind fun test' htest' => ?_
  refine (need_yields ht.1 ht.2).bind fun _ _ => ?_
  refine (hyes.read _ (stops_of_isKeyword hn)).bind fun yes' hyes' => ?_
  refine peek_yields.bind fun token' htoken => ?_
  refine Meets.ite_neg (keyword_unique htoken hn (by decide)) ?_
  refine (need_yields hn.1 hn.2).bind fun _ _ => Yields.pure ?_
  rw [bare, htest', hyes']

omit [Numeric M] in
/-- A condition with two branches is read after its first word. -/
theorem conditional_yields_ifElse (htest : ReadsWhole statement (ws, test))
    (ht : t.IsKeyword "then") (hyes : ReadsWhole statement (vs, yes)) (hl : l.IsKeyword "else")
    (hno : ReadsWhole statement (us, no)) (hn : n.IsKeyword "end") :
    Yields (conditional statement token) (ws ++ t :: (vs ++ l :: (us ++ n :: rest))) rest
      (·.bare = .ifElse {} test yes no) := by
  refine (htest.read _ (stops_of_isKeyword ht)).bind fun test' htest' => ?_
  refine (need_yields ht.1 ht.2).bind fun _ _ => ?_
  refine (hyes.read _ (stops_of_isKeyword hl)).bind fun yes' hyes' => ?_
  refine peek_yields.bind fun token' htoken => ?_
  refine Meets.ite_pos ((isKeyword_iff htoken).mpr hl) (next_yields.bind fun _ _ => ?_)
  refine (hno.read _ (stops_of_isKeyword hn)).bind fun no' hno' => ?_
  refine (need_yields hn.1 hn.2).bind fun _ _ => Yields.pure ?_
  rw [bare, htest', hyes', hno']

/-- Parameters that are names are read as such. -/
theorem parameters_yields {es : List (Expr M)} {names : List Text}
    (h : es.map bare = names.map fun name => .reference ⟨{}, name⟩) :
    Yields (parameters token es) ws ws (fun refs => refs.map (·.name) = names) := by
  induction es generalizing names with
  | nil =>
    have hnil := List.map_eq_nil_iff.mp h.symm
    rw [hnil]
    exact Yields.pure rfl
  | cons e es ih =>
    cases names with
    | nil => cases h
    | cons name names =>
      rw [List.map_cons, List.map_cons] at h
      obtain ⟨he, hes⟩ := List.cons.inj h
      cases e with
      | reference ref =>
        refine (ih hes).bind fun refs hrefs => Yields.pure ?_
        rw [List.map_cons, hrefs]
        rw [bare] at he
        cases he
        rfl
      | _ => cases he

/-- A function is read after its first word. -/
theorem function_yields {params : List (List Word × Text)} {b d : Word} (ho : o.IsPunct "(")
    (hparams : ∀ p ∈ params, ReadsMember statement (p.1, .reference ⟨{}, p.2⟩))
    (hlist : Separated "," (params.map (·.1)) ws) (hc : c.IsPunct ")") (hb : b.IsPunct "\x7b")
    (hbody : Body (items.map (·.1)) vs) (hmembers : ∀ p ∈ items, ReadsMember statement p)
    (hd : d.IsPunct "\x7d") (hparamRounds : params.length ≤ rounds)
    (hrounds : items.length ≤ rounds) :
    Yields (function statement rounds token) (o :: (ws ++ c :: b :: (vs ++ d :: rest))) rest
      (·.bare = .lambda {} (params.map fun p => ⟨{}, p.2⟩) {} (items.map (·.2))) := by
  let references := params.map fun p => (p.1, (.reference ⟨{}, p.2⟩ : Expr M))
  have hreferences : ∀ p ∈ references, ReadsMember statement p := List.forall_mem_map.mpr hparams
  have hwords : Separated "," (references.map (·.1)) ws := by
    rw [List.map_map]
    exact hlist
  have htrees :
      references.map (·.2) = (params.map (·.2)).map fun name => .reference ⟨{}, name⟩ := by
    rw [List.map_map, List.map_map]
    rfl
  refine Yields.bind ((need_yields ho.1 ho.2).bind fun _ _ =>
    list_yields hreferences hwords hc (by simpa [references] using hparamRounds)) fun es hes => ?_
  refine (parameters_yields (hes.trans htrees)).bind fun refs hrefs => ?_
  refine peek_yields.bind fun start _ => ?_
  refine Yields.bind ((need_yields hb.1 hb.2).bind fun _ _ =>
    body_yields hmembers hbody hd hrounds) fun body hbody' => Yields.pure ?_
  have hparameters : refs.map (fun r => (⟨{}, r.name⟩ : Ref)) =
      params.map fun p => ⟨{}, p.2⟩ := by
    have h := congrArg (List.map fun name => (⟨{}, name⟩ : Ref)) hrefs
    rw [List.map_map, List.map_map] at h
    exact h
  rw [bare, bareAll_eq_map, hbody', hparameters]

end Parse

end SymCalc
