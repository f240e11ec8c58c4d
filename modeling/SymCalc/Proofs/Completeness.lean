import Mathlib
import SymCalc.Proofs.Productions

/-!
# Every phrase is read

The reader of programs, before the words of a phrase and something that ends it, succeeds,
leaves what follows, and builds the tree of the phrase. The nesting that it is allowed only has
to be the number of the words. Main statements: `Phrase.read`, by induction on how the phrase is
built, and its consequence for whole programs.
-/

namespace SymCalc

open Parse

variable {M : Type} [Numeric M]

/-- A phrase starts with no punctuation but an opening bracket. -/
theorem Phrase.opens {category : Category} {ws : List Word} {e : Expr M}
    (h : Phrase category ws e) : Opens ws := by
  have hkind : ∀ {w : Word} {vs : List Word}, w.kind ≠ .punctuation → Opens (w :: vs) :=
    fun h => ⟨_, _, rfl, fun hp => absurd hp h⟩
  have hkeyword : ∀ {w : Word} {vs : List Word} {text : Text}, w.IsKeyword text → Opens (w :: vs) :=
    fun h => hkind (by rw [h.1]; decide)
  induction h with
  | number kind | reference kind | call kind => exact hkind (by rw [kind]; decide)
  | boolean b word => exact hkeyword word
  | quoted quote => exact hkind (by rw [quote.1]; decide)
  | parentheses start => exact ⟨_, _, rfl, fun _ => .inl start.2⟩
  | matrix start => exact ⟨_, _, rfl, fun _ => .inr start.2⟩
  | prefixPrimary kind | prefixBlock kind | prefixClosed kind | prefixTail kind =>
    exact hkind (by rw [kind]; decide)
  | ifThen start | ifElse start | lambda start | declare start | ret start => exact hkeyword start
  | ofPrimary _ ih | ofBlock _ ih | ofTail _ ih | whole _ ih | member _ ih => exact ih
  | operation _ _ _ ih | assignment _ _ _ _ _ ih | resumed _ _ _ ih => exact ih.append _

/-- A phrase has words. -/
theorem Phrase.length_pos {category : Category} {ws : List Word} {e : Expr M}
    (h : Phrase category ws e) : 0 < ws.length := by
  obtain ⟨w, vs, rfl, _⟩ := h.opens
  exact Nat.succ_pos _

/-- A phrase is not empty. -/
theorem Phrase.ne_nil {category : Category} {ws : List Word} {e : Expr M}
    (h : Phrase category ws e) : ws ≠ [] :=
  List.ne_nil_of_length_pos h.length_pos

/-- That the phrases of a category are read. What follows a primary may be an operator, and
reading goes on with it; the other phrases must come before something that ends them, unless
they are closed. -/
def Category.Read : Category → List Word → Expr M → Prop
  | .primary, ws, e => ∀ {depth : Nat} {alone : Bool} {rest : List Word}
      {E : EStateM.Result SyntaxError Cursor (Expr M) → Prop},
      ws.length ≤ depth → startsCall rest = false →
      Continues (statementWithin (depth - 1)) alone e rest E →
      Meets (statementWithin depth alone) (ws ++ rest) E
  | .block, ws, e => ∀ {depth : Nat} {alone : Bool} {rest : List Word}, ws.length ≤ depth →
      Yields (statementWithin depth alone) (ws ++ rest) rest (·.bare = e)
  | .tail closed, ws, e => ∀ {depth : Nat} {alone : Bool} {rest : List Word}, ws.length ≤ depth →
      (closed = false → Stops rest) →
      Yields (statementWithin depth alone) (ws ++ rest) rest (·.bare = e)
  | .statement closed, ws, e => ∀ {depth : Nat} {rest : List Word}, ws.length ≤ depth →
      (closed = false → Stops rest) →
      Yields (statementWithin depth false) (ws ++ rest) rest (·.bare = e)
  | .whole, ws, e => ∀ {depth : Nat} {rest : List Word}, ws.length ≤ depth → Stops rest →
      Yields (statementWithin depth false) (ws ++ rest) rest (·.bare = e)
  | .member, ws, e => ∀ {depth : Nat} {rest : List Word}, ws.length ≤ depth → Stops rest →
      Yields (Parse.member (statementWithin depth)) (ws ++ rest) rest (·.bare = e)

/-- No statement starts with punctuation other than an opening bracket. -/
theorem statementWithin_fails {w : Word} {ws : List Word} {depth : Nat} {alone : Bool}
    (hkind : w.kind = .punctuation) (htext : w.text ≠ "(" ∧ w.text ≠ "[") :
    Meets (statementWithin (M := M) depth alone) (w :: ws) Fails := by
  cases depth with
  | zero => exact peek_yields.bind fun token _ c _ => ⟨_, _, rfl⟩
  | succ depth =>
    refine statementStep_meets_simple (fun _ => htext) (by rw [hkind]; exact nofun) ?_
    exact fun token ht => simple_fails (ht.kind.trans hkind)

section Cases

variable {ws vs us : List Word} {w o c t l n : Word} {e : Expr M}
  {items : List (List Word × Expr M)}

/-- A primary is read as one that has a first word. -/
theorem read_primary
    (h : ∀ {depth : Nat} {alone : Bool} {rest : List Word}
      {E : EStateM.Result SyntaxError Cursor (Expr M) → Prop}, ws.length ≤ depth →
      startsCall rest = false → Continues (statementWithin depth) alone e rest E →
      Meets (statementWithin (depth + 1) alone) (w :: (ws ++ rest)) E) :
    Category.primary.Read (w :: ws) e := by
  intro depth alone rest E hdepth hcall hgoes
  cases depth with
  | zero => simp at hdepth
  | succ depth => exact h (Nat.le_of_succ_le_succ hdepth) hcall hgoes

/-- A block is read as one that has a first word. -/
theorem read_block
    (h : ∀ {depth : Nat} {alone : Bool} {rest : List Word}, ws.length ≤ depth →
      Yields (statementWithin (depth + 1) alone) (w :: (ws ++ rest)) rest (·.bare = e)) :
    Category.block.Read (w :: ws) e := by
  intro depth alone rest hdepth
  cases depth with
  | zero => simp at hdepth
  | succ depth => exact h (Nat.le_of_succ_le_succ hdepth)

/-- A tail is read as one that has a first word. -/
theorem read_tail {closed : Bool}
    (h : ∀ {depth : Nat} {alone : Bool} {rest : List Word}, ws.length ≤ depth →
      (closed = false → Stops rest) →
      Yields (statementWithin (depth + 1) alone) (w :: (ws ++ rest)) rest (·.bare = e)) :
    (Category.tail closed).Read (w :: ws) e := by
  intro depth alone rest hdepth hstops
  cases depth with
  | zero => simp at hdepth
  | succ depth => exact h (Nat.le_of_succ_le_succ hdepth) hstops

/-- A single word is read as a leaf. -/
theorem read_leaf (hpunct : w.kind ≠ .punctuation) (hoperator : w.kind ≠ .operator)
    (hword : w.kind = .keyword → w.text = "true" ∨ w.text = "false")
    (hleaf : ∀ token : Token, token.Is w → ∀ ws, Yields (operand token) ws ws (·.bare = e)) :
    Category.primary.Read [w] e := by
  refine read_primary fun _ hcall hgoes => ?_
  refine statementStep_meets_simple (absurd · hpunct) hword fun token ht => ?_
  exact simple_meets_leaf (by rw [ht.kind]; exact hoperator) hcall (hleaf token ht) hgoes

/-- An operator with what `prefixed` reads after it. -/
theorem statementWithin_meets_prefixed {depth : Nat} {alone : Bool}
    {rest : List Word} {E : EStateM.Result SyntaxError Cursor (Expr M) → Prop}
    (hkind : o.kind = .operator)
    (hright : ∀ token : Token, token.Is o →
      Yields (prefixed (statementWithin depth) token) vs rest (·.bare = e))
    (hgoes : Continues (statementWithin depth) alone e rest E) :
    Meets (statementWithin (depth + 1) alone) (o :: vs) E := by
  refine statementStep_meets_simple (by rw [hkind]; exact nofun) (by rw [hkind]; exact nofun) ?_
  intro token ht
  exact simple_meets_prefixed (ht.kind.trans hkind) (hright token ht) hgoes

/-- A prefix operator before something that is read alone. -/
theorem read_prefixed (hkind : o.kind = .operator) (hsymbol : isUnaryOperator o.text = true)
    (hright : ∀ {depth : Nat} {rest : List Word}, ws.length ≤ depth → startsCall rest = false →
      Yields (statementWithin depth true) (ws ++ rest) rest (·.bare = e)) :
    Category.primary.Read (o :: ws) (.unary {} ⟨{}, o.text⟩ e) := by
  refine read_primary fun hdepth hcall hgoes => ?_
  refine statementWithin_meets_prefixed hkind (fun token ht => ?_) hgoes
  rw [← ht.text] at hsymbol ⊢
  exact prefixed_yields hsymbol (hright hdepth hcall)

/-- The members of a list are read, if they are so nested and no more. -/
theorem readsMember_of_phrases {depth : Nat} (hmembers : ∀ p ∈ items, Phrase .member p.1 p.2)
    (hread : ∀ p ∈ items, Category.member.Read p.1 p.2)
    (hdepth : ∀ ws ∈ items.map (·.1), ws.length ≤ depth) :
    ∀ p ∈ items, ReadsMember (statementWithin depth) p := by
  intro p hp
  exact ⟨(hmembers p hp).opens, fun rest hstops =>
    hread p hp (hdepth p.1 (List.mem_map_of_mem hp)) hstops⟩

/-- The members of a list with separators are read where the list and its brackets may nest. -/
theorem readsMember_of_separated {depth : Nat} (hlist : Separated "," (items.map (·.1)) ws)
    (hmembers : ∀ p ∈ items, Phrase .member p.1 p.2)
    (hread : ∀ p ∈ items, Category.member.Read p.1 p.2) (hdepth : ws.length ≤ depth) :
    items.length ≤ depth + 1 ∧ ∀ p ∈ items, ReadsMember (statementWithin depth) p := by
  obtain ⟨hcount, hsizes⟩ := hlist.length_le
  rw [List.length_map] at hcount
  exact ⟨by omega, readsMember_of_phrases hmembers hread fun p hp => (hsizes p hp).trans hdepth⟩

/-- A call is read. -/
theorem read_call (hkind : w.kind = .identifier) (hstart : o.IsPunct "(")
    (hline : o.newline = false) (hstop : c.IsPunct ")")
    (hlist : Separated "," (items.map (·.1)) ws)
    (hmembers : ∀ p ∈ items, Phrase .member p.1 p.2)
    (hread : ∀ p ∈ items, Category.member.Read p.1 p.2) :
    Category.primary.Read (w :: o :: (ws ++ [c])) (.call {} w.text (items.map (·.2))) := by
  refine read_primary fun {depth} _ _ _ hdepth _ hgoes => ?_
  simp only [List.length_cons, List.length_append] at hdepth
  have hinner : ws.length ≤ depth := by omega
  obtain ⟨hcount, hinside⟩ := readsMember_of_separated hlist hmembers hread hinner
  simp only [List.cons_append, List.append_assoc, List.nil_append]
  refine statementStep_meets_simple (by simp [hkind]) (by simp [hkind]) fun token ht => ?_
  refine simple_meets_call (ht.kind.trans hkind) hstart hline hinside hlist hstop hcount ?_
  rw [ht.text]
  exact hgoes

/-- A list in parentheses is read. -/
theorem read_parentheses (hstart : o.IsPunct "(") (hstop : c.IsPunct ")") (hnonempty : items ≠ [])
    (hlist : Separated "," (items.map (·.1)) ws)
    (hmembers : ∀ p ∈ items, Phrase .member p.1 p.2)
    (hread : ∀ p ∈ items, Category.member.Read p.1 p.2) :
    Category.primary.Read (o :: (ws ++ [c])) (.parenthesised (items.map (·.2))) := by
  refine read_primary fun {depth} _ _ _ hdepth _ hgoes => ?_
  simp only [List.length_append] at hdepth
  have hinner : ws.length ≤ depth := by omega
  obtain ⟨hcount, hinside⟩ := readsMember_of_separated hlist hmembers hread hinner
  rw [List.append_assoc]
  exact statementStep_meets_parentheses hstart hnonempty hinside hlist hstop hcount hgoes

/-- A matrix is read. -/
theorem read_matrix {rows : List (List (List Word × Expr M))} (hstart : o.IsPunct "[")
    (hstop : c.IsPunct "]") (hlist : Rows (rows.map (·.map (·.1))) ws) {width : Nat}
    (hwidth : ∀ row ∈ rows, row.length = width)
    (hcells : ∀ row ∈ rows, ∀ p ∈ row, Phrase .whole p.1 p.2)
    (hread : ∀ row ∈ rows, ∀ p ∈ row, Category.whole.Read p.1 p.2) :
    Category.primary.Read (o :: (ws ++ [c])) (.matrix {} (rows.map (·.map (·.2)))) := by
  have hpos : ∀ line ∈ rows.map (·.map (·.1)), ∀ p ∈ line, 0 < p.length :=
    List.forall_mem_map.mpr fun row hrow => List.forall_mem_map.mpr fun p hp =>
      (hcells row hrow p hp).length_pos
  obtain ⟨hcount, hlines⟩ := hlist.length_le hpos
  have hsize : width ≤ ws.length + 1 := by
    cases rows with
    | nil => cases hlist
    | cons row rows =>
      have hline := (hlines _ List.mem_cons_self).1
      rw [List.length_map, hwidth row List.mem_cons_self] at hline
      exact hline
  apply read_primary
  intro depth alone rest E hdepth _ hgoes
  simp only [List.length_append, List.length_map] at hdepth hcount
  rw [List.append_assoc]
  refine statementStep_meets_matrix hstart (fun row hrow p hp => ?_) hlist hstop hwidth
    (by omega) (by omega) hgoes
  have hcell := (hlines _ (List.mem_map_of_mem hrow)).2 p.1 (List.mem_map_of_mem hp)
  exact ⟨(hcells row hrow p hp).opens, fun _ => hread row hrow p hp (by omega)⟩

/-- A condition with one branch is read. -/
theorem read_ifThen {test yes : Expr M} (hstart : w.IsKeyword "if")
    (hcondition : Phrase .whole ws test) (hbetween : t.IsKeyword "then")
    (hfirst : Phrase .whole vs yes) (hstop : n.IsKeyword "end")
    (htest : Category.whole.Read ws test) (hyes : Category.whole.Read vs yes) :
    Category.block.Read (w :: (ws ++ t :: (vs ++ [n]))) (.ifThen {} test yes) := by
  refine read_block fun hdepth => ?_
  simp only [List.length_cons, List.length_append] at hdepth
  simp only [List.cons_append, List.append_assoc, List.nil_append]
  refine statementStep_meets_if hstart fun token ht => ?_
  exact conditional_yields_ifThen ⟨hcondition.opens, fun _ => htest (by omega)⟩ hbetween
    ⟨hfirst.opens, fun _ => hyes (by omega)⟩ hstop

/-- A condition with two branches is read. -/
theorem read_ifElse {test yes no : Expr M} (hstart : w.IsKeyword "if")
    (hcondition : Phrase .whole ws test) (hbetween : t.IsKeyword "then")
    (hfirst : Phrase .whole vs yes) (hotherwise : l.IsKeyword "else")
    (hsecond : Phrase .whole us no) (hstop : n.IsKeyword "end")
    (htest : Category.whole.Read ws test) (hyes : Category.whole.Read vs yes)
    (hno : Category.whole.Read us no) :
    Category.block.Read (w :: (ws ++ t :: (vs ++ l :: (us ++ [n])))) (.ifElse {} test yes no) := by
  refine read_block fun hdepth => ?_
  simp only [List.length_cons, List.length_append] at hdepth
  simp only [List.cons_append, List.append_assoc, List.nil_append]
  refine statementStep_meets_if hstart fun token ht => ?_
  exact conditional_yields_ifElse ⟨hcondition.opens, fun _ => htest (by omega)⟩ hbetween
    ⟨hfirst.opens, fun _ => hyes (by omega)⟩ hotherwise
    ⟨hsecond.opens, fun _ => hno (by omega)⟩ hstop

/-- A function is read. -/
theorem read_lambda {b d : Word} {params : List (List Word × Text)} (hstart : w.IsKeyword "lambda")
    (hopens : o.IsPunct "(") (hlist : Separated "," (params.map (·.1)) ws)
    (hnames : ∀ p ∈ params, Phrase .member p.1 (.reference ⟨{}, p.2⟩ : Expr M))
    (hcloses : c.IsPunct ")") (hbegins : b.IsPunct "\x7b")
    (hstatements : Body (items.map (·.1)) vs) (hmembers : ∀ p ∈ items, Phrase .member p.1 p.2)
    (hstop : d.IsPunct "\x7d")
    (hreadNames : ∀ p ∈ params, Category.member.Read p.1 (.reference ⟨{}, p.2⟩ : Expr M))
    (hread : ∀ p ∈ items, Category.member.Read p.1 p.2) :
    Category.block.Read (w :: o :: (ws ++ c :: b :: (vs ++ [d])))
      (.lambda {} (params.map fun p => ⟨{}, p.2⟩) {} (items.map (·.2))) := by
  obtain ⟨hparams, hsizes⟩ := hlist.length_le
  obtain ⟨hcount, hlengths⟩ := hstatements.length_le
    (List.forall_mem_map.mpr fun p hp => (hmembers p hp).length_pos)
  refine read_block fun hdepth => ?_
  simp only [List.length_cons, List.length_append, List.length_map] at hdepth hparams hcount
  simp only [List.cons_append, List.append_assoc, List.nil_append]
  refine statementStep_meets_lambda hstart fun token ht => ?_
  refine function_yields hopens (fun p hp => ⟨(hnames p hp).opens, fun _ => ?_⟩) hlist hcloses
    hbegins hstatements (readsMember_of_phrases hmembers hread fun p hp => ?_) hstop (by omega)
    (by omega)
  · have hname := hsizes p.1 (List.mem_map_of_mem hp)
    exact hreadNames p hp (by omega)
  · have hmember := hlengths p hp
    omega

end Cases

/-- Every phrase is read. -/
theorem Phrase.read {category : Category} {ws : List Word} {e : Expr M}
    (h : Phrase category ws e) : category.Read ws e := by
  induction h with
  | @number w m kind value =>
    refine read_leaf (by rw [kind]; decide) (by rw [kind]; decide) (by simp [kind]) ?_
    intro token ht ws
    simp only [operand, ht.kind, kind, ht.text, value]
    exact Yields.pure rfl
  | @boolean w b word =>
    refine read_leaf (by rw [word.1]; decide) (by rw [word.1]; decide) (fun _ => ?_) ?_
    · cases b with
      | true => exact .inl word.2
      | false => exact .inr word.2
    · intro token ht ws
      simp only [operand, ht.kind, word.1, ht.text, word.2]
      cases b with
      | true => exact Meets.ite_pos rfl (Yields.pure rfl)
      | false => exact Meets.ite_neg (by decide) (Meets.ite_pos rfl (Yields.pure rfl))
  | @reference w kind =>
    refine read_leaf (by rw [kind]; decide) (by rw [kind]; decide) (by simp [kind]) ?_
    intro token ht ws
    simp only [operand, ht.kind, kind]
    exact Yields.pure (by rw [Expr.bare, ht.text])
  | quoted quote kind =>
    refine read_primary fun _ _ hgoes => ?_
    refine statementWithin_meets_prefixed quote.1 (fun token ht => ?_) hgoes
    exact prefixed_yields_quoted (ht.text.trans quote.2) kind
  | call kind start line stop list members ih =>
    exact read_call kind start line stop list members ih
  | parentheses start stop nonempty list members ih =>
    exact read_parentheses start stop nonempty list members ih
  | matrix start stop list full cells ih =>
    obtain ⟨width, hwidth⟩ := full
    exact read_matrix start stop list hwidth cells ih
  | prefixPrimary kind symbol right ih =>
    exact read_prefixed kind symbol fun hdepth hcall =>
      ih hdepth hcall (.ends (.inl rfl))
  | prefixBlock kind symbol right ih =>
    exact read_prefixed kind symbol fun hdepth _ => ih hdepth
  | prefixClosed kind symbol right ih =>
    exact read_prefixed kind symbol fun hdepth _ => ih hdepth (by simp)
  | prefixTail kind symbol right ih =>
    refine read_tail fun hdepth hstops => ?_
    refine statementWithin_meets_prefixed kind (fun token ht => ?_)
      (.ends (.inr (hstops rfl).operator))
    rw [← ht.text] at symbol ⊢
    exact prefixed_yields symbol (ih hdepth hstops)
  | ifThen start condition between first stop ihtest ihyes =>
    exact read_ifThen start condition between first stop ihtest ihyes
  | ifElse start condition between first otherwise second stop ihtest ihyes ihno =>
    exact read_ifElse start condition between first otherwise second stop ihtest ihyes ihno
  | lambda start opens list names closes begins statements members stop ihnames ihbody =>
    exact read_lambda start opens list names closes begins statements members stop ihnames ihbody
  | declare start =>
    refine read_block fun _ => ?_
    exact statementStep_yields_set start
  | ret start value ih =>
    exact read_tail fun hdepth hstops => statementStep_yields_return start (ih hdepth hstops)
  | ofPrimary h ih =>
    intro depth rest hdepth hstops
    exact ih hdepth (hstops rfl).call (.ends (.inr (hstops rfl).operator))
  | ofBlock h ih => exact fun hdepth _ => ih hdepth
  | ofTail h ih => exact ih
  | operation first joins second ihfirst ihsecond =>
    intro depth rest hdepth hstops
    rw [List.length_append, List.length_cons] at hdepth
    rw [List.append_assoc]
    refine ihfirst (by omega) (startsCall_cons_operator joins.kind)
      (.operation (startsOperator_cons joins) fun e' he' => ?_)
    rw [← he']
    exact operation_yields joins (ihsecond (by omega) hstops)
  | assignment target kind symbol line value ihtarget ihvalue =>
    intro depth rest hdepth hstops
    rw [List.length_append, List.length_cons] at hdepth
    rw [List.append_assoc]
    refine ihtarget (by omega) (startsCall_cons_operator kind)
      (.operation (startsOperator_cons_equals kind symbol line) fun e' he' => ?_)
    exact operation_yields_assign symbol he' (ihvalue (by omega) hstops)
  | whole h ih => exact fun hdepth hstops => ih hdepth fun _ => hstops
  | member h ih => exact fun hdepth hstops => member_yields (ih hdepth hstops) hstops
  | resumed first joins second ihfirst ihsecond =>
    intro depth rest hdepth hstops
    rw [List.length_append, List.length_cons] at hdepth
    rw [List.append_assoc]
    exact member_yields_operation (ihfirst (by omega) (by simp)) joins
      (ihsecond (by omega) hstops)

/-- The statements of a program. Each ends where what follows cannot belong to it. -/
inductive Phrases : List (List Word × Expr M) → List Word → Prop where
  | nil : Phrases [] []
  | cons {ws vs : List Word} {e : Expr M} {pieces : List (List Word × Expr M)}
      (first : Phrase .whole ws e) (stops : Stops vs) (rest : Phrases pieces vs) :
      Phrases ((ws, e) :: pieces) (ws ++ vs)

/-- There are at most as many statements as words. -/
theorem Phrases.length_le {pieces : List (List Word × Expr M)} {ws : List Word}
    (h : Phrases pieces ws) : pieces.length ≤ ws.length := by
  induction h with
  | nil => exact Nat.le_refl 0
  | cons first _ _ ih =>
    have := first.length_pos
    rw [List.length_cons, List.length_append]
    omega

namespace Cursor

variable {c : Cursor} {ws vs : List Word} {e : Expr M} (settings : Settings)

omit [Numeric M] in
/-- Before a word the input has not ended. -/
theorem atEnd_reads (hws : ws ≠ []) (hc : c.scanner.Reads ws) :
    ∃ d, c.atEnd = (false, d) ∧ d.scanner.Reads ws := by
  obtain ⟨w, us, rfl⟩ := List.exists_cons_of_ne_nil hws
  obtain ⟨htoken, heof, _, hd⟩ := hc.peek_cons
  have hkind : c.scanner.peek.1.kind ≠ .eof := by
    rw [htoken.kind]
    exact heof
  exact ⟨{ c with scanner := c.scanner.peek.2 }, Prod.ext (decide_eq_false hkind) rfl, hd⟩

/-- A statement of a program is read, and what follows it is left. -/
theorem statement_reads (h : Phrase .whole ws e) (hstops : Stops vs)
    (hc : c.scanner.Reads (ws ++ vs)) :
    ∃ (e' : Expr M) (d : Cursor), c.statement settings = (.ok e', d) ∧ e'.bare = e ∧
      d.scanner.Reads vs := by
  have hdepth : ws.length ≤ c.scanner.size := by
    have := hc.length_lt_size
    rw [List.length_append] at this
    omega
  obtain ⟨e', d, hparse, hd, he'⟩ := h.read hdepth hstops c hc
  refine ⟨e', if settings.debug.outline then d.note (Expr.outline e') else d, ?_, he', ?_⟩
  · unfold Cursor.statement Cursor.parse
    rw [hparse]
  -- the outline goes to the log, which reading does not look at
  split
  · exact hd
  · exact hd

/-- The statements of a program are read. -/
theorem statementsWithin_reads {pieces : List (List Word × Expr M)} (h : Phrases pieces ws)
    (hc : c.scanner.Reads ws) {rounds : Nat} (hrounds : pieces.length < rounds) :
    ∃ es : List (Expr M), (c.statementsWithin settings rounds).1 = es.map .ok ∧
      es.map Expr.bare = pieces.map (·.2) := by
  induction h generalizing c rounds with
  | nil =>
    cases rounds with
    | zero => exact absurd hrounds (Nat.not_lt_zero _)
    | succ rounds =>
      have hend : c.atEnd.1 = true := decide_eq_true hc.peek_nil.1
      refine ⟨[], ?_, rfl⟩
      unfold statementsWithin
      split
      · rfl
      · rename_i hatEnd
        rw [hatEnd] at hend
        cases hend
  | @cons ws vs e pieces first stops rest ih =>
    cases rounds with
    | zero => exact absurd hrounds (Nat.not_lt_zero _)
    | succ rounds =>
      obtain ⟨d, hatEnd, hd⟩ := atEnd_reads (List.append_ne_nil_of_left_ne_nil first.ne_nil _) hc
      obtain ⟨e', d', hresult, he', hafter⟩ := statement_reads settings first stops hd
      obtain ⟨es, hes, htrees⟩ := ih hafter (Nat.lt_of_succ_lt_succ hrounds)
      refine ⟨e' :: es, ?_, by rw [List.map_cons, List.map_cons, he', htrees]⟩
      unfold statementsWithin
      rw [hatEnd]
      dsimp only
      rw [hresult]
      dsimp only
      rw [hes, List.map_cons]

/-- A program whose words are phrases one after the other is read, with the trees of the
phrases. -/
theorem program_reads {pieces : List (List Word × Expr M)} (h : Phrases pieces ws)
    (hc : c.scanner.Reads ws) :
    ∃ es : List (Expr M), (c.program settings).1 = .ok es ∧
      es.map Expr.bare = pieces.map (·.2) := by
  have hrounds : pieces.length < c.scanner.size :=
    Nat.lt_of_le_of_lt h.length_le hc.length_lt_size
  obtain ⟨es, hes, htrees⟩ := statementsWithin_reads settings h hc hrounds
  exact ⟨es, program_eq_ok_iff.mpr hes, htrees⟩

/-- A program is not read if its first statement is not. -/
theorem program_fails (hws : ws ≠ []) (hc : c.scanner.Reads ws)
    (hfails : ∀ depth, ws.length ≤ depth → Meets (statementWithin (M := M) depth false) ws Fails) :
    ∃ errors, (c.program (M := M) settings).1 = .error errors := by
  obtain ⟨rounds, hrounds⟩ := Nat.exists_eq_succ_of_ne_zero (Nat.ne_zero_of_lt hc.length_lt_size)
  obtain ⟨d, hatEnd, hd⟩ := atEnd_reads hws hc
  obtain ⟨error, d', hparse⟩ := hfails d.scanner.size hd.length_lt_size.le d hd
  have hstatement : d.statement (M := M) settings = (.error error, d'.resync d.consumed) := by
    unfold Cursor.statement Cursor.parse
    rw [hparse]
  have hresults : ∃ results, (c.statements (M := M) settings).1 = .error error :: results := by
    unfold statements
    rw [hrounds]
    unfold statementsWithin
    rw [hatEnd]
    dsimp only
    rw [hstatement]
    exact ⟨_, rfl⟩
  obtain ⟨results, hresults⟩ := hresults
  refine ⟨error :: syntaxErrors results,
    program_eq_error_iff.mpr ⟨List.cons_ne_nil _ _, ?_⟩⟩
  rw [hresults]
  rfl

omit [Numeric M] in
/-- At the start of a text there are its words to read. -/
theorem start_reads {cs : List Char} {m : Bool} (name : Text) (hchars : '\r' ∉ cs)
    (hwords : Scans false cs ws m) :
    (start settings name (.ofText (.ofChars cs))).scanner.Reads ws := by
  refine Scanner.reads_of_scans rfl rfl (m := m) ?_
  have hfilter : (Text.ofChars cs).chars.filter (· ≠ '\r') = cs := by
    rw [Text.chars_ofChars, List.filter_eq_self]
    exact fun c hc => decide_eq_true fun heq => hchars (heq ▸ hc)
  change Scans false ((Text.ofChars cs).chars.filter (· ≠ '\r')) ws m
  rw [hfilter]
  exact hwords

end Cursor

end SymCalc
