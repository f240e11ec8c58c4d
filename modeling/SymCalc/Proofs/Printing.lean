import Mathlib
import SymCalc.Proofs.Spelling
import SymCalc.Proofs.Completeness

/-!
# What is printed is spelled out

The text of an expression, as it would stand in a program, has the words of a phrase, and the
phrase stands for the expression up to positions and up to parentheses around a single item.
Main statement: `Expr.source_spelled`, by induction on the expression, with one lemma for each
way of writing.
-/

namespace SymCalc

variable {M : Type}

namespace Expr

/-- Items in parentheses, of which a single one stands for itself. -/
def grouped (pos : Position) : List (Expr M) → Expr M
  | [x] => x
  | items => tuple pos items

mutual

/-- A tree in which every list with one item is replaced by the item. -/
def unwrap : Expr M → Expr M
  | literal pos c => literal pos c
  | reference ref => reference ref
  | operator op => operator op
  | unary pos op right => unary pos op (unwrap right)
  | binary pos left op right => binary pos (unwrap left) op (unwrap right)
  | assign pos target right => assign pos target (unwrap right)
  | tuple pos items => grouped pos (unwrapAll items)
  | matrix pos rows => matrix pos (unwrapRows rows)
  | ifThen pos test yes => ifThen pos (unwrap test) (unwrap yes)
  | ifElse pos test yes no => ifElse pos (unwrap test) (unwrap yes) (unwrap no)
  | lambda pos params bodyPos body => lambda pos params bodyPos (unwrapAll body)
  | call pos name args => call pos name (unwrapAll args)
  | ret pos value => ret pos (unwrap value)
  | declare pos words => declare pos words
  | program pos statements => program pos (unwrapAll statements)
termination_by structural e => e

/-- Trees in which every list with one item is replaced by the item. -/
def unwrapAll : List (Expr M) → List (Expr M)
  | [] => []
  | e :: es => unwrap e :: unwrapAll es
termination_by structural es => es

/-- Rows of trees in which every list with one item is replaced by the item. -/
def unwrapRows : List (List (Expr M)) → List (List (Expr M))
  | [] => []
  | row :: rows => unwrapAll row :: unwrapRows rows
termination_by structural rows => rows

end

/-- Lists with one item are replaced in each of several trees. -/
theorem unwrapAll_eq_map (es : List (Expr M)) : unwrapAll es = es.map unwrap := by
  induction es with
  | nil => rfl
  | cons e es ih => rw [unwrapAll, List.map_cons, ih]

/-- Lists with one item are replaced in each of several rows. -/
theorem unwrapRows_eq_map (rows : List (List (Expr M))) :
    unwrapRows rows = rows.map (·.map unwrap) := by
  induction rows with
  | nil => rfl
  | cons row rows ih => rw [unwrapRows, List.map_cons, ih, unwrapAll_eq_map]

/-- A tree up to positions and up to lists with one item, which stand for the item. -/
def plain (e : Expr M) : Expr M := e.bare.unwrap

/-- The plain trees of several. -/
theorem unwrapAll_bareAll (es : List (Expr M)) : unwrapAll (bareAll es) = es.map plain := by
  rw [unwrapAll_eq_map, bareAll_eq_map, List.map_map]
  rfl

/-- The plain trees of several rows. -/
theorem unwrapRows_bareRows (rows : List (List (Expr M))) :
    unwrapRows (bareRows rows) = rows.map (·.map plain) := by
  rw [unwrapRows_eq_map, bareRows_eq_map, List.map_map]
  refine List.map_congr_left fun row _ => ?_
  rw [Function.comp_apply, List.map_map]
  rfl

/-- Items in parentheses, as they are read and as they are grouped, are the same. -/
theorem unwrap_parenthesised (items : List (Expr M)) :
    (parenthesised items).unwrap = grouped {} (items.map unwrap) := by
  unfold parenthesised
  split
  · rfl
  · rfl
  · rw [unwrap, unwrapAll_eq_map]

end Expr

/-- The words of a text, of which the first is on a new line or not. -/
def Written (n : Bool) (text : Text) (ws : List Word) : Prop :=
  ∃ cs, text = Text.ofChars cs ∧ Spans n cs ws false ∧ ∃ w vs, ws = w :: vs ∧ w.newline = n

/-- Texts with a separator and a blank between them are a row. -/
theorem exists_row {α β : Type} {f : α → Text} {Q : α → List Word → β → Prop} {c : Char}
    (hc : isPunctuation c = true) (hbreaks : Breaks [c]) {items : List α} (hne : items ≠ [])
    (h : ∀ x ∈ items, ∀ n, ∃ ws b, Written n (f x) ws ∧ Q x ws b) (n : Bool) :
    ∃ ws, ∃ pieces : List (List Word × β),
      Written n (Text.join (Text.ofChars [c, ' ']) (items.map f)) ws ∧
        Row (Text.ofChars [c]) (pieces.map (·.1)) ws ∧
        List.Forall₂ (fun x p => Q x p.1 p.2) items pieces := by
  induction items generalizing n with
  | nil => exact absurd rfl hne
  | cons x items ih =>
    obtain ⟨hx, hitems⟩ := List.forall_mem_cons.mp h
    obtain ⟨ws, b, hwritten, hb⟩ := hx n
    cases items with
    | nil => exact ⟨ws, [(ws, b)], hwritten, .single ws, .cons hb .nil⟩
    | cons y items =>
      obtain ⟨vs, pieces, hrest, hrow, hpieces⟩ := ih (List.cons_ne_nil y items) hitems false
      obtain ⟨cs, htext, hspans, w, us, rfl, hw⟩ := hwritten
      obtain ⟨ds, hrestText, hrestSpans, v, vs, rfl, hv⟩ := hrest
      refine ⟨_, (w :: us, b) :: pieces, ⟨cs ++ c :: ' ' :: ds, ?_,
        hspans.append hbreaks (.punct hc (.blank hrestSpans)), w, _, rfl, hw⟩, ?_, .cons hb hpieces⟩
      · rw [List.map_cons, Text.join_cons _ _ (by simp), hrestText, htext,
          ← Text.ofChars_append, ← Text.ofChars_append, List.append_assoc]
        rfl
      · exact .cons ⟨rfl, rfl⟩ rfl hv hrow

/-- Texts with a separator and a blank between them are a row, or there are none. -/
theorem exists_list {α β : Type} {f : α → Text} {Q : α → List Word → β → Prop} {c : Char}
    (hc : isPunctuation c = true) (hbreaks : Breaks [c]) {items : List α}
    (h : ∀ x ∈ items, ∀ n, ∃ ws b, Written n (f x) ws ∧ Q x ws b) :
    ∃ cs ws, ∃ pieces : List (List Word × β),
      Text.join (Text.ofChars [c, ' ']) (items.map f) = Text.ofChars cs ∧ Spans false cs ws false ∧
        (pieces = [] ∧ ws = [] ∨ Row (Text.ofChars [c]) (pieces.map (·.1)) ws) ∧
        List.Forall₂ (fun x p => Q x p.1 p.2) items pieces := by
  cases items with
  | nil => exact ⟨[], [], [], rfl, .nil, .inl ⟨rfl, rfl⟩, .nil⟩
  | cons x items =>
    obtain ⟨ws, pieces, ⟨cs, htext, hspans, _⟩, hrow, hpieces⟩ :=
      exists_row hc hbreaks (List.cons_ne_nil x items) h false
    exact ⟨cs, ws, pieces, htext, hspans, .inr hrow, hpieces⟩

/-- Texts of rows with a newline between them are the rows of a matrix. -/
theorem exists_rows {α β : Type} {f : α → Text} {Q : α → List (List Word × β) → Prop}
    {items : List α} (hne : items ≠ [])
    (h : ∀ x ∈ items, ∀ n, ∃ ws, ∃ cells : List (List Word × β), Written n (f x) ws ∧
      Row "," (cells.map (·.1)) ws ∧ Q x cells) (n : Bool) :
    ∃ ws, ∃ rows : List (List (List Word × β)), Written n (Text.join "\n" (items.map f)) ws ∧
      Rows (rows.map (·.map (·.1))) ws ∧ List.Forall₂ Q items rows := by
  induction items generalizing n with
  | nil => exact absurd rfl hne
  | cons x items ih =>
    obtain ⟨hx, hitems⟩ := List.forall_mem_cons.mp h
    obtain ⟨ws, cells, hwritten, hrow, hcells⟩ := hx n
    cases items with
    | nil => exact ⟨ws, [cells], hwritten, .single hrow, .cons hcells .nil⟩
    | cons y items =>
      obtain ⟨vs, rows, hrest, hrows, hall⟩ := ih (List.cons_ne_nil y items) hitems true
      obtain ⟨cs, htext, hspans, w, us, rfl, hw⟩ := hwritten
      obtain ⟨ds, hrestText, hrestSpans, v, vs, rfl, hv⟩ := hrest
      have hbreaks : Breaks ('\n' :: ds) := by
        rintro c ⟨⟩
        decide
      refine ⟨_, cells :: rows, ⟨cs ++ '\n' :: ds, ?_,
        hspans.append hbreaks (.newline hrestSpans), w, _, rfl, hw⟩, .cons hrow hv hrows,
        .cons hcells hall⟩
      rw [List.map_cons, Text.join_cons _ _ (by simp), hrestText, htext,
        Text.ofString_eq_ofChars, ← Text.ofChars_append, ← Text.ofChars_append, List.append_assoc]
      rfl

variable [Numeric M]

/-- A text has the words of a phrase that stands for the expression, up to positions and lists
with one item. -/
def Spelled (category : Category) (n : Bool) (text : Text) (e : Expr M) : Prop :=
  ∃ ws tree, Written n text ws ∧ Phrase category ws tree ∧ tree.unwrap = e.plain

/-- What phrases of one category are and their words may be taken for phrases of another. -/
theorem Spelled.mono {category other : Category} {n : Bool} {text : Text} {e : Expr M}
    (h : Spelled category n text e)
    (hphrase : ∀ {ws : List Word} {tree : Expr M}, Phrase category ws tree → Phrase other ws tree) :
    Spelled other n text e := by
  obtain ⟨ws, tree, hwritten, hp, hsame⟩ := h
  exact ⟨ws, tree, hwritten, hphrase hp, hsame⟩

/-- Phrases that stand for the items of a list. -/
theorem forall₂_phrases {items : List (Expr M)} {pieces : List (List Word × Expr M)}
    (h : List.Forall₂ (fun x p => Phrase .whole p.1 p.2 ∧ p.2.unwrap = x.plain) items pieces) :
    (∀ p ∈ pieces, Phrase .whole p.1 p.2) ∧
      (pieces.map (·.2)).map Expr.unwrap = items.map Expr.plain := by
  induction h with
  | nil => exact ⟨List.forall_mem_nil _, rfl⟩
  | cons hp _ ih =>
    refine ⟨List.forall_mem_cons.mpr ⟨hp.1, ih.1⟩, ?_⟩
    rw [List.map_cons, List.map_cons, List.map_cons, hp.2, ih.2]

namespace Expr

attribute [local simp] source sources sourceRows

/-- The texts of several expressions. -/
theorem sources_eq_map (es : List (Expr M)) : sources es = es.map source := by
  induction es with
  | nil => rfl
  | cons e es ih => rw [sources, List.map_cons, ih]

/-- The texts of several rows. -/
theorem sourceRows_eq_map (rows : List (List (Expr M))) :
    sourceRows rows = rows.map fun row => Text.join ", " (row.map source) := by
  induction rows with
  | nil => rfl
  | cons row rows ih => rw [sourceRows, List.map_cons, ih, sources_eq_map]

variable {items : List (Expr M)}

/-- No word goes on with a comma, a semicolon or a closing bracket. -/
theorem breaks_cons {c : Char} (hc : c ∈ [',', ';', ')', ']', ' ']) (ds : List Char) :
    Breaks (c :: ds) := by
  rintro d ⟨⟩
  fin_cases hc <;> decide

/-- No operator goes on with an opening bracket. -/
theorem unsigned_cons {c : Char} (hc : c ∈ ['(', '[']) (ds : List Char) : Unsigned (c :: ds) := by
  rintro d ⟨⟩ hop
  fin_cases hc <;> exact absurd hop (by decide)

end Expr

/-- What printing relies on of numbers: one equals itself and not zero, and a number that was
read from a numeral and is printed as a plain one is read back from that. -/
structure Numeric.ReadsBack (M : Type) [Numeric M] : Prop where
  /-- One equals itself. -/
  one_eq : ((1 : M) == 1) = true
  /-- One is not zero. -/
  one_ne_zero : Magnitude.isZero (1 : M) = false
  /-- Plain numbers are read back. -/
  read_text : ∀ {t : Text} {m : M}, IsNumeral t → Numeric.read? t = some m →
    IsNumeral (Constant.scalar (.number m) : Constant M).text →
    Numeric.read? (Constant.scalar (.number m) : Constant M).text = some m

namespace Constant

/-- Whether a constant is a number: a single real term without variables. -/
def isNumber : Constant M → Bool
  | .scalar (.poly (.term ⟨_, false, []⟩)) => true
  | _ => false

/-- The imaginary unit is printed as its letter. -/
theorem text_imaginaryUnit (hone : ((1 : M) == 1) = true)
    (hzero : Magnitude.isZero (1 : M) = false) :
    (Constant.scalar (.poly (.term .imaginaryUnit)) : Constant M).text = "i" := by
  change Term.assemble Numeric.write (1 : M) true [] = "i"
  rw [Term.assemble, hzero, hone]
  rfl

/-- A literal variable is printed as its name. -/
theorem text_named (hone : ((1 : M) == 1) = true) (hzero : Magnitude.isZero (1 : M) = false)
    (name : Text) : (Constant.scalar (.poly (.term (.named name))) : Constant M).text = name := by
  have hexponent : (Poly.term Term.one : Poly M).equal (.term .one) = true := by
    simp [Poly.equal, Term.equal, Power.equalAll, Term.one, Term.number, hone]
  have hpower (written : Text) : Power.assemble name (.term .one : Poly M) written = name :=
    if_pos hexponent
  change Term.assemble Numeric.write (1 : M) false
    [Power.assemble name (.term .one) (Poly.render Numeric.write (.term .one : Poly M))] = name
  rw [Term.assemble, hzero, hone, hpower]
  exact (Text.nil_append _).trans (Text.nil_append _)

end Constant

namespace Expr

/-- Whether an expression is a condition, a function or a return statement. -/
def isBlock : Expr M → Bool
  | ifThen _ _ _ | ifElse _ _ _ _ | lambda _ _ _ _ | ret _ _ => true
  | _ => false

/-- A text where an operand is wanted. It is a primary unless the expression is a condition, a
function or a return statement, and no operator before it goes on with it. -/
def Operand (n : Bool) (text : Text) (e : Expr M) : Prop :=
  Unsigned text.chars ∧ (Spelled .primary n text e ∨
    e.isBlock = true ∧ (Spelled .block n text e ∨ ∃ closed, Spelled (.tail closed) n text e))

/-- No word goes on at the end of the text. -/
theorem breaks_nil : Breaks [] := fun _ h => nomatch h

/-- A name on its own is written. -/
theorem written_name {name : Text} (h : IsName name) (n : Bool) :
    Written n name [⟨.identifier, name, n⟩] := by
  have hspans := Spans.name (n := n) h breaks_nil .nil
  rw [List.append_nil] at hspans
  refine ⟨name.chars, ?_, hspans, _, _, rfl, rfl⟩
  obtain ⟨c, cs, rfl, _⟩ := h
  rw [Text.chars_ofChars]

/-- No operator goes on with a name. -/
theorem unsigned_name {name : Text} (h : IsName name) (ds : List Char) :
    Unsigned (name.chars ++ ds) := by
  obtain ⟨c, cs, rfl, hc, _⟩ := h
  rw [Text.chars_ofChars]
  rintro d ⟨⟩ hop
  rw [(startsWord_of_isNameStart hc).2.2.1] at hop
  cases hop

/-- A name behind a backquote is a literal. -/
theorem quoted_operand {name : Text} (h : IsName name) (n : Bool) (pos : Position) :
    Operand n ("`" ++ name) (literal pos (.quoted name) : Expr M) := by
  obtain ⟨cs, htext, hspans, -⟩ := written_name h false
  have hwritten : Text.ofString "`" ++ name = Text.ofChars (backquote :: cs) := by
    rw [htext, Text.ofString_eq_ofChars, ← Text.ofChars_append]
    rfl
  refine ⟨?_, .inl ⟨_, _, ⟨backquote :: cs, hwritten, .quote hspans, _, _, rfl, rfl⟩,
    .quoted ⟨rfl, rfl⟩ rfl, rfl⟩⟩
  rw [hwritten, Text.chars_ofChars]
  rintro c ⟨⟩ -
  rfl

/-- The word of a Boolean is a literal. -/
theorem boolean_operand {cs : List Char} (b : Bool)
    (hcs : (if b then "true" else "false" : Text) = Text.ofChars cs)
    (hreserved : isReserved (Text.ofChars cs) = true) (hstart : Unsigned cs) (n : Bool)
    (pos : Position) : Operand n (Text.ofChars cs) (literal pos (.boolean b) : Expr M) := by
  have hspans := Spans.keyword (n := n) cs hreserved breaks_nil .nil
  rw [List.append_nil] at hspans
  refine ⟨?_, .inl ⟨_, _, ⟨cs, rfl, hspans, _, _, rfl, rfl⟩, .boolean b ⟨rfl, hcs.symm⟩, rfl⟩⟩
  rw [Text.chars_ofChars]
  exact hstart

/-- A literal is written as an operand. -/
theorem literal_operand (hback : Numeric.ReadsBack M) {c : Constant M} (hc : c.Written)
    (hplain : c.isNumber = true → IsNumeral c.text) (n : Bool) (pos : Position) :
    Operand n (source (literal pos c)) (literal pos c) := by
  cases hc with
  | @number m t numeral value =>
    have hnumeral := hplain rfl
    obtain ⟨d, ds, htext, hd, _⟩ := hnumeral.exists_chars
    change Operand n (Constant.scalar (.number m) : Constant M).text _
    have hread := hback.read_text numeral value hnumeral
    have hspans := Spans.numeral (n := n) hnumeral breaks_nil .nil
    rw [List.append_nil] at hspans
    refine ⟨?_, .inl ⟨_, _, ⟨_, ?_, hspans, _, _, rfl, rfl⟩, .number rfl hread, rfl⟩⟩
    · rw [htext, Text.chars_ofChars]
      rintro c ⟨⟩ hop
      rw [(startsWord_of_isOperatorChar hop).2] at hd
      cases hd
    · rw [htext, Text.chars_ofChars]
  | boolean b =>
    cases b with
    | true => exact boolean_operand true rfl (by decide) (by rintro c ⟨⟩; decide) n pos
    | false => exact boolean_operand false rfl (by decide) (by rintro c ⟨⟩; decide) n pos
  | imaginaryUnit =>
    have htext : source (literal pos (.scalar (.poly (.term .imaginaryUnit))) : Expr M) =
        "`" ++ Text.ofString "i" := by
      rw [← Constant.text_imaginaryUnit hback.one_eq hback.one_ne_zero]
      rfl
    have hname : IsName (Text.ofString "i") := ⟨'i', [], rfl, by decide, nofun, by decide⟩
    have hquoted : (.quoted "i" : Constant M) = .scalar (.poly (.term .imaginaryUnit)) := if_pos rfl
    rw [htext, ← hquoted]
    exact quoted_operand hname n pos
  | @named name isName notUnit =>
    have htext : source (literal pos (.scalar (.poly (.term (.named name)))) : Expr M) =
        "`" ++ name := by
      nth_rewrite 2 [← Constant.text_named hback.one_eq hback.one_ne_zero name]
      rfl
    have hquoted : (.quoted name : Constant M) = .scalar (.poly (.term (.named name))) :=
      if_neg notUnit
    rw [htext, ← hquoted]
    exact quoted_operand isName n pos

/-- A name is written as an operand. -/
theorem reference_operand {ref : Ref} (h : IsName ref.name) (n : Bool) :
    Operand n ref.name (reference ref : Expr M) := by
  refine ⟨?_, .inl ⟨_, _, written_name h n, .reference rfl, rfl⟩⟩
  have hstart := unsigned_name h []
  rw [List.append_nil] at hstart
  exact hstart

variable {items : List (Expr M)}

/-- Items in parentheses are written as a primary. -/
theorem written_parentheses (hne : items ≠ [])
    (h : ∀ x ∈ items, ∀ n, Spelled .whole n x.source x) (n : Bool) :
    ∃ cs ws tree, "(" ++ Text.join ", " (items.map source) ++ ")" = Text.ofChars cs ∧
      Written n (Text.ofChars cs) ws ∧ Unsigned cs ∧ Phrase .primary ws tree ∧
      tree.unwrap = grouped {} (items.map plain) := by
  obtain ⟨ws, pieces, ⟨cs, htext, hspans, _⟩, hrow, hall⟩ :=
    exists_row (c := ',') rfl (breaks_cons (by decide) []) hne h false
  obtain ⟨hphrases, hsame⟩ := forall₂_phrases hall
  have hpieces : pieces ≠ [] := by
    rintro rfl
    cases hrow
  have hphrase := Phrase.parentheses (o := ⟨.punctuation, Text.ofChars ['('], n⟩)
    (c := ⟨.punctuation, Text.ofChars [')'], false⟩) ⟨rfl, rfl⟩ ⟨rfl, rfl⟩ hpieces hrow.separated
    fun p hp => .member (hphrases p hp)
  refine ⟨'(' :: (cs ++ [')']), _, _, ?_, ⟨_, rfl, .punct rfl
    (hspans.append (breaks_cons (by decide) []) (.punct rfl .nil)), _, _, rfl, rfl⟩,
    unsigned_cons (by decide) _, hphrase, ?_⟩
  · change "(" ++ Text.join (Text.ofChars [',', ' ']) (items.map source) ++ ")" = _
    rw [htext, Text.ofString_eq_ofChars, Text.ofString_eq_ofChars, ← Text.ofChars_append,
      ← Text.ofChars_append]
    rfl
  · rw [unwrap_parenthesised, hsame]

/-- A list in parentheses is written as an operand. -/
theorem tuple_operand (hne : items ≠ []) (h : ∀ x ∈ items, ∀ n, Spelled .whole n x.source x)
    (n : Bool) (pos : Position) : Operand n (source (tuple pos items)) (tuple pos items) := by
  obtain ⟨cs, ws, tree, htext, hwritten, hstart, hphrase, hsame⟩ := written_parentheses hne h n
  rw [source, sources_eq_map, htext]
  refine ⟨by rw [Text.chars_ofChars]; exact hstart, .inl ⟨ws, tree, hwritten, hphrase, ?_⟩⟩
  rw [hsame, plain, bare, unwrap, unwrapAll_bareAll]

/-- An expression in parentheses is written as an operand. -/
theorem parentheses_operand {e : Expr M} (h : ∀ n, Spelled .whole n e.source e) (n : Bool) :
    Operand n ("(" ++ e.source ++ ")") e := by
  obtain ⟨cs, ws, tree, htext, hwritten, hstart, hphrase, hsame⟩ :=
    written_parentheses (List.cons_ne_nil e []) (List.forall_mem_singleton.mpr h) n
  change Text.ofString "(" ++ e.source ++ ")" = _ at htext
  rw [htext]
  exact ⟨by rw [Text.chars_ofChars]; exact hstart, .inl ⟨ws, tree, hwritten, hphrase, hsame⟩⟩

/-- A call is written as an operand. -/
theorem call_operand {name : Text} (hname : IsName name)
    (h : ∀ x ∈ items, ∀ n, Spelled .whole n x.source x) (n : Bool) (pos : Position) :
    Operand n (source (call pos name items)) (call pos name items) := by
  obtain ⟨cs, ws, pieces, htext, hspans, hlist, hall⟩ :=
    exists_list (c := ',') rfl (breaks_cons (by decide) []) h
  obtain ⟨hphrases, hsame⟩ := forall₂_phrases hall
  have hseparated : Separated "," (pieces.map (·.1)) ws := by
    rcases hlist with ⟨rfl, rfl⟩ | hrow
    · exact .nil
    · exact hrow.separated
  have hbreaks : Breaks ('(' :: (cs ++ [')'])) := by
    rintro d ⟨⟩
    decide
  have hphrase := Phrase.call (w := ⟨.identifier, name, n⟩)
    (o := ⟨.punctuation, Text.ofChars ['('], false⟩)
    (c := ⟨.punctuation, Text.ofChars [')'], false⟩) rfl ⟨rfl, rfl⟩ rfl ⟨rfl, rfl⟩ hseparated
    fun p hp => .member (hphrases p hp)
  have hwritten : source (call pos name items) =
      Text.ofChars (name.chars ++ '(' :: (cs ++ [')'])) := by
    obtain ⟨c, ds, rfl, _⟩ := hname
    rw [source, sources_eq_map]
    change Text.ofChars (c :: ds) ++ "(" ++ Text.join (Text.ofChars [',', ' ']) _ ++ ")" = _
    rw [htext, Text.ofString_eq_ofChars, Text.ofString_eq_ofChars, ← Text.ofChars_append,
      ← Text.ofChars_append, ← Text.ofChars_append, Text.chars_ofChars, List.append_assoc,
      List.append_assoc]
    rfl
  rw [hwritten]
  refine ⟨?_, .inl ⟨_, _, ⟨_, rfl, .name hname hbreaks (.punct rfl
    (hspans.append (breaks_cons (by decide) []) (.punct rfl .nil))), _, _, rfl, rfl⟩, hphrase, ?_⟩⟩
  · rw [Text.chars_ofChars]
    exact unsigned_name hname _
  · rw [unwrap, unwrapAll_eq_map, hsame, plain, bare, unwrap, unwrapAll_bareAll]

/-- Rows of phrases that stand for the rows of a matrix. -/
theorem forall₂_rows {rows : List (List (Expr M))} {lines : List (List (List Word × Expr M))}
    (h : List.Forall₂ (fun row line => (∀ p ∈ line, Phrase .whole p.1 p.2) ∧
      (line.map (·.2)).map unwrap = row.map plain) rows lines) :
    (∀ line ∈ lines, ∀ p ∈ line, Phrase .whole p.1 p.2) ∧
      (lines.map (·.map (·.2))).map (·.map unwrap) = rows.map (·.map plain) := by
  induction h with
  | nil => exact ⟨List.forall_mem_nil _, rfl⟩
  | cons hp _ ih =>
    refine ⟨List.forall_mem_cons.mpr ⟨hp.1, ih.1⟩, ?_⟩
    rw [List.map_cons, List.map_cons, List.map_cons, hp.2, ih.2]

/-- A matrix is written as an operand. -/
theorem matrix_operand {rows : List (List (Expr M))} (hne : rows ≠ []) {width : Nat}
    (hwidth : 0 < width) (hfull : ∀ row ∈ rows, row.length = width)
    (h : ∀ row ∈ rows, ∀ x ∈ row, ∀ n, Spelled .whole n x.source x) (n : Bool) (pos : Position) :
    Operand n (source (matrix pos rows)) (matrix pos rows) := by
  have hrow : ∀ row ∈ rows, ∀ n, ∃ ws, ∃ cells : List (List Word × Expr M),
      Written n (Text.join ", " (row.map source)) ws ∧ Row "," (cells.map (·.1)) ws ∧
        (∀ p ∈ cells, Phrase .whole p.1 p.2) ∧ (cells.map (·.2)).map unwrap = row.map plain := by
    intro row hmem n
    have hrow : row ≠ [] := by
      rintro rfl
      exact absurd (hfull [] hmem) (Nat.ne_of_lt hwidth)
    obtain ⟨ws, cells, hwritten, hcells, hall⟩ :=
      exists_row (c := ',') rfl (breaks_cons (by decide) []) hrow (h row hmem) n
    exact ⟨ws, cells, hwritten, hcells, forall₂_phrases hall⟩
  obtain ⟨ws, lines, ⟨cs, htext, hspans, _⟩, hlines, hall⟩ := exists_rows hne hrow false
  obtain ⟨hphrases, hsame⟩ := forall₂_rows hall
  have hlength : ∀ line ∈ lines, line.length = width := by
    have hlengths := congrArg (List.map List.length) hsame
    simp only [List.map_map, Function.comp_def, List.length_map] at hlengths
    intro line hline
    have hmem : line.length ∈ rows.map fun row => row.length :=
      hlengths ▸ List.mem_map_of_mem hline
    obtain ⟨row, hrow, heq⟩ := List.mem_map.mp hmem
    rw [← heq, hfull row hrow]
  have hphrase := Phrase.matrix (o := ⟨.punctuation, Text.ofChars ['['], n⟩)
    (c := ⟨.punctuation, Text.ofChars [']'], false⟩) ⟨rfl, rfl⟩ ⟨rfl, rfl⟩ hlines
    ⟨width, hlength⟩ hphrases
  have hwritten : source (matrix pos rows) = Text.ofChars ('[' :: (cs ++ [']'])) := by
    rw [source, sourceRows_eq_map, htext, Text.ofString_eq_ofChars, Text.ofString_eq_ofChars,
      ← Text.ofChars_append, ← Text.ofChars_append]
    rfl
  rw [hwritten]
  refine ⟨?_, .inl ⟨_, _, ⟨_, rfl, .punct rfl
    (hspans.append (breaks_cons (by decide) []) (.punct rfl .nil)), _, _, rfl, rfl⟩, hphrase, ?_⟩⟩
  · rw [Text.chars_ofChars]
    exact unsigned_cons (by decide) _
  · rw [unwrap, unwrapRows_eq_map, hsame, plain, bare, unwrap, unwrapRows_bareRows]

variable {test yes no value : Expr M}

/-- A condition with one branch is written as a block. -/
theorem ifThen_spelled (htest : ∀ n, Spelled .whole n test.source test)
    (hyes : ∀ n, Spelled .whole n yes.source yes) (n : Bool) (pos : Position) :
    Spelled .block n (source (ifThen pos test yes)) (ifThen pos test yes) := by
  obtain ⟨ws, tree, ⟨cs, htext, hspans, _⟩, hphrase, hsame⟩ := htest false
  obtain ⟨vs, tree', ⟨ds, htext', hspans', _⟩, hphrase', hsame'⟩ := hyes false
  have hblank (ds : List Char) : Breaks (' ' :: ds) := breaks_cons (by decide) ds
  have hend := Spans.keyword (n := false) ['e', 'n', 'd'] (by decide) breaks_nil .nil
  have hbranch := hspans'.append (hblank _) hend.blank
  have hthen := Spans.keyword (n := false) ['t', 'h', 'e', 'n'] (by decide) (hblank _) hbranch.blank
  have hcondition := hspans.append (hblank _) hthen.blank
  have hif := Spans.keyword (n := n) ['i', 'f'] (by decide) (hblank _) hcondition.blank
  refine ⟨_, _, ⟨_, ?_, hif, _, _, rfl, rfl⟩,
    .ifThen ⟨rfl, rfl⟩ hphrase ⟨rfl, rfl⟩ hphrase' ⟨rfl, rfl⟩, ?_⟩
  · rw [source, htext, htext']
    simp only [Text.ofString_eq_ofChars, ← Text.ofChars_append, List.append_assoc]
    rfl
  · rw [unwrap, hsame, hsame']
    rfl

/-- A condition with two branches is written as a block. -/
theorem ifElse_spelled (htest : ∀ n, Spelled .whole n test.source test)
    (hyes : ∀ n, Spelled .whole n yes.source yes) (hno : ∀ n, Spelled .whole n no.source no)
    (n : Bool) (pos : Position) :
    Spelled .block n (source (ifElse pos test yes no)) (ifElse pos test yes no) := by
  obtain ⟨ws, tree, ⟨cs, htext, hspans, _⟩, hphrase, hsame⟩ := htest false
  obtain ⟨vs, tree', ⟨ds, htext', hspans', _⟩, hphrase', hsame'⟩ := hyes false
  obtain ⟨us, tree'', ⟨fs, htext'', hspans'', _⟩, hphrase'', hsame''⟩ := hno false
  have hblank (ds : List Char) : Breaks (' ' :: ds) := breaks_cons (by decide) ds
  have hend := Spans.keyword (n := false) ['e', 'n', 'd'] (by decide) breaks_nil .nil
  have hlast := hspans''.append (hblank _) hend.blank
  have helse := Spans.keyword (n := false) ['e', 'l', 's', 'e'] (by decide) (hblank _) hlast.blank
  have hbranch := hspans'.append (hblank _) helse.blank
  have hthen := Spans.keyword (n := false) ['t', 'h', 'e', 'n'] (by decide) (hblank _) hbranch.blank
  have hcondition := hspans.append (hblank _) hthen.blank
  have hif := Spans.keyword (n := n) ['i', 'f'] (by decide) (hblank _) hcondition.blank
  refine ⟨_, _, ⟨_, ?_, hif, _, _, rfl, rfl⟩,
    .ifElse ⟨rfl, rfl⟩ hphrase ⟨rfl, rfl⟩ hphrase' ⟨rfl, rfl⟩ hphrase'' ⟨rfl, rfl⟩, ?_⟩
  · rw [source, htext, htext', htext'']
    simp only [Text.ofString_eq_ofChars, ← Text.ofChars_append, List.append_assoc]
    rfl
  · rw [unwrap, hsame, hsame', hsame'']
    rfl

/-- A return statement is written as one. -/
theorem ret_spelled {closed : Bool} (n : Bool) (pos : Position)
    (hvalue : Spelled (.statement closed) false value.source value) :
    Spelled (.tail closed) n (source (ret pos value)) (ret pos value) := by
  obtain ⟨ws, tree, ⟨cs, htext, hspans, _⟩, hphrase, hsame⟩ := hvalue
  refine ⟨_, _, ⟨_, ?_, .keyword ['r', 'e', 't', 'u', 'r', 'n'] (by decide)
    (breaks_cons (by decide) _) (.blank hspans), _, _, rfl, rfl⟩, .ret ⟨rfl, rfl⟩ hphrase, ?_⟩
  · rw [source, htext]
    simp only [Text.ofString_eq_ofChars, ← Text.ofChars_append]
    rfl
  · rw [unwrap, hsame]
    rfl

/-- The parameters of a function are written as a list of names. -/
theorem exists_parameters {params : List Ref} (h : ∀ p ∈ params, IsName p.name) :
    ∃ cs ws, ∃ pieces : List (List Word × Text),
      Text.join ", " (params.map (·.name)) = Text.ofChars cs ∧ Spans false cs ws false ∧
        Separated "," (pieces.map (·.1)) ws ∧
        (∀ p ∈ pieces, Phrase .member p.1 (reference ⟨{}, p.2⟩ : Expr M)) ∧
        pieces.map (·.2) = params.map (·.name) := by
  have hname : ∀ p ∈ params, ∀ n, ∃ ws name, Written n p.name ws ∧
      (Phrase .member ws (reference ⟨{}, name⟩ : Expr M) ∧ name = p.name) := by
    intro p hp n
    exact ⟨_, p.name, written_name (h p hp) n, .member (.whole (.ofPrimary (.reference rfl))), rfl⟩
  obtain ⟨cs, ws, pieces, htext, hspans, hlist, hall⟩ :=
    exists_list (c := ',') rfl (breaks_cons (by decide) []) hname
  refine ⟨cs, ws, pieces, htext, hspans, ?_, ?_⟩
  · rcases hlist with ⟨rfl, rfl⟩ | hrow
    · exact .nil
    · exact hrow.separated
  · clear htext hspans hlist h hname
    induction hall with
    | nil => exact ⟨List.forall_mem_nil _, rfl⟩
    | cons hp _ ih =>
      refine ⟨List.forall_mem_cons.mpr ⟨hp.1, ih.1⟩, ?_⟩
      rw [List.map_cons, List.map_cons, hp.2, ih.2]

/-- A function is written as a block. -/
theorem lambda_spelled {params : List Ref} {body : List (Expr M)}
    (hparams : ∀ p ∈ params, IsName p.name)
    (hbody : ∀ x ∈ body, ∀ n, Spelled .whole n x.source x) (n : Bool) (pos bodyPos : Position) :
    Spelled .block n (source (lambda pos params bodyPos body))
      (lambda pos params bodyPos body) := by
  obtain ⟨cs, ws, names, htext, hspans, hlist, hphrases, hnames⟩ :=
    exists_parameters (M := M) hparams
  obtain ⟨ds, vs, pieces, htext', hspans', hstatements, hall⟩ :=
    exists_list (c := ';') rfl (breaks_cons (by decide) []) hbody
  obtain ⟨hphrases', hsame⟩ := forall₂_phrases hall
  have hbody : Body (pieces.map (·.1)) vs := by
    rcases hstatements with ⟨rfl, rfl⟩ | hrow
    · exact .nil
    · exact hrow.body
  have hclose := Spans.punct (n := false) (c := '\x7d') rfl .nil
  have hinside := hspans'.append (breaks_cons (c := ' ') (by decide) _) hclose.blank
  have hopen := Spans.punct (n := false) (c := '\x7b') rfl hinside.blank
  have hafter := Spans.punct (n := false) (c := ')') rfl hopen.blank
  have hlisted := hspans.append (breaks_cons (c := ')') (by decide) _) hafter
  have hbefore := Spans.punct (n := false) (c := '(') rfl hlisted
  have hword := Spans.keyword (n := n) ['l', 'a', 'm', 'b', 'd', 'a'] (by decide)
    (breaks_cons (c := ' ') (by decide) _) hbefore.blank
  refine ⟨_, _, ⟨_, ?_, hword, _, _, rfl, rfl⟩, .lambda ⟨rfl, rfl⟩ ⟨rfl, rfl⟩ hlist hphrases
    ⟨rfl, rfl⟩ ⟨rfl, rfl⟩ hbody (fun p hp => .member (hphrases' p hp)) ⟨rfl, rfl⟩, ?_⟩
  · change Text.join (Text.ofChars [';', ' ']) (body.map source) = _ at htext'
    have hjoin : Text.join "; " (sources body) = Text.ofChars ds := by
      rw [sources_eq_map]
      exact htext'
    rw [source, htext, hjoin]
    simp only [Text.ofString_eq_ofChars, ← Text.ofChars_append, List.append_assoc]
    rfl
  · have hrefs : names.map (fun p => (⟨{}, p.2⟩ : Ref)) = params.map fun p => ⟨{}, p.name⟩ := by
      have hmap := congrArg (List.map fun name => (⟨{}, name⟩ : Ref)) hnames
      rw [List.map_map, List.map_map] at hmap
      exact hmap
    rw [unwrap, unwrapAll_eq_map, hsame, hrefs, plain, bare, unwrap, unwrapAll_bareAll]

/-- No operator goes on with a text whose first word is none. -/
theorem unsigned_of_written {n : Bool} {text : Text} {w : Word} {ws : List Word}
    (h : Written n text (w :: ws)) (hw : w.kind ≠ .operator) : Unsigned text.chars := by
  obtain ⟨cs, rfl, hspans, _⟩ := h
  rw [Text.chars_ofChars]
  intro c hc hop
  obtain ⟨hstart, hdigit⟩ := startsWord_of_isOperatorChar hop
  cases cs with
  | nil => cases hc
  | cons d ds =>
    cases hc
    obtain ⟨kind, taken, vs, hlex, _, heq, _⟩ := hspans.scans.exists_lexeme hstart
    obtain ⟨rfl, _⟩ := List.cons.inj heq
    refine absurd (congrArg Prod.fst hlex).symm fun hkind => hw (hkind.trans ?_)
    simp only [lexeme, hdigit, hop, if_true, if_false, Bool.false_eq_true]
    split <;> rfl

/-- A block is written as an operand. -/
theorem Operand.of_block {n : Bool} {text : Text} {e : Expr M} (h : Spelled .block n text e)
    (hblock : e.isBlock = true) : Operand n text e := by
  refine ⟨?_, .inr ⟨hblock, .inl h⟩⟩
  obtain ⟨ws, tree, hwritten, hphrase, _⟩ := h
  cases hphrase with
  | ifThen start | ifElse start | lambda start | declare start =>
    exact unsigned_of_written hwritten (by rw [start.1]; decide)

/-- A return statement is written as an operand. -/
theorem Operand.of_ret {n closed : Bool} {text : Text} {pos : Position} {value : Expr M}
    (h : Spelled (.tail closed) n text (ret pos value)) : Operand n text (ret pos value) := by
  refine ⟨?_, .inr ⟨rfl, .inr ⟨closed, h⟩⟩⟩
  obtain ⟨ws, tree, hwritten, hphrase, hsame⟩ := h
  cases hphrase with
  | ret start => exact unsigned_of_written hwritten (by rw [start.1]; decide)
  | prefixTail =>
    rw [unwrap] at hsame
    cases hsame

variable {left right : Expr M} {op : Operator}

/-- A prefix operation is written as a primary, or as a return statement behind operators. -/
theorem unary_spelled (hop : isUnaryOperator op.symbol = true)
    (hright : Operand false (operandText right right.source) right) (n : Bool) (pos : Position) :
    Spelled .primary n (source (unary pos op right)) (unary pos op right) ∨
      Spelled (.tail false) n (source (unary pos op right)) (unary pos op right) := by
  obtain ⟨hstart, hspelled⟩ := hright
  have hsymbol := isSymbol_of_isUnaryOperator hop
  have hsigned {category other : Category}
      (h : Spelled category false (operandText right right.source) right)
      (hphrase : ∀ {ws : List Word} {tree : Expr M}, Phrase category ws tree →
        Phrase other (⟨.operator, op.symbol, n⟩ :: ws) (unary {} ⟨{}, op.symbol⟩ tree)) :
      Spelled other n (source (unary pos op right)) (unary pos op right) := by
    obtain ⟨ws, tree, ⟨cs, htext, hspans, _⟩, hp, hsame⟩ := h
    rw [htext, Text.chars_ofChars] at hstart
    refine ⟨_, _, ⟨_, ?_, .symbol hsymbol hstart hspans, _, _, rfl, rfl⟩, hphrase hp, ?_⟩
    · rw [source, htext, Text.ofChars_append, hsymbol.encoded]
    · rw [unwrap, hsame]
      rfl
  rcases hspelled with h | ⟨_, h | ⟨closed, h⟩⟩
  · exact .inl (hsigned h (.prefixPrimary rfl hop))
  · exact .inl (hsigned h (.prefixBlock rfl hop))
  · cases closed with
    | true => exact .inl (hsigned h (.prefixClosed rfl hop))
    | false => exact .inr (hsigned h (.prefixTail rfl hop))

/-- An operand is a statement whose phrase is no operation. -/
theorem Operand.statement {n : Bool} {text : Text} {e : Expr M} (h : Operand n text e) :
    ∃ closed ws tree, Written n text ws ∧ Phrase (.statement closed) ws tree ∧
      tree.unwrap = e.plain ∧ ∀ pos left op right, tree ≠ binary pos left op right := by
  rcases h.2 with ⟨ws, tree, hw, hp, hs⟩ |
    ⟨_, ⟨ws, tree, hw, hp, hs⟩ | ⟨closed, ws, tree, hw, hp, hs⟩⟩
  · exact ⟨false, ws, tree, hw, .ofPrimary hp, hs, hp.ne_binary (.inl rfl)⟩
  · exact ⟨true, ws, tree, hw, .ofBlock hp, hs, hp.ne_binary (.inr (.inl rfl))⟩
  · exact ⟨closed, ws, tree, hw, .ofTail hp, hs, hp.ne_binary (.inr (.inr ⟨closed, rfl⟩))⟩

/-- A binary operation is written as a statement. -/
theorem binary_spelled (hsymbol : IsSymbol op.symbol) (hknown : (priority? op.symbol).isSome = true)
    (hminus : op.symbol ≠ "-") {n : Bool}
    (hleft : Spelled .primary n (operandText left left.source) left)
    (hright : Operand false (operandText right right.source) right) (pos : Position) :
    ∃ closed, Spelled (.statement closed) n (source (binary pos left op right))
      (binary pos left op right) := by
  obtain ⟨ws, tree, ⟨cs, htext, hspans, w, us, rfl, hw⟩, hphrase, hsame⟩ := hleft
  obtain ⟨closed, vs, tree', ⟨ds, htext', hspans', _⟩, hphrase', hsame', hne⟩ := hright.statement
  have hoperator := Spans.symbol (n := false) hsymbol
    (breaks_cons (c := ' ') (by decide) _).unsigned hspans'.blank
  have hall := hspans.append (breaks_cons (c := ' ') (by decide) _) hoperator.blank
  refine ⟨closed, _, _, ⟨_, ?_, hall, w, _, rfl, hw⟩,
    .operation hphrase ⟨rfl, rfl, hknown⟩ hphrase', ?_⟩
  · rw [source, htext, htext', ← hsymbol.encoded]
    simp only [Text.ofString_eq_ofChars, ← Text.ofChars_append, List.append_assoc,
      Text.chars_ofChars]
    rfl
  · rw [combine_of_ne_binary hminus hne, unwrap, hsame, hsame', hphrase.pos_eq]
    rfl

/-- An assignment is written as a statement. -/
theorem assign_spelled {target : Ref} (htarget : IsName target.name) {closed : Bool}
    (hright : Spelled (.statement closed) false right.source right) (n : Bool) (pos : Position) :
    Spelled (.statement closed) n (source (assign pos target right)) (assign pos target right) := by
  obtain ⟨vs, tree, ⟨cs, htext, hspans, _⟩, hphrase, hsame⟩ := hright
  have hsymbol : IsSymbol (Text.ofString "=") := by decide
  have hequals := Spans.symbol (n := false) hsymbol (breaks_cons (c := ' ') (by decide) _).unsigned
    hspans.blank
  have hname := Spans.name (n := n) htarget (breaks_cons (c := ' ') (by decide) _) hequals.blank
  have hassign := Phrase.assignment (o := ⟨.operator, Text.ofString "=", false⟩)
    (Phrase.reference (w := ⟨.identifier, target.name, n⟩) rfl) rfl rfl rfl hphrase
  refine ⟨_, _, ⟨_, ?_, hname, _, _, rfl, rfl⟩, hassign, ?_⟩
  · obtain ⟨c, ds, hds, _⟩ := htarget
    rw [source, htext, hds]
    simp only [Text.ofString_eq_ofChars, ← Text.ofChars_append, List.append_assoc,
      Text.chars_ofChars]
    rfl
  · rw [unwrap, hsame]
    rfl

/-- What must hold at a node for the text of a tree to be read back: numbers are printed plainly,
there are no declarations, and on the left of no operation stands a condition, a function or a
return statement. -/
def PrintableNode : Expr M → Prop
  | literal _ c => c.isNumber = true → IsNumeral c.text
  | binary _ left _ _ => left.isBlock = false
  | declare _ _ => False
  | _ => True

instance : DecidablePred (PrintableNode : Expr M → Prop) := fun e =>
  match e with
  | literal _ c => inferInstanceAs (Decidable (c.isNumber = true → IsNumeral c.text))
  | binary _ left _ _ => inferInstanceAs (Decidable (left.isBlock = false))
  | declare _ _ => isFalse id
  | reference _ | operator _ | unary _ _ _ | assign _ _ _ | tuple _ _ | matrix _ _ | ifThen _ _ _
  | ifElse _ _ _ _ | lambda _ _ _ _ | call _ _ _ | ret _ _ | program _ _ => isTrue trivial

/-- How an expression is written: as a statement, and as an operand. -/
structure Prints (e : Expr M) : Prop where
  /-- Its text is that of a statement. -/
  statement : ∀ n, ∃ closed, Spelled (.statement closed) n e.source e
  /-- With parentheses where they are needed, its text is that of an operand. -/
  operand : ∀ n, Operand n (operandText e e.source) e

namespace Prints

variable {e : Expr M}

/-- The text of an expression is that of a statement before something that ends it. -/
theorem whole (h : e.Prints) (n : Bool) : Spelled .whole n e.source e := by
  obtain ⟨closed, hspelled⟩ := h.statement n
  exact hspelled.mono .whole

/-- What is written as an operand without parentheses is written as a statement. -/
theorem of_operand (h : ∀ n, Operand n e.source e) (htext : operandText e e.source = e.source) :
    e.Prints := by
  refine ⟨fun n => ?_, fun n => ?_⟩
  · obtain ⟨closed, ws, tree, hwritten, hphrase, hsame, _⟩ := (h n).statement
    exact ⟨closed, ws, tree, hwritten, hphrase, hsame⟩
  · rw [htext]
    exact h n

/-- What is written as a statement is an operand in parentheses. -/
theorem of_statement (h : ∀ n, ∃ closed, Spelled (.statement closed) n e.source e)
    (htext : operandText e e.source = "(" ++ e.source ++ ")") : e.Prints := by
  have hwhole (n : Bool) : Spelled .whole n e.source e := by
    obtain ⟨closed, hspelled⟩ := h n
    exact hspelled.mono .whole
  refine ⟨h, fun n => ?_⟩
  rw [htext]
  exact parentheses_operand hwhole n

end Prints

/-- Every expression is written as it should be, if it is well formed and printable. -/
theorem source_prints (hback : Numeric.ReadsBack M) (e : Expr M) (hwell : e.WellFormed)
    (hprint : e.Everywhere PrintableNode) : e.Prints := by
  induction e using children_induction with
  | h e ih =>
    have hchild : ∀ x ∈ e.children, x.Prints := fun x hx =>
      ih x hx (hwell.inside x hx) (hprint.inside x hx)
    have hnode := hwell.here
    have hprintable := hprint.here
    cases e with
    | literal pos c =>
      exact .of_operand (fun n => literal_operand hback hnode hprintable n pos) rfl
    | reference ref => exact .of_operand (fun n => reference_operand hnode n) rfl
    | operator op => exact hnode.elim
    | declare pos words => exact hprintable.elim
    | program pos statements => exact hnode.elim
    | tuple pos items =>
      exact .of_operand (fun n => tuple_operand hnode (fun x hx => (hchild x hx).whole) n pos) rfl
    | matrix pos rows =>
      obtain ⟨hne, width, hwidth, hfull⟩ := hnode
      refine .of_operand
        (fun n => matrix_operand hne hwidth hfull (fun row hrow x hx => ?_) n pos) rfl
      exact (hchild x (List.mem_flatten.mpr ⟨row, hrow, hx⟩)).whole
    | call pos name args =>
      exact .of_operand (fun n => call_operand hnode (fun x hx => (hchild x hx).whole) n pos) rfl
    | unary pos op right =>
      have hright := hchild right List.mem_cons_self
      refine .of_statement (fun n => ?_) rfl
      rcases unary_spelled hnode (hright.operand false) n pos with h | h
      · exact ⟨false, h.mono .ofPrimary⟩
      · exact ⟨false, h.mono .ofTail⟩
    | binary pos left op right =>
      obtain ⟨hsymbol, hknown, hminus⟩ := hnode
      have hleft := hchild left List.mem_cons_self
      have hright := hchild right (List.mem_cons_of_mem _ List.mem_cons_self)
      refine .of_statement (fun n => ?_) rfl
      have hprimary := (hleft.operand n).2.resolve_right fun h => by
        rw [hprintable] at h
        cases h.1
      exact binary_spelled hsymbol hknown hminus hprimary (hright.operand false) pos
    | assign pos target right =>
      have hright := hchild right List.mem_cons_self
      refine .of_statement (fun n => ?_) rfl
      obtain ⟨closed, hvalue⟩ := hright.statement false
      exact ⟨closed, assign_spelled hnode hvalue n pos⟩
    | ifThen pos test yes =>
      obtain ⟨htest, hyes⟩ := List.forall_mem_cons.mp hchild
      have hyes := List.forall_mem_singleton.mp hyes
      refine .of_operand (fun n => .of_block (ifThen_spelled htest.whole hyes.whole n pos) rfl) rfl
    | ifElse pos test yes no =>
      obtain ⟨htest, hbranches⟩ := List.forall_mem_cons.mp hchild
      obtain ⟨hyes, hno⟩ := List.forall_mem_cons.mp hbranches
      have hno := List.forall_mem_singleton.mp hno
      refine .of_operand (fun n => .of_block
        (ifElse_spelled htest.whole hyes.whole hno.whole n pos) rfl) rfl
    | lambda pos params bodyPos body =>
      refine .of_operand (fun n => .of_block
        (lambda_spelled hnode (fun x hx => (hchild x hx).whole) n pos bodyPos) rfl) rfl
    | ret pos value =>
      refine .of_operand (fun n => ?_) rfl
      obtain ⟨closed, hvalue⟩ := (hchild value List.mem_cons_self).statement false
      exact .of_ret (ret_spelled n pos hvalue)

end Expr

end SymCalc
