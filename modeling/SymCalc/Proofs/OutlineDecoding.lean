import Mathlib
import SymCalc.Proofs.PlainNumbers
import SymCalc.Proofs.TextCodes
import SymCalc.Proofs.WellFormedPrograms

/-!
# Outlines tell trees apart

An outline is read again from left to right: its first characters tell the kind of the node, names
and operators end at a blank or a bracket, and lists end where neither a separator nor an outline
can follow. Main statement: two statements that were read have the same outline exactly if they are
the same up to positions.
-/

namespace SymCalc

open Text

/-- A name holds name characters only. -/
theorem IsName.madeOf {name : Text} (h : IsName name) : MadeOf isNamePart name := by
  obtain ⟨c, cs, rfl, hc, hcs, -⟩ := h
  have hstart : isNamePart c = true := by
    rw [isNamePart, ← isNameStart, hc, Bool.true_or]
  exact ⟨c :: cs, rfl, List.forall_mem_cons.mpr ⟨hstart, hcs⟩⟩

/-- An operator holds operator characters only. -/
theorem IsSymbol.madeOf {symbol : Text} (h : IsSymbol symbol) : MadeOf isOperatorChar symbol :=
  ⟨symbol.chars, h.encoded.symm, fun c hc => (Bool.and_eq_true_iff.mp (h.chars c hc)).1⟩

variable {M : Type} [Numeric M]

/-- The word that outlines have for a kind of constant. -/
def ValueKind.word (kind : ValueKind) : Text := Text.ofString (kind.name.map Char.toLower)

/-- The characters of the word for a kind. -/
theorem ValueKind.word_eq (kind : ValueKind) :
    kind.word = Text.ofChars (kind.name.toList.map Char.toLower) := by
  rw [word, Text.ofString_eq_ofChars, String.toList_map]

/-- The word for a kind holds no blank. -/
theorem ValueKind.word_madeOf (kind : ValueKind) : MadeOf (fun c => c ≠ ' ') kind.word :=
  ⟨_, kind.word_eq, List.all_eq_true.mp (by cases kind <;> decide)⟩

/-- Kinds have words of their own. -/
theorem ValueKind.word_inj {kind kind' : ValueKind} (h : kind.word = kind'.word) :
    kind = kind' := by
  rw [word_eq, word_eq, Text.ofChars_inj] at h
  revert h
  cases kind <;> cases kind' <;> decide

namespace Constant

variable {c c' : Constant M}

/-- Behind a backquote stands a name, which is the text of the constant. -/
theorem text_quoted (hform : Numeric.WritesDigits M) (name : Text) :
    (.quoted name : Constant M).text = name := by
  unfold quoted
  split
  · rename_i hunit
    rw [text_imaginaryUnit hform.one_eq hform.one_ne_zero, hunit]
  · exact text_named hform.one_eq hform.one_ne_zero name

/-- A constant in a program is a Boolean, a number or a name behind a backquote. -/
theorem Written.form (h : c.Written) :
    (∃ b, c = .boolean b) ∨
      (∃ t m, IsNumeral t ∧ Numeric.read? t = some m ∧ c = .scalar (.number m)) ∨
      ∃ name, IsName name ∧ c = .quoted name ∧ c.value.kind = .term := by
  cases h with
  | boolean b => exact .inl ⟨b, rfl⟩
  | number numeral value => exact .inr (.inl ⟨_, _, numeral, value, rfl⟩)
  | imaginaryUnit =>
    exact .inr (.inr ⟨"i", ⟨'i', [], rfl, by decide, by simp, by decide⟩, rfl, rfl⟩)
  | @named name isName notUnit => exact .inr (.inr ⟨name, isName, (if_neg notUnit).symm, rfl⟩)

/-- The text of a Boolean tells which one it is. -/
theorem text_boolean_inj {b b' : Bool}
    (h : (.boolean b : Constant M).text = (.boolean b' : Constant M).text) : b = b' := by
  have htrue : (.boolean true : Constant M).text = Text.ofString "true" := rfl
  have hfalse : (.boolean false : Constant M).text = Text.ofString "false" := rfl
  have hne : Text.ofString "true" ≠ Text.ofString "false" := by decide
  cases b <;> cases b'
  · rfl
  · rw [htrue, hfalse] at h
    exact absurd h.symm hne
  · rw [htrue, hfalse] at h
    exact absurd h hne
  · rfl

/-- The printed constant does not hold the bracket that ends an outline. -/
theorem Written.text_madeOf (hform : Numeric.WritesDigits M) (h : c.Written) :
    MadeOf (fun c => c ≠ '>') c.text := by
  rcases h.form with ⟨b, rfl⟩ | ⟨t, m, numeral, value, rfl⟩ | ⟨name, isName, rfl, -⟩
  · cases b with
    | false => exact ⟨"false".toList, rfl, List.all_eq_true.mp (by decide)⟩
    | true => exact ⟨"true".toList, rfl, List.all_eq_true.mp (by decide)⟩
  · obtain ⟨d, ds, htext, hd, hds⟩ := hform.exists_chars numeral value
    refine ⟨d :: ds, htext, fun c hc => decide_eq_true ?_⟩
    rintro rfl
    rcases List.mem_cons.mp hc with rfl | hmem
    · cases hd
    · exact hds hmem
  · rw [text_quoted hform]
    obtain ⟨cs, htext, hcs⟩ := isName.madeOf
    refine ⟨cs, htext, fun c hc => decide_eq_true ?_⟩
    rintro rfl
    cases hcs _ hc

/-- A number is not printed as a name. -/
theorem text_ne_name (hform : Numeric.WritesDigits M) {t name : Text} {m : M}
    (numeral : IsNumeral t) (value : Numeric.read? t = some m) (isName : IsName name) :
    numberText m ≠ name := by
  obtain ⟨d, ds, htext, hd, -⟩ := hform.exists_chars numeral value
  obtain ⟨c, cs, hname, hc, -, -⟩ := isName
  intro h
  rw [htext, hname, Text.ofChars_inj] at h
  obtain ⟨rfl, -⟩ := List.cons.inj h
  rw [(startsWord_of_isNameStart hc).2.1] at hd
  cases hd

/-- The magnitude of a constant that is a number. -/
def number? : Constant M → Option M
  | .scalar (.poly (.term ⟨m, false, []⟩)) => some m
  | _ => none

/-- A constant in a program is known from its kind and its text, if numbers are. -/
theorem Written.eq_of_text_eq (hform : Numeric.WritesDigits M) {numbers : Set M}
    (hnumbers : Set.InjOn numberText numbers) (hc : c.Written) (hc' : c'.Written)
    (hin : ∀ m ∈ c.number?, m ∈ numbers) (hin' : ∀ m ∈ c'.number?, m ∈ numbers)
    (hkind : c.value.kind = c'.value.kind) (htext : c.text = c'.text) : c = c' := by
  rcases hc.form with ⟨b, rfl⟩ | ⟨t, m, numeral, value, rfl⟩ | ⟨name, isName, rfl, hterm⟩ <;>
    rcases hc'.form with ⟨b', rfl⟩ | ⟨t', m', numeral', value', rfl⟩ | ⟨name', isName', rfl, hterm'⟩
  · rw [text_boolean_inj htext]
  · cases hkind
  · cases hkind.trans hterm'
  · cases hkind
  · rw [hnumbers (hin m rfl) (hin' m' rfl) htext]
  · rw [text_quoted hform] at htext
    exact absurd htext (text_ne_name hform numeral value isName')
  · cases hkind.symm.trans hterm
  · rw [text_quoted hform] at htext
    exact absurd htext.symm (text_ne_name hform numeral' value' isName)
  · rw [text_quoted hform, text_quoted hform] at htext
    rw [htext]

end Constant

namespace Expr

/-- The kinds of nodes that an outline tells apart by its first characters. -/
inductive Mark where
  | literal | reference | unary | binary | assign | tuple | matrix | condition | lambda | call | ret
  | other

/-- The kind of node that the first characters of an outline tell. -/
def Mark.ofChars : List Char → Mark
  | '<' :: 't' :: 'u' :: _ => .tuple
  | '<' :: 't' :: _ | '<' :: 'b' :: _ => .literal
  | '<' :: 'v' :: _ => .reference
  | '<' :: 'm' :: _ => .matrix
  | '<' :: ':' :: _ => .condition
  | '<' :: 'l' :: _ => .lambda
  | '<' :: 'c' :: _ => .call
  | ':' :: _ => .ret
  | '(' :: c :: _ =>
    if c = '-' ∨ c = '~' ∨ c = '!' then .unary
    else if c = '<' ∨ c = '(' ∨ c = ':' then .binary
    else .assign
  | _ => .other

/-- The kind of a node. -/
def mark : Expr M → Mark
  | literal _ _ => .literal
  | reference _ => .reference
  | unary _ _ _ => .unary
  | binary _ _ _ _ => .binary
  | assign _ _ _ => .assign
  | tuple _ _ => .tuple
  | matrix _ _ => .matrix
  | ifThen _ _ _ | ifElse _ _ _ _ => .condition
  | lambda _ _ _ _ => .lambda
  | call _ _ _ => .call
  | ret _ _ => .ret
  | operator _ | declare _ _ | program _ _ => .other

-- The equations of the printer are made here once, before the proofs that use them.
attribute [local simp] outline outlines outlineRows

/-- The outlines of several trees. -/
theorem outlines_eq_map (es : List (Expr M)) : outlines es = es.map outline := by
  induction es with
  | nil => rfl
  | cons e es ih => rw [outlines, List.map_cons, ih]

/-- The outlines of several rows. -/
theorem outlineRows_eq_map (rows : List (List (Expr M))) :
    outlineRows rows = rows.map fun row => Text.join " " (row.map outline) := by
  induction rows with
  | nil => rfl
  | cons row rows ih => rw [outlineRows, List.map_cons, ih, outlines_eq_map]

/-- Whether a node is a declaration. -/
def isDeclaration : Expr M → Bool
  | declare _ _ => true
  | _ => false

/-- The magnitude at a node that is a number. -/
def number? : Expr M → Option M
  | literal _ c => c.number?
  | _ => none

/-- A node that has an outline of its own: no declaration, and a number only of a set. -/
def OutlinedNode (numbers : Set M) (e : Expr M) : Prop :=
  e.isDeclaration = false ∧ ∀ m ∈ e.number?, m ∈ numbers

instance (numbers : Set M) [DecidablePred (· ∈ numbers)] : DecidablePred (OutlinedNode numbers) :=
  fun _ => inferInstanceAs (Decidable (_ ∧ _))

/-- A tree that was read, without declarations and with numbers of a set. -/
structure Outlined (numbers : Set M) (e : Expr M) : Prop where
  /-- It is as the reader makes it. -/
  wellFormed : e.WellFormed
  /-- Its nodes have outlines of their own. -/
  nodes : e.Everywhere (OutlinedNode numbers)

variable {numbers : Set M} {e : Expr M}

/-- The trees below one with an outline of its own have outlines of their own. -/
theorem Outlined.inside (h : e.Outlined numbers) : ∀ x ∈ e.children, x.Outlined numbers :=
  fun x hx => ⟨h.wellFormed.inside x hx, h.nodes.inside x hx⟩

/-- The prefix operators, character by character. -/
theorem symbol_of_isUnaryOperator {symbol : Text} (h : isUnaryOperator symbol = true) :
    ∃ c, symbol = Text.ofChars [c] ∧ (c = '-' ∨ c = '~' ∨ c = '!') := by
  simp only [isUnaryOperator, unaryOperators, List.any_cons, List.any_nil, Bool.or_false,
    Bool.or_eq_true, decide_eq_true_eq] at h
  rcases h with h | h | h
  · exact ⟨'-', h.symm, .inl rfl⟩
  · exact ⟨'~', h.symm, .inr (.inl rfl)⟩
  · exact ⟨'!', h.symm, .inr (.inr rfl)⟩

/-- A prefix operator holds operator characters only. -/
theorem madeOf_of_isUnaryOperator {symbol : Text} (h : isUnaryOperator symbol = true) :
    MadeOf isOperatorChar symbol := by
  obtain ⟨c, hsymbol, hc⟩ := symbol_of_isUnaryOperator h
  refine ⟨[c], hsymbol, List.forall_mem_singleton.mpr ?_⟩
  rcases hc with rfl | rfl | rfl <;> rfl

/-- An outline starts with a bracket or a colon. -/
theorem front_outline (h : e.Outlined numbers) (rest : List UInt8) :
    ∃ c, front (e.outline.bytes ++ rest) = some c ∧ (c = '<' ∨ c = '(' ∨ c = ':') := by
  cases e with
  | operator | program => exact h.wellFormed.here.elim
  | declare => cases h.nodes.here.1
  | unary | binary | assign =>
    simp only [outline, bytes_append, List.append_assoc]
    exact ⟨'(', front_append rfl _, .inr (.inl rfl)⟩
  | ret =>
    simp only [outline, bytes_append, List.append_assoc]
    exact ⟨':', front_append rfl _, .inr (.inr rfl)⟩
  | _ =>
    simp only [outline, bytes_append, List.append_assoc]
    exact ⟨'<', front_append rfl _, .inl rfl⟩

/-- The outline of a constant is the word for its kind and its text. -/
theorem outline_literal (pos : Position) (c : Constant M) :
    (literal pos c).outline = "<" ++ c.value.kind.word ++ " " ++ c.text ++ ">" :=
  rfl

/-- The first characters of an outline tell the kind of the node. -/
theorem ofChars_outline (h : e.Outlined numbers) (rest : List UInt8) :
    Mark.ofChars (decode (e.outline.bytes ++ rest)) = e.mark := by
  cases e with
  | operator | program => exact h.wellFormed.here.elim
  | declare => cases h.nodes.here.1
  | literal pos c =>
    have hc : c.Written := h.wellFormed.here
    have hword : c.value.kind = .term ∨ c.value.kind = .boolean := by
      rcases hc.form with ⟨b, rfl⟩ | ⟨t, m, -, -, rfl⟩ | ⟨name, -, -, hterm⟩
      · exact .inr rfl
      · exact .inl rfl
      · exact .inl hterm
    rw [outline_literal, ValueKind.word_eq, Text.ofString_eq_ofChars]
    simp only [bytes_append, List.append_assoc, decode_ofChars_append]
    rcases hword with hkind | hkind <;> rw [hkind] <;> rfl
  | unary pos op right =>
    obtain ⟨c, hsymbol, hc⟩ := symbol_of_isUnaryOperator h.wellFormed.here
    rw [outline, hsymbol, Text.ofString_eq_ofChars]
    simp only [bytes_append, List.append_assoc, decode_ofChars_append]
    exact if_pos hc
  | binary pos left op right =>
    have hleft : left.Outlined numbers := h.inside left List.mem_cons_self
    rw [outline, Text.ofString_eq_ofChars]
    simp only [bytes_append, List.append_assoc, decode_ofChars_append]
    obtain ⟨c, hfront, hc⟩ := front_outline hleft _
    obtain ⟨cs, hdecode⟩ := List.head?_eq_some_iff.mp hfront
    rw [hdecode]
    rcases hc with rfl | rfl | rfl <;> rfl
  | assign pos target right =>
    obtain ⟨c, cs, hname, hc, -, -⟩ : IsName target.name := h.wellFormed.here
    obtain ⟨-, -, hoperator, hpunct⟩ := startsWord_of_isNameStart hc
    have hsign : ¬(c = '-' ∨ c = '~' ∨ c = '!') := by
      rintro (rfl | rfl | rfl) <;> cases hoperator
    have hopening : ¬(c = '<' ∨ c = '(' ∨ c = ':') := by
      rintro (rfl | rfl | rfl)
      · cases hoperator
      · cases hpunct
      · cases hc
    rw [outline, hname, Text.ofString_eq_ofChars]
    simp only [bytes_append, List.append_assoc, decode_ofChars_append]
    exact (if_neg hsign).trans (if_neg hopening)
  | _ =>
    simp only [outline, bytes_append, List.append_assoc]
    rw [Text.ofString_eq_ofChars, decode_ofChars_append]
    rfl

/-- Trees with the same outline, before anything, are of the same kind. -/
theorem mark_eq {e' : Expr M} (h : e.Outlined numbers) (h' : e'.Outlined numbers)
    {rest rest' : List UInt8} (heq : e.outline.bytes ++ rest = e'.outline.bytes ++ rest') :
    e.mark = e'.mark := by
  rw [← ofChars_outline h rest, ← ofChars_outline h' rest', heq]

/-- A tree is known up to positions from its outline, whatever follows. -/
def Told (numbers : Set M) (e : Expr M) : Prop :=
  Decodes (fun _ => True) (Outlined numbers) outline bare e

/-- A constant is known from its outline. -/
theorem literal_told (hform : Numeric.WritesDigits M)
    (hnumbers : Set.InjOn Constant.numberText numbers) {pos : Position} {c : Constant M}
    (h : (literal pos c).Outlined numbers) : (literal pos c).Told numbers := by
  rintro e' h' rest rest' - - heq
  have hmark := mark_eq h h' heq
  cases e' with
  | literal pos' c' =>
    have hc : c.Written := h.wellFormed.here
    have hc' : c'.Written := h'.wellFormed.here
    rw [outline_literal, outline_literal] at heq
    simp only [bytes_append, List.append_assoc] at heq
    obtain ⟨hword, heq⟩ := madeOf_cut (ValueKind.word_madeOf _) (ValueKind.word_madeOf _) rfl
      (by decide) (List.append_cancel_left heq)
    obtain ⟨htext, hrest⟩ := madeOf_cut (hc.text_madeOf hform) (hc'.text_madeOf hform) rfl
      (by decide) heq
    have hconstant := hc.eq_of_text_eq hform hnumbers hc' h.nodes.here.2 h'.nodes.here.2
      (ValueKind.word_inj hword) htext
    exact ⟨by rw [bare, bare, hconstant], hrest⟩
  | _ => cases hmark

/-- A name is known from its outline. -/
theorem reference_told {ref : Ref} (h : (reference ref : Expr M).Outlined numbers) :
    (reference ref : Expr M).Told numbers := by
  rintro e' h' rest rest' - - heq
  have hmark := mark_eq h h' heq
  cases e' with
  | reference ref' =>
    have hname : IsName ref.name := h.wellFormed.here
    have hname' : IsName ref'.name := h'.wellFormed.here
    simp only [outline, bytes_append, List.append_assoc] at heq
    obtain ⟨hsame, hrest⟩ := madeOf_cut hname.madeOf hname'.madeOf rfl (by decide)
      (List.append_cancel_left heq)
    exact ⟨by rw [bare, bare, hsame], hrest⟩
  | _ => cases hmark

variable {pos : Position} {op : Operator} {left right : Expr M}

/-- A prefix operation is known from its outline if its operand is. -/
theorem unary_told (h : (unary pos op right).Outlined numbers) (hright : right.Told numbers) :
    (unary pos op right).Told numbers := by
  rintro e' h' rest rest' - - heq
  have hmark := mark_eq h h' heq
  cases e' with
  | unary pos' op' right' =>
    have hright' : right'.Outlined numbers := h'.inside right' List.mem_cons_self
    simp only [outline, bytes_append, List.append_assoc] at heq
    obtain ⟨hsymbol, heq⟩ := madeOf_cut (madeOf_of_isUnaryOperator h.wellFormed.here)
      (madeOf_of_isUnaryOperator h'.wellFormed.here) rfl (by decide) (List.append_cancel_left heq)
    obtain ⟨hsame, heq⟩ := hright right' hright' _ _ trivial trivial heq
    exact ⟨by rw [bare, bare, hsymbol, hsame], List.append_cancel_left heq⟩
  | _ => cases hmark

/-- An operation is known from its outline if its operands are. -/
theorem binary_told (h : (binary pos left op right).Outlined numbers) (hleft : left.Told numbers)
    (hright : right.Told numbers) : (binary pos left op right).Told numbers := by
  rintro e' h' rest rest' - - heq
  have hmark := mark_eq h h' heq
  cases e' with
  | binary pos' left' op' right' =>
    have hleft' : left'.Outlined numbers := h'.inside left' (by simp [children])
    have hright' : right'.Outlined numbers := h'.inside right' (by simp [children])
    have hop : IsSymbol op.symbol := h.wellFormed.here.1
    have hop' : IsSymbol op'.symbol := h'.wellFormed.here.1
    simp only [outline, bytes_append, List.append_assoc] at heq
    obtain ⟨hsameLeft, heq⟩ := hleft left' hleft' _ _ trivial trivial (List.append_cancel_left heq)
    obtain ⟨hsymbol, heq⟩ := madeOf_cut hop.madeOf hop'.madeOf rfl (by decide)
      (List.append_cancel_left heq)
    obtain ⟨hsameRight, heq⟩ := hright right' hright' _ _ trivial trivial heq
    exact ⟨by rw [bare, bare, hsameLeft, hsymbol, hsameRight], List.append_cancel_left heq⟩
  | _ => cases hmark

/-- An assignment is known from its outline if its right side is. -/
theorem assign_told {target : Ref} (h : (assign pos target right).Outlined numbers)
    (hright : right.Told numbers) : (assign pos target right).Told numbers := by
  rintro e' h' rest rest' - - heq
  have hmark := mark_eq h h' heq
  cases e' with
  | assign pos' target' right' =>
    have hright' : right'.Outlined numbers := h'.inside right' List.mem_cons_self
    have hname : IsName target.name := h.wellFormed.here
    have hname' : IsName target'.name := h'.wellFormed.here
    simp only [outline, bytes_append, List.append_assoc] at heq
    obtain ⟨hsameName, heq⟩ := madeOf_cut hname.madeOf hname'.madeOf rfl (by decide)
      (List.append_cancel_left heq)
    obtain ⟨hsame, heq⟩ := hright right' hright' _ _ trivial trivial heq
    exact ⟨by rw [bare, bare, hsameName, hsame], List.append_cancel_left heq⟩
  | _ => cases hmark

/-- A return statement is known from its outline if its value is. -/
theorem ret_told {value : Expr M} (h : (ret pos value).Outlined numbers)
    (hvalue : value.Told numbers) : (ret pos value).Told numbers := by
  rintro e' h' rest rest' - - heq
  have hmark := mark_eq h h' heq
  cases e' with
  | ret pos' value' =>
    have hvalue' : value'.Outlined numbers := h'.inside value' List.mem_cons_self
    simp only [outline, bytes_append, List.append_assoc] at heq
    obtain ⟨hsame, heq⟩ := hvalue value' hvalue' _ _ trivial trivial (List.append_cancel_left heq)
    exact ⟨by rw [bare, bare, hsame], heq⟩
  | _ => cases hmark

variable {items items' : List (Expr M)} {sep stop : Text} {d e : Char} {ds es : List Char}

/-- Outlines with separators between them are known if each is, before a text that starts with
neither a separator nor an outline. -/
theorem list_told (hsep : sep = ofChars (d :: ds)) (hstop : stop = ofChars (e :: es)) (hne : e ≠ d)
    (hopening : ¬(e = '<' ∨ e = '(' ∨ e = ':')) (h : ∀ x ∈ items, x.Outlined numbers)
    (h' : ∀ x ∈ items', x.Outlined numbers) (hitems : ∀ x ∈ items, x.Told numbers)
    {rest rest' : List UInt8}
    (heq : (Text.join sep (outlines items)).bytes ++ (stop.bytes ++ rest) =
      (Text.join sep (outlines items')).bytes ++ (stop.bytes ++ rest')) :
    bareAll items = bareAll items' ∧ rest = rest' := by
  have hfront (x : Expr M) (hx : x.Outlined numbers) (s : List UInt8) :
      front (x.outline.bytes ++ s) ≠ some e := by
    obtain ⟨c, hc, hmem⟩ := front_outline hx s
    rw [hc]
    rintro ⟨⟩
    exact hopening hmem
  rw [outlines_eq_map, outlines_eq_map] at heq
  obtain ⟨hsame, heq⟩ := list_decodes hsep trivial trivial hne h hfront hitems items' h' _ _
    (front_append hstop rest) (front_append hstop rest') heq
  rw [bareAll_eq_map, bareAll_eq_map]
  exact ⟨hsame, List.append_cancel_left heq⟩

/-- A list in parentheses is known from its outline if its items are. -/
theorem tuple_told (h : (tuple pos items).Outlined numbers) (hitems : ∀ x ∈ items, x.Told numbers) :
    (tuple pos items).Told numbers := by
  rintro e' h' rest rest' - - heq
  have hmark := mark_eq h h' heq
  cases e' with
  | tuple pos' items' =>
    simp only [outline, bytes_append, List.append_assoc] at heq
    obtain ⟨hsame, heq⟩ : bareAll items = bareAll items' ∧ rest = rest' :=
      list_told rfl rfl (by decide) (by decide) h.inside h'.inside hitems
        (List.append_cancel_left heq)
    exact ⟨by rw [bare, bare, hsame], heq⟩
  | _ => cases hmark

/-- A call is known from its outline if its arguments are. -/
theorem call_told {name : Text} (h : (call pos name items).Outlined numbers)
    (hitems : ∀ x ∈ items, x.Told numbers) : (call pos name items).Told numbers := by
  rintro e' h' rest rest' - - heq
  have hmark := mark_eq h h' heq
  cases e' with
  | call pos' name' items' =>
    have hname : IsName name := h.wellFormed.here
    have hname' : IsName name' := h'.wellFormed.here
    simp only [outline, bytes_append, List.append_assoc] at heq
    obtain ⟨hsameName, heq⟩ := madeOf_cut hname.madeOf hname'.madeOf rfl (by decide)
      (List.append_cancel_left heq)
    obtain ⟨hsame, heq⟩ : bareAll items = bareAll items' ∧ rest = rest' :=
      list_told rfl rfl (by decide) (by decide) h.inside h'.inside hitems heq
    exact ⟨by rw [bare, bare, hsameName, hsame], heq⟩
  | _ => cases hmark

/-- Names with commas between them are known before a closing bracket. -/
theorem params_told {params params' : List Ref} (h : ∀ p ∈ params, IsName p.name)
    (h' : ∀ p ∈ params', IsName p.name) (hstop : stop = ofChars (')' :: es))
    {rest rest' : List UInt8}
    (heq : (Text.join ", " (params.map (·.name))).bytes ++ (stop.bytes ++ rest) =
      (Text.join ", " (params'.map (·.name))).bytes ++ (stop.bytes ++ rest')) :
    (params.map fun p => (⟨{}, p.name⟩ : Ref)) = (params'.map fun p => ⟨{}, p.name⟩) ∧
      rest = rest' := by
  have hfront (p : Ref) (hp : IsName p.name) (s : List UInt8) :
      front (p.name.bytes ++ s) ≠ some ')' := by
    obtain ⟨c, cs, hname, hc, -, -⟩ := hp
    rw [front_append hname]
    rintro ⟨⟩
    cases hc
  have hknown (p : Ref) (hp : IsName p.name) :
      Decodes (fun c => ∃ d, c = some d ∧ isNamePart d = false) (fun q : Ref => IsName q.name)
        (·.name) (fun p => (⟨{}, p.name⟩ : Ref)) p := by
    have hsame (q : Ref) (hq : p.name = q.name) : (⟨{}, p.name⟩ : Ref) = ⟨{}, q.name⟩ := by rw [hq]
    have hmade : Decodes _ (fun q : Ref => MadeOf isNamePart q.name) (·.name)
        (fun p => (⟨{}, p.name⟩ : Ref)) p := decodes_of_madeOf hsame hp.madeOf
    exact fun q hq => hmade q hq.madeOf
  have hsep : (Text.ofString ", ") = ofChars [',', ' '] := rfl
  obtain ⟨hsame, heq⟩ := list_decodes hsep ⟨',', rfl, by decide⟩ ⟨')', rfl, by decide⟩ (by decide)
    h hfront (fun p hp => hknown p (h p hp)) params' h' _ _ (front_append hstop rest)
    (front_append hstop rest') heq
  exact ⟨hsame, List.append_cancel_left heq⟩

/-- A function is known from its outline if the statements of its body are. -/
theorem lambda_told {params : List Ref} {bodyPos : Position}
    (h : (lambda pos params bodyPos items).Outlined numbers)
    (hitems : ∀ x ∈ items, x.Told numbers) :
    (lambda pos params bodyPos items).Told numbers := by
  rintro e' h' rest rest' - - heq
  have hmark := mark_eq h h' heq
  cases e' with
  | lambda pos' params' bodyPos' items' =>
    simp only [outline, bytes_append, List.append_assoc] at heq
    obtain ⟨hparams, heq⟩ := params_told h.wellFormed.here h'.wellFormed.here rfl
      (List.append_cancel_left heq)
    obtain ⟨hsame, heq⟩ : bareAll items = bareAll items' ∧ rest = rest' :=
      list_told rfl rfl (by decide) (by decide) h.inside h'.inside hitems heq
    exact ⟨by rw [bare, bare, hparams, hsame], heq⟩
  | _ => cases hmark

/-- A matrix is known from its outline if its cells are. -/
theorem matrix_told {rows : List (List (Expr M))} (h : (matrix pos rows).Outlined numbers)
    (hrows : ∀ row ∈ rows, ∀ x ∈ row, x.Told numbers) : (matrix pos rows).Told numbers := by
  have hne {pos : Position} {rows : List (List (Expr M))} (h : (matrix pos rows).Outlined numbers) :
      rows ≠ [] ∧ ∀ row ∈ rows, row ≠ [] ∧ ∀ x ∈ row, x.Outlined numbers := by
    obtain ⟨hrows, width, hwidth, hlength⟩ := h.wellFormed.here
    refine ⟨hrows, fun row hrow => ⟨?_, fun x hx => ?_⟩⟩
    · rintro rfl
      rw [← hlength _ hrow] at hwidth
      cases hwidth
    · exact h.inside x (List.mem_flatten.mpr ⟨row, hrow, hx⟩)
  rintro e' h' rest rest' - - heq
  have hmark := mark_eq h h' heq
  cases e' with
  | matrix pos' rows' =>
    simp only [outline, outlineRows_eq_map, bytes_append, List.append_assoc] at heq
    have hblank : Text.ofString " " = ofChars [' '] := rfl
    have hsemicolon : Text.ofString "; " = ofChars [';', ' '] := rfl
    have hrow (row : List (Expr M)) (hrow : row ∈ rows) :=
      join_decodes hblank trivial ((hne h).2 row hrow).1 (hrows row hrow)
    have hjoined := join_decodes hsemicolon ⟨trivial, by decide⟩ (hne h).1 hrow
    have hends (s : List UInt8) : front ((Text.ofString ">").bytes ++ s) = some '>' :=
      front_append rfl s
    obtain ⟨hsame, heq⟩ := hjoined rows' (hne h') _ _
      (by rw [hends]; decide) (by rw [hends]; decide) (List.append_cancel_left heq)
    exact ⟨by rw [bare, bare, bareRows_eq_map, bareRows_eq_map, hsame], List.append_cancel_left heq⟩
  | _ => cases hmark

variable {test yes no : Expr M}

/-- The test of a condition and its first branch are known from the outline, if they are from
theirs. -/
theorem branch_told {test' yes' : Expr M} (htest : test.Told numbers) (hyes : yes.Told numbers)
    (htest' : test'.Outlined numbers) (hyes' : yes'.Outlined numbers) {rest rest' : List UInt8}
    (heq : (Text.ofString "<:if ").bytes ++ (test.outline.bytes ++ ((Text.ofString "; ").bytes ++
        (yes.outline.bytes ++ rest))) =
      (Text.ofString "<:if ").bytes ++ (test'.outline.bytes ++ ((Text.ofString "; ").bytes ++
        (yes'.outline.bytes ++ rest')))) :
    test.bare = test'.bare ∧ yes.bare = yes'.bare ∧ rest = rest' := by
  obtain ⟨hsameTest, heq⟩ := htest test' htest' _ _ trivial trivial (List.append_cancel_left heq)
  obtain ⟨hsameYes, heq⟩ := hyes yes' hyes' _ _ trivial trivial (List.append_cancel_left heq)
  exact ⟨hsameTest, hsameYes, heq⟩

/-- A condition does not both end after its first branch and go on. -/
theorem end_ne_else (rest rest' : List UInt8) :
    (Text.ofString "; :end>").bytes ++ rest ≠ (Text.ofString "; :else ").bytes ++ rest' := by
  intro h
  have hchars := congrArg decode h
  rw [Text.ofString_eq_ofChars, Text.ofString_eq_ofChars, decode_ofChars_append,
    decode_ofChars_append] at hchars
  simp at hchars

/-- A condition with one branch is known from its outline if its parts are. -/
theorem ifThen_told (h : (ifThen pos test yes).Outlined numbers) (htest : test.Told numbers)
    (hyes : yes.Told numbers) : (ifThen pos test yes).Told numbers := by
  rintro e' h' rest rest' - - heq
  have hmark := mark_eq h h' heq
  cases e' with
  | ifThen pos' test' yes' =>
    have htest' : test'.Outlined numbers := h'.inside test' (by simp [children])
    have hyes' : yes'.Outlined numbers := h'.inside yes' (by simp [children])
    simp only [outline, bytes_append, List.append_assoc] at heq
    obtain ⟨hsameTest, hsameYes, heq⟩ := branch_told htest hyes htest' hyes' heq
    exact ⟨by rw [bare, bare, hsameTest, hsameYes], List.append_cancel_left heq⟩
  | ifElse pos' test' yes' no' =>
    have htest' : test'.Outlined numbers := h'.inside test' (by simp [children])
    have hyes' : yes'.Outlined numbers := h'.inside yes' (by simp [children])
    simp only [outline, bytes_append, List.append_assoc] at heq
    obtain ⟨-, -, heq⟩ := branch_told htest hyes htest' hyes' heq
    exact absurd heq (end_ne_else _ _)
  | _ => cases hmark

/-- A condition with two branches is known from its outline if its parts are. -/
theorem ifElse_told (h : (ifElse pos test yes no).Outlined numbers) (htest : test.Told numbers)
    (hyes : yes.Told numbers) (hno : no.Told numbers) :
    (ifElse pos test yes no).Told numbers := by
  rintro e' h' rest rest' - - heq
  have hmark := mark_eq h h' heq
  cases e' with
  | ifThen pos' test' yes' =>
    have htest' : test'.Outlined numbers := h'.inside test' (by simp [children])
    have hyes' : yes'.Outlined numbers := h'.inside yes' (by simp [children])
    simp only [outline, bytes_append, List.append_assoc] at heq
    obtain ⟨-, -, heq⟩ := branch_told htest hyes htest' hyes' heq
    exact absurd heq.symm (end_ne_else _ _)
  | ifElse pos' test' yes' no' =>
    have htest' : test'.Outlined numbers := h'.inside test' (by simp [children])
    have hyes' : yes'.Outlined numbers := h'.inside yes' (by simp [children])
    have hno' : no'.Outlined numbers := h'.inside no' (by simp [children])
    simp only [outline, bytes_append, List.append_assoc] at heq
    obtain ⟨hsameTest, hsameYes, heq⟩ := branch_told htest hyes htest' hyes' heq
    obtain ⟨hsameNo, heq⟩ := hno no' hno' _ _ trivial trivial (List.append_cancel_left heq)
    exact ⟨by rw [bare, bare, hsameTest, hsameYes, hsameNo], List.append_cancel_left heq⟩
  | _ => cases hmark

/-- The outline of a tree tells the tree up to positions, whatever follows. -/
theorem outline_told (hform : Numeric.WritesDigits M)
    (hnumbers : Set.InjOn Constant.numberText numbers) (x : Expr M) (h : x.Outlined numbers) :
    x.Told numbers := by
  induction x using children_induction with
  | h x ih =>
    have hinside : ∀ y ∈ x.children, y.Told numbers := fun y hy => ih y hy (h.inside y hy)
    cases x with
    | operator | program => exact h.wellFormed.here.elim
    | declare => cases h.nodes.here.1
    | literal pos c => exact literal_told hform hnumbers h
    | reference ref => exact reference_told h
    | unary pos op right => exact unary_told h (hinside right (by simp [children]))
    | binary pos left op right =>
      exact binary_told h (hinside left (by simp [children])) (hinside right (by simp [children]))
    | assign pos target right => exact assign_told h (hinside right (by simp [children]))
    | tuple pos items => exact tuple_told h hinside
    | matrix pos rows =>
      exact matrix_told h fun row hrow y hy =>
        hinside y (List.mem_flatten.mpr ⟨row, hrow, hy⟩)
    | ifThen pos test yes =>
      exact ifThen_told h (hinside test (by simp [children])) (hinside yes (by simp [children]))
    | ifElse pos test yes no =>
      exact ifElse_told h (hinside test (by simp [children])) (hinside yes (by simp [children]))
        (hinside no (by simp [children]))
    | lambda pos params bodyPos body => exact lambda_told h hinside
    | call pos name args => exact call_told h hinside
    | ret pos value => exact ret_told h (hinside value (by simp [children]))

/-- Positions are not seen in the outlines of several trees if they are not in that of each. -/
theorem outlines_bareAll (items : List (Expr M))
    (h : ∀ x ∈ items, x.bare.outline = x.outline) : outlines (bareAll items) = outlines items := by
  rw [outlines_eq_map, outlines_eq_map, bareAll_eq_map, List.map_map]
  exact List.map_congr_left h

/-- An outline does not show positions. -/
theorem outline_bare (x : Expr M) : x.bare.outline = x.outline := by
  induction x using children_induction with
  | h x ih =>
    cases x with
    | literal | reference | operator | declare => rfl
    | unary pos op right => rw [bare, outline, outline, ih right (by simp [children])]
    | binary pos left op right =>
      rw [bare, outline, outline, ih left (by simp [children]), ih right (by simp [children])]
    | assign pos target right => rw [bare, outline, outline, ih right (by simp [children])]
    | tuple pos items => rw [bare, outline, outline, outlines_bareAll items ih]
    | matrix pos rows =>
      have hrows : outlineRows (bareRows rows) = outlineRows rows := by
        rw [outlineRows_eq_map, outlineRows_eq_map, bareRows_eq_map, List.map_map]
        refine List.map_congr_left fun row hrow => ?_
        have hrow : outlines (bareAll row) = outlines row :=
          outlines_bareAll row fun x hx => ih x (List.mem_flatten.mpr ⟨row, hrow, hx⟩)
        rw [outlines_eq_map, outlines_eq_map, bareAll_eq_map] at hrow
        rw [Function.comp_apply, hrow]
      rw [bare, outline, outline, hrows]
    | ifThen pos test yes =>
      rw [bare, outline, outline, ih test (by simp [children]), ih yes (by simp [children])]
    | ifElse pos test yes no =>
      rw [bare, outline, outline, ih test (by simp [children]), ih yes (by simp [children]),
        ih no (by simp [children])]
    | lambda pos params bodyPos body =>
      rw [bare, outline, outline, outlines_bareAll body ih, List.map_map]
      rfl
    | call pos name args => rw [bare, outline, outline, outlines_bareAll args ih]
    | ret pos value => rw [bare, outline, outline, ih value (by simp [children])]
    | program pos statements => rw [bare, outline, outline, outlines_bareAll statements ih]

end Expr

/-- The outline of a statement tells the statement. Of any two statements that were read, from
whatever source, without declarations and with numbers of a set in which no two are printed alike,
the outlines are the same exactly if the statements are the same up to positions. -/
theorem outline_tells_statement {numbers : Set Float}
    (hnumbers : Set.InjOn Constant.numberText numbers) {settings settings' : Settings}
    {c c' : Cursor} (hc : c.Sound) (hc' : c'.Sound) {e e' : Expr Float}
    (he : (c.statement settings).1 = .ok e) (he' : (c'.statement settings').1 = .ok e')
    (hnodes : e.Everywhere (Expr.OutlinedNode numbers))
    (hnodes' : e'.Everywhere (Expr.OutlinedNode numbers)) :
    e.outline = e'.outline ↔ e.bare = e'.bare := by
  have hwell : e.WellFormed := (c.statement_wellFormed settings hc).1 e he
  have hwell' : e'.WellFormed := (c'.statement_wellFormed settings' hc').1 e' he'
  constructor
  · intro heq
    have htold := Expr.outline_told writesDigits_float hnumbers e ⟨hwell, hnodes⟩
    exact (htold e' ⟨hwell', hnodes'⟩ [] [] trivial trivial (by rw [heq])).1
  · intro heq
    rw [← Expr.outline_bare e, heq, Expr.outline_bare]

/-- Two numbers. -/
def sampleNumbers : Set Float := {x | x = 2.5 ∨ x = 10}

instance : DecidablePred (· ∈ sampleNumbers) :=
  fun x => inferInstanceAs (Decidable (x = 2.5 ∨ x = 10))

/-- A function with a condition, a call, a matrix and operators that are made of brackets. -/
def compactSample : Text :=
  "f = lambda (a, b) \x7b if a then -g(b, 2.5) >*< [a, `x\nb, 10] else return (a, 10) end \x7d"

/-- The same function with other blanks and line breaks. -/
def spacedSample : Text :=
  "# again\nf =  lambda(a ,b)\x7b\nif a then -g( b,2.5)>*<[a, `x\n b, 10 ] else return (a,10)\nend\x7d"

/-- The two samples are at different positions, and their common outline tells that they are the
same. -/
theorem spaced_sample_told_by_outline :
    ∃ e e' : Expr Float,
      ((Cursor.start {} "compact" (.ofText compactSample)).statement {}).1 = .ok e ∧
      ((Cursor.start {} "spaced" (.ofText spacedSample)).statement {}).1 = .ok e' ∧
      e.Everywhere (Expr.OutlinedNode sampleNumbers) ∧
      e'.Everywhere (Expr.OutlinedNode sampleNumbers) ∧
      e.pos ≠ e'.pos ∧ e.outline = e'.outline ∧ e.bare = e'.bare := by
  have hnumbers : Set.InjOn Constant.numberText sampleNumbers := by
    rintro x (rfl | rfl) y (rfl | rfl) h
    · rfl
    · revert h
      decide +kernel
    · revert h
      decide +kernel
    · rfl
  have hsample :
      (match ((Cursor.start {} "compact" (.ofText compactSample)).statement (M := Float) {}).1,
        ((Cursor.start {} "spaced" (.ofText spacedSample)).statement (M := Float) {}).1 with
      | .ok e, .ok e' => decide (e.Everywhere (Expr.OutlinedNode sampleNumbers)) &&
          decide (e'.Everywhere (Expr.OutlinedNode sampleNumbers)) && decide (e.pos ≠ e'.pos) &&
          decide (e.outline = e'.outline)
      | _, _ => false) = true := by
    decide +kernel
  cases he : ((Cursor.start {} "compact" (.ofText compactSample)).statement (M := Float) {}).1 with
  | error fault =>
    rw [he] at hsample
    cases hsample
  | ok e =>
    cases he' : ((Cursor.start {} "spaced" (.ofText spacedSample)).statement (M := Float) {}).1 with
    | error fault =>
      rw [he, he'] at hsample
      cases hsample
    | ok e' =>
      rw [he, he'] at hsample
      simp only [Bool.and_eq_true, decide_eq_true_eq] at hsample
      obtain ⟨⟨⟨hnodes, hnodes'⟩, hpos⟩, houtline⟩ := hsample
      have htold := outline_tells_statement hnumbers (Cursor.start_sound _ _ _)
        (Cursor.start_sound _ _ _) he he' hnodes hnodes'
      exact ⟨e, e', rfl, rfl, hnodes, hnodes', hpos, houtline, htold.mp houtline⟩

end SymCalc
