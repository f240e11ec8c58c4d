import Mathlib
import SymCalc.Proofs.Completeness
import SymCalc.Proofs.Grouping
import SymCalc.Proofs.Magnitude
import SymCalc.Proofs.Spelling

/-!
# Chains of operators in a text

Operands with operators between them on a line are read as one statement, whose tree is the tree
of the chain. One operator of the table cannot be written: the point of `*.` is punctuation, so a
chain with it is not read at all. Main statement: `operator_chain_grouping`.
-/

namespace SymCalc

open Parse

variable {M : Type} [Numeric M]

/-- An operand as it is written: a leaf, a call, parentheses or a matrix, perhaps behind prefix
operators. Its last line has not ended. -/
def OperandText (cs : List Char) (e : Expr M) : Prop :=
  ∃ ws, Spans false cs ws false ∧ Phrase .primary ws e

/-- Some blanks within a line. -/
structure Blanks (cs : List Char) : Prop where
  /-- There is at least one. -/
  nonempty : cs ≠ []
  /-- Each is a space or a tabulator. -/
  blank : ∀ c ∈ cs, c = ' ' ∨ c = '\t'

/-- A chain as it is written: operands with operators of the table between them, and blanks
around each operator. -/
inductive ChainText : List Char → Expr M → List (Text × Expr M) → Prop where
  | operand {cs : List Char} {e : Expr M} (first : OperandText cs e) : ChainText cs e []
  | link {cs before after rest : List Char} {e e' : Expr M} {op : Text}
      {links : List (Text × Expr M)} (first : OperandText cs e) (left : Blanks before)
      (known : (priority? op).isSome = true) (right : Blanks after)
      (others : ChainText rest e' links) :
      ChainText (cs ++ before ++ op.chars ++ after ++ rest) e ((op, e') :: links)

/-- What is written as an operand is one. -/
theorem OperandText.isOperand {cs : List Char} {e : Expr M} (h : OperandText cs e) :
    e.IsOperand := by
  obtain ⟨ws, _, hphrase⟩ := h
  exact ⟨hphrase.ne_binary (.inl rfl), hphrase.pos_eq⟩

/-- All that stands between the operators of a chain are operands. -/
theorem ChainText.isOperand {cs : List Char} {e : Expr M} {links : List (Text × Expr M)}
    (h : ChainText cs e links) : e.IsOperand ∧ ∀ p ∈ links, p.2.IsOperand := by
  induction h with
  | operand first => exact ⟨first.isOperand, List.forall_mem_nil _⟩
  | link first _ _ _ _ ih => exact ⟨first.isOperand, List.forall_mem_cons.mpr ih⟩

omit [Numeric M] in
/-- No word goes on across blanks. -/
theorem Blanks.breaks {cs : List Char} (h : Blanks cs) (ds : List Char) : Breaks (cs ++ ds) := by
  obtain ⟨c, cs, rfl⟩ := List.exists_cons_of_ne_nil h.nonempty
  rintro d ⟨⟩
  rcases h.blank c List.mem_cons_self with rfl | rfl
  · decide
  · decide

/-- Blanks have no words. -/
theorem Spans.blanks {n k : Bool} {cs ds : List Char} {vs : List Word} (h : Blanks cs)
    (rest : Spans n ds vs k) : Spans n (cs ++ ds) vs k := by
  have hblank := h.blank
  clear h
  induction cs with
  | nil => exact rest
  | cons c cs ih =>
    obtain ⟨hc, hcs⟩ := List.forall_mem_cons.mp hblank
    obtain ⟨hclean, hscans⟩ := ih hcs
    rcases hc with rfl | rfl
    · exact ⟨List.not_mem_cons_of_ne_of_not_mem (by decide) hclean, .space (by decide) hscans⟩
    · exact ⟨List.not_mem_cons_of_ne_of_not_mem (by decide) hclean, .space (by decide) hscans⟩

/-- All operators of the table but one are made of operator characters. -/
theorem isSymbol_of_priority {t : Text} (h : (priority? t).isSome = true) (hpoint : t ≠ "*.") :
    IsSymbol t := by
  have hall : (priorities.all fun p => decide (p.1 = "*." ∨ IsSymbol p.1)) = true := by decide
  rw [priority?, Option.isSome_map, List.find?_isSome] at h
  obtain ⟨p, hp, heq⟩ := h
  rw [← of_decide_eq_true heq] at hpoint ⊢
  exact (of_decide_eq_true (List.all_eq_true.mp hall p hp)).resolve_left hpoint

/-- The words of a chain. The operator with a point is scanned as two words. -/
inductive ChainWords : List Word → Expr M → List (Text × Expr M) → Prop where
  | operand {ws : List Word} {e : Expr M} (first : Phrase .primary ws e) : ChainWords ws e []
  | link {ws vs : List Word} {o : Word} {e e' : Expr M} {links : List (Text × Expr M)}
      (first : Phrase .primary ws e) (joins : o.Joins) (pointless : o.text ≠ "*.")
      (others : ChainWords vs e' links) : ChainWords (ws ++ o :: vs) e ((o.text, e') :: links)
  | pointed {ws vs : List Word} {o d : Word} {e e' : Expr M} {links : List (Text × Expr M)}
      (first : Phrase .primary ws e) (joins : o.Joins) (point : d.IsPunct ".")
      (others : ChainWords vs e' links) :
      ChainWords (ws ++ o :: d :: vs) e ((("*." : Text), e') :: links)

/-- The words of a chain that is written out. -/
theorem ChainText.exists_words {cs : List Char} {e : Expr M} {links : List (Text × Expr M)}
    (h : ChainText cs e links) : ∃ ws, Spans false cs ws false ∧ ChainWords ws e links := by
  induction h with
  | operand first =>
    obtain ⟨ws, hspans, hphrase⟩ := first
    exact ⟨ws, hspans, .operand hphrase⟩
  | @link cs before after rest e e' op links first left known right others ih =>
    obtain ⟨ws, hspans, hphrase⟩ := first
    obtain ⟨vs, hrest, hwords⟩ := ih
    have hafter := Spans.blanks right hrest
    simp only [List.append_assoc]
    by_cases hpoint : op = "*."
    · subst hpoint
      have hchars : (Text.ofString "*.").chars = ['*'] ++ ['.'] := by
        rw [Text.ofString_eq_ofChars, Text.chars_ofChars]
        rfl
      have hdot := Spans.punct (n := false) (c := '.') (by decide) hafter
      have hstar := Spans.operator (n := false) (List.cons_ne_nil '*' [])
        (List.forall_mem_singleton.mpr rfl) (by rintro c ⟨⟩; decide) hdot
      rw [hchars, List.append_assoc]
      exact ⟨_, hspans.append (left.breaks _) (Spans.blanks left hstar),
        .pointed hphrase ⟨rfl, rfl, by decide⟩ ⟨rfl, rfl⟩ hwords⟩
    · have hsymbol := Spans.symbol (n := false) (isSymbol_of_priority known hpoint)
        (right.breaks rest).unsigned hafter
      exact ⟨_, hspans.append (left.breaks _) (Spans.blanks left hsymbol),
        .link hphrase ⟨rfl, rfl, known⟩ hpoint hwords⟩

/-- The words of a chain without the operator with a point are a statement. -/
theorem ChainWords.phrase {ws : List Word} {e : Expr M} {links : List (Text × Expr M)}
    (h : ChainWords ws e links) (hpoint : ∀ p ∈ links, p.1 ≠ "*.") :
    Phrase (.statement false) ws (e.group links) := by
  induction h with
  | operand first => exact .ofPrimary first
  | link first joins _ _ ih =>
    exact .operation first joins (ih (List.forall_mem_cons.mp hpoint).2)
  | pointed => exact absurd rfl (hpoint _ List.mem_cons_self)

/-- The words of a chain are not empty. -/
theorem ChainWords.ne_nil {ws : List Word} {e : Expr M} {links : List (Text × Expr M)}
    (h : ChainWords ws e links) : ws ≠ [] := by
  cases h with
  | operand first => exact first.ne_nil
  | link first | pointed first => exact List.append_ne_nil_of_left_ne_nil first.ne_nil _

/-- A chain with the operator with a point is not read. -/
theorem ChainWords.fails {ws : List Word} {e : Expr M} {links : List (Text × Expr M)}
    (h : ChainWords ws e links) (hpoint : ∃ p ∈ links, p.1 = "*.") (depth : Nat)
    (hdepth : ws.length ≤ depth) : Meets (statementWithin (M := M) depth false) ws Fails := by
  induction h generalizing depth with
  | operand =>
    obtain ⟨p, hp, _⟩ := hpoint
    cases hp
  | @link ws vs o e e' links first joins pointless others ih =>
    have hothers : ∃ p ∈ links, p.1 = "*." := by
      obtain ⟨p, hp, heq⟩ := hpoint
      rcases List.mem_cons.mp hp with rfl | hp
      · exact absurd heq pointless
      · exact ⟨p, hp, heq⟩
    rw [List.length_append, List.length_cons] at hdepth
    refine first.read (by omega) (startsCall_cons_operator joins.kind)
      (.operation (startsOperator_cons joins) fun e' _ => ?_)
    exact operation_fails joins (ih hothers (depth - 1) (by omega))
  | pointed first joins point others =>
    rw [List.length_append, List.length_cons] at hdepth
    refine first.read (by omega) (startsCall_cons_operator joins.kind)
      (.operation (startsOperator_cons joins) fun e' _ => ?_)
    refine operation_fails joins (statementWithin_fails point.1 ?_)
    rw [point.2]
    decide

/-- A text is read as a program of one statement, which has the given tree. -/
def ReadAs (settings : Settings) (name : Text) (cs : List Char) (t : Expr M) : Prop :=
  ∃ e : Expr M,
    ((Cursor.start settings name (.ofText (.ofChars cs))).program settings).1 = .ok [e] ∧
      e.bare = t

/-- A chain that can be written is read as its tree. -/
theorem ChainText.readAs {cs : List Char} {e : Expr M} {links : List (Text × Expr M)}
    (h : ChainText cs e links) (hpoint : ∀ p ∈ links, p.1 ≠ "*.") (settings : Settings)
    (name : Text) : ReadAs settings name cs (e.group links) := by
  obtain ⟨ws, hspans, hwords⟩ := h.exists_words
  have hphrases : Phrases [(ws, e.group links)] (ws ++ []) :=
    .cons (.whole (hwords.phrase hpoint)) ⟨rfl, rfl⟩ .nil
  rw [List.append_nil] at hphrases
  obtain ⟨es, hok, htrees⟩ := Cursor.program_reads settings hphrases
    (Cursor.start_reads settings name hspans.clean hspans.scans)
  obtain ⟨e', rfl, he'⟩ := List.map_eq_singleton_iff.mp htrees
  exact ⟨e', hok, he'⟩

/-- How chains of operators are grouped. A chain is read unless it has the operator with a
point, and then the program is not read at all. What is read is one statement with the operands
and operators of the chain in order. A difference negates the tree of all that follows it. Of a
chain without differences there is one conventional tree, and the tree that is read is that one
exactly if there are no operators next to each other of which the second binds less, with one that
binds still less after them. -/
theorem operator_chain_grouping (settings : Settings) (name : Text) {cs : List Char} {e : Expr M}
    {links : List (Text × Expr M)} (h : ChainText cs e links) :
    ((∃ p ∈ links, p.1 = "*.") → ∃ errors,
      ((Cursor.start settings name (.ofText (.ofChars cs))).program (M := M) settings).1 =
        .error errors) ∧
    ((∀ p ∈ links, p.1 ≠ "*.") → ∃ t, ReadAs settings name cs t ∧ Expr.OfChain e links t ∧
      (∀ (before after : List (Text × Expr M)) (e' z : Expr M) (sum rest : List Char),
        links = before ++ (("-" : Text), e') :: after → (∀ p ∈ before, p.1 ≠ "-") →
        ChainText sum e (before ++ [(("+" : Text), z)]) → ChainText rest e' after →
        ∃ s u, ReadAs settings name sum s ∧ ReadAs settings name rest u ∧
          t = s.replaceLast (.unary {} ⟨{}, "-"⟩ u)) ∧
      ((∀ p ∈ links, p.1 ≠ "-") →
        (∃! u, Expr.OfChain e links u ∧ u.Conventional) ∧
          (t.Conventional ↔ ¬ FallsTwice (links.map (·.1))))) := by
  obtain ⟨he, hlinks⟩ := h.isOperand
  constructor
  · intro hpoint
    obtain ⟨ws, hspans, hwords⟩ := h.exists_words
    exact Cursor.program_fails settings hwords.ne_nil
      (Cursor.start_reads settings name hspans.clean hspans.scans) (hwords.fails hpoint)
  · intro hpoint
    refine ⟨e.group links, h.readAs hpoint settings name, Expr.ofChain_group he hlinks, ?_, ?_⟩
    · rintro before after e' z sum rest rfl hminus hsum hrest
      obtain ⟨hbefore, hafter⟩ := List.forall_mem_append.mp hpoint
      have hsymbol : ("+" : Text) ≠ "*." := by decide
      have hplus : ∀ p ∈ before ++ [(("+" : Text), z)], p.1 ≠ "*." :=
        List.forall_mem_append.mpr ⟨hbefore, List.forall_mem_singleton.mpr hsymbol⟩
      have hz : z.IsOperand := hsum.isOperand.2 _ List.mem_append_cons_self
      exact ⟨_, _, hsum.readAs hplus settings name,
        hrest.readAs (List.forall_mem_cons.mp hafter).2 settings name,
        Expr.group_difference hz hminus⟩
    · intro hminus
      obtain ⟨u, hchain, hu⟩ := Expr.exists_conventional he hlinks hminus
      refine ⟨⟨u, ⟨hchain, hu⟩, ?_⟩, Expr.conventional_group_iff he hlinks hminus⟩
      rintro u' ⟨hchain', hu'⟩
      exact hchain'.eq_of_conventional hchain hminus hu' hu

/-- A literal that is a number. -/
def numberLiteral (m : M) : Expr M := .literal {} (.scalar (.number m))

/-- A numeral is written as an operand. -/
theorem operandText_number {cs : List Char} {m : M} (h : IsNumeral (Text.ofChars cs))
    (value : Numeric.read? (Text.ofChars cs) = some m) : OperandText cs (numberLiteral m) := by
  have hspans := Spans.numeral (n := false) h (nofun : Breaks []) Spans.nil
  rw [Text.chars_ofChars, List.append_nil] at hspans
  exact ⟨_, hspans, .number rfl value⟩

/-- The chain `8 / 2 * 2 + 1`, of which the priorities fall twice. -/
def fallingChain : List Char := ['8', ' ', '/', ' ', '2', ' ', '*', ' ', '2', ' ', '+', ' ', '1']

/-- The operators of the chain with their right operands. -/
def fallingLinks : List (Text × Expr ℚ) :=
  [(Text.ofChars ['/'], numberLiteral 2), (Text.ofChars ['*'], numberLiteral 2),
    (Text.ofChars ['+'], numberLiteral 1)]

/-- The chain `8 *. 2`, with the operator that cannot be written. -/
def pointedChain : List Char := ['8', ' ', '*', '.', ' ', '2']

/-- The falling chain is read, and not as its conventional tree; the pointed chain is not read. -/
theorem sample_chains_grouping :
    (ChainText fallingChain (numberLiteral 8) fallingLinks ∧
      ∃ t : Expr ℚ, ReadAs {} "chain" fallingChain t ∧ ¬ t.Conventional) ∧
    (ChainText pointedChain (numberLiteral (8 : ℚ)) [(Text.ofChars ['*', '.'], numberLiteral 2)] ∧
      ∃ errors,
        ((Cursor.start {} "chain" (.ofText (.ofChars pointedChain))).program (M := ℚ) {}).1 =
          .error errors) := by
  have hblank : Blanks [' '] := ⟨by decide, by simp⟩
  have hone : OperandText ['1'] (numberLiteral (1 : ℚ)) :=
    operandText_number (by decide) (by decide +kernel)
  have htwo : OperandText ['2'] (numberLiteral (2 : ℚ)) :=
    operandText_number (by decide) (by decide +kernel)
  have hfirst : OperandText ['8'] (numberLiteral (8 : ℚ)) :=
    operandText_number (by decide) (by decide +kernel)
  constructor
  · have hplus : (priority? (Text.ofChars ['+'])).isSome = true := by decide
    have htimes : (priority? (Text.ofChars ['*'])).isSome = true := by decide
    have hover : (priority? (Text.ofChars ['/'])).isSome = true := by decide
    have hchain : ChainText fallingChain (numberLiteral 8) fallingLinks := by
      have hlinks := ChainText.link hfirst hblank hover hblank
        (.link htwo hblank htimes hblank (.link htwo hblank hplus hblank (.operand hone)))
      simp only [Text.chars_ofChars] at hlinks
      exact hlinks
    obtain ⟨-, hread⟩ := operator_chain_grouping {} "chain" hchain
    obtain ⟨t, ht, -, -, hconventional⟩ := hread (by decide)
    refine ⟨hchain, t, ht, fun hc => (hconventional (by decide)).2.mp hc ?_⟩
    exact ⟨0, 2, _, _, _, by decide, rfl, rfl, rfl, by decide, by decide⟩
  · have hpointed : (priority? (Text.ofChars ['*', '.'])).isSome = true := by decide
    have hchain : ChainText pointedChain (numberLiteral (8 : ℚ))
        [(Text.ofChars ['*', '.'], numberLiteral 2)] := by
      have hlink := ChainText.link hfirst hblank hpointed hblank (.operand htwo)
      simp only [Text.chars_ofChars] at hlink
      exact hlink
    obtain ⟨hrejected, -⟩ := operator_chain_grouping {} "chain" hchain
    exact ⟨hchain, hrejected ⟨_, List.mem_singleton_self _, by decide⟩⟩

end SymCalc
