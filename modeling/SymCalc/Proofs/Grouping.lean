import Mathlib
import SymCalc.Proofs.Grammar

/-!
# How chains of operators are grouped

The tree of operands with operators between them is built from its end: each operator is combined
with the tree of all that follows it, and takes over the left part of that tree if it binds
tighter than the operator at its root. Only one level is turned. Main statements: the tree has
the operands and operators of the chain in their order, a difference negates all that follows it,
and the tree is the conventional one exactly where the priorities do not fall twice.
-/

namespace SymCalc

variable {M : Type}

/-- The binding strength of an operator, and 0 for what is not in the table. -/
def rank (symbol : Text) : Nat := (priority? symbol).getD 0

namespace Expr

/-- What stands between the operators of a chain: no binary operation, and without a position. -/
structure IsOperand (e : Expr M) : Prop where
  /-- It is no binary operation. -/
  ne_binary : ∀ pos left op right, e ≠ .binary pos left op right
  /-- It has no position. -/
  pos_eq : e.pos = {}

/-- The trees that have the first operand and then the operators with their right operands in
order. A difference is the sum with what is negated. -/
inductive OfChain : Expr M → List (Text × Expr M) → Expr M → Prop where
  | operand {e : Expr M} (alone : e.IsOperand) : OfChain e [] e
  | operation {e e' left right : Expr M} {op : Text} {before after : List (Text × Expr M)}
      (symbol : op ≠ "-") (first : OfChain e before left) (second : OfChain e' after right) :
      OfChain e (before ++ (op, e') :: after) (.binary {} left ⟨{}, op⟩ right)
  | difference {e e' left right : Expr M} {before after : List (Text × Expr M)}
      (first : OfChain e before left) (second : OfChain e' after right) :
      OfChain e (before ++ (("-" : Text), e') :: after)
        (.binary {} left ⟨{}, "+"⟩ (.unary {} ⟨{}, "-"⟩ right))

/-- The tree of a chain: each operator is combined with the tree of what follows it. -/
def group : Expr M → List (Text × Expr M) → Expr M
  | e, [] => e
  | e, (op, e') :: links => e.combine op (group e' links)

/-- An operator before an operation takes over its left part if it binds tighter. -/
theorem combine_binary {e left right : Expr M} {op : Text} {o : Operator} {pos : Position}
    (hop : op ≠ "-") :
    e.combine op (.binary pos left o right) =
      if rank o.symbol < rank op then
        .binary e.pos (.binary e.pos e ⟨{}, op⟩ left) o right
      else .binary e.pos e ⟨{}, op⟩ (.binary pos left o right) := by
  rw [combine, if_neg hop]
  rfl

/-- A minus before anything is a plus before its negation. -/
theorem combine_minus (e right : Expr M) :
    e.combine "-" right = .binary e.pos e ⟨{}, "+"⟩ (.unary {} ⟨{}, "-"⟩ right) := by
  rw [combine, if_pos rfl]
  rfl

/-- What is combined is an operation. -/
theorem exists_combine_eq (e right : Expr M) (op : Text) :
    ∃ left o last, e.combine op right = .binary e.pos left o last := by
  by_cases hop : op = "-"
  · rw [hop, combine_minus]
    exact ⟨_, _, _, rfl⟩
  · cases right with
    | binary pos left o last =>
      rw [combine_binary hop]
      split
      · exact ⟨_, _, _, rfl⟩
      · exact ⟨_, _, _, rfl⟩
    | _ => exact ⟨_, _, _, combine_of_ne_binary hop (by exact nofun)⟩

/-- An operator with its left operand before a chain makes a longer chain. -/
theorem OfChain.combine {e e' t : Expr M} {op : Text} {links : List (Text × Expr M)}
    (he : e.IsOperand) (h : OfChain e' links t) :
    OfChain e ((op, e') :: links) (e.combine op t) := by
  have hfirst : OfChain e [] e := .operand he
  by_cases hop : op = "-"
  · rw [hop, combine_minus, he.pos_eq]
    exact .difference hfirst h
  · cases h with
    | operand alone =>
      rw [combine_of_ne_binary hop alone.ne_binary, he.pos_eq]
      exact .operation hop hfirst (.operand alone)
    | operation symbol first second =>
      rw [combine_binary hop, he.pos_eq]
      split
      · exact .operation symbol (.operation hop hfirst first) second
      · exact .operation hop hfirst (.operation symbol first second)
    | difference first second =>
      rw [combine_binary hop, he.pos_eq]
      split
      · exact .difference (.operation hop hfirst first) second
      · exact .operation hop hfirst (.difference first second)

/-- The tree of a chain has its operands and operators in order. -/
theorem ofChain_group {e : Expr M} {links : List (Text × Expr M)} (he : e.IsOperand)
    (hlinks : ∀ p ∈ links, p.2.IsOperand) : OfChain e links (e.group links) := by
  induction links generalizing e with
  | nil => exact .operand he
  | cons p links ih =>
    obtain ⟨hp, hrest⟩ := List.forall_mem_cons.mp hlinks
    exact OfChain.combine he (ih hp hrest)

/-- A tree with its last operand replaced. -/
def replaceLast : Expr M → (new : Expr M) → Expr M
  | .binary pos left op right, new => .binary pos left op (right.replaceLast new)
  | _, new => new

/-- In what is no operation all is replaced. -/
theorem replaceLast_of_ne_binary {e : Expr M} (new : Expr M)
    (he : ∀ pos left op right, e ≠ .binary pos left op right) : e.replaceLast new = new := by
  cases e with
  | binary pos left op right => exact absurd rfl (he pos left op right)
  | _ => rfl

/-- An operator before a chain does not change what its last operand is. -/
theorem combine_replaceLast {e left right : Expr M} {op : Text} {o : Operator} {pos : Position}
    (new : Expr M) (hop : op ≠ "-") :
    e.combine op ((Expr.binary pos left o right).replaceLast new) =
      (e.combine op (.binary pos left o right)).replaceLast new := by
  rw [replaceLast, combine_binary hop, combine_binary hop]
  split
  · rfl
  · rfl

/-- A minus negates the tree of all that follows it: the tree is that of a sum with something
else in the place of what is negated. -/
theorem group_difference {e e' z : Expr M} {before after : List (Text × Expr M)}
    (hz : z.IsOperand) (hbefore : ∀ p ∈ before, p.1 ≠ "-") :
    e.group (before ++ (("-" : Text), e') :: after) =
      (e.group (before ++ [(("+" : Text), z)])).replaceLast
        (.unary {} ⟨{}, "-"⟩ (e'.group after)) := by
  induction before generalizing e with
  | nil =>
    change e.combine "-" (e'.group after) = (e.combine "+" z).replaceLast _
    rw [combine_minus, combine_of_ne_binary (by decide) hz.ne_binary, replaceLast,
      replaceLast_of_ne_binary _ hz.ne_binary]
  | cons p before ih =>
    obtain ⟨hp, hbefore⟩ := List.forall_mem_cons.mp hbefore
    have hbinary : ∃ pos left o right,
        p.2.group (before ++ [(("+" : Text), z)]) = .binary pos left o right := by
      cases before with
      | nil => exact ⟨_, exists_combine_eq p.2 z "+"⟩
      | cons q before => exact ⟨_, exists_combine_eq p.2 _ q.1⟩
    obtain ⟨pos, left, o, right, hgroup⟩ := hbinary
    change e.combine p.1 (p.2.group (before ++ _ :: after)) =
      (e.combine p.1 (p.2.group (before ++ [_]))).replaceLast _
    rw [ih hbefore, hgroup, combine_replaceLast _ hp]

/-- The binary operators of a tree of operations, from left to right. -/
def operators : Expr M → List Text
  | .binary _ left op right => left.operators ++ op.symbol :: right.operators
  | _ => []

/-- The operator at the root of a tree is the first of those that bind least. -/
def LeastAtRoot : Expr M → Prop
  | .binary _ left op right =>
    (∀ o ∈ left.operators, rank op.symbol < rank o) ∧ ∀ o ∈ right.operators, rank op.symbol ≤ rank o
  | _ => True

/-- Every operator of a tree binds less than those on its left and at most as much as those on
its right: what binds tighter is deeper, and equal operators group to the right. -/
def Conventional : Expr M → Prop
  | .binary pos left op right =>
    left.Conventional ∧ right.Conventional ∧ (Expr.binary pos left op right).LeastAtRoot
  | _ => True

/-- What is no operation has no operators. -/
theorem operators_of_ne_binary {e : Expr M}
    (he : ∀ pos left op right, e ≠ .binary pos left op right) : e.operators = [] := by
  cases e with
  | binary pos left op right => exact absurd rfl (he pos left op right)
  | _ => rfl

/-- What is no operation is grouped conventionally. -/
theorem conventional_of_ne_binary {e : Expr M}
    (he : ∀ pos left op right, e ≠ .binary pos left op right) : e.Conventional := by
  cases e with
  | binary pos left op right => exact absurd rfl (he pos left op right)
  | _ => trivial

/-- The operators of a tree are those of its chain, if there is no difference. -/
theorem OfChain.operators_eq {e t : Expr M} {links : List (Text × Expr M)} (h : OfChain e links t)
    (hminus : ∀ p ∈ links, p.1 ≠ "-") : t.operators = links.map (·.1) := by
  induction h with
  | operand alone => exact operators_of_ne_binary alone.ne_binary
  | operation symbol first second ihfirst ihsecond =>
    obtain ⟨hbefore, hafter⟩ := List.forall_mem_append.mp hminus
    rw [operators, ihfirst hbefore, ihsecond (List.forall_mem_cons.mp hafter).2, List.map_append,
      List.map_cons]
  | difference => exact absurd rfl (hminus _ List.mem_append_cons_self)

/-- Where the operator at the root is the least, what binds at most as tight as it does so with
all operators. -/
theorem LeastAtRoot.rank_le {left right : Expr M} {op : Text} {o : Operator} {pos : Position}
    (h : (Expr.binary pos left o right).LeastAtRoot) (hle : rank op ≤ rank o.symbol) :
    ∀ x ∈ (Expr.binary pos left o right).operators, rank op ≤ rank x := by
  intro x hx
  rcases List.mem_append.mp hx with hx | hx
  · exact hle.trans (h.1 x hx).le
  · rcases List.mem_cons.mp hx with rfl | hx
    · exact hle
    · exact hle.trans (h.2 x hx)

/-- An operator before a tree with the least operator at its root makes another such tree. -/
theorem LeastAtRoot.combine {e t : Expr M} {op : Text} (he : e.IsOperand) (hop : op ≠ "-")
    (ht : t.LeastAtRoot) : (e.combine op t).LeastAtRoot := by
  have hnone : e.operators = [] := operators_of_ne_binary he.ne_binary
  by_cases hbinary : ∃ pos left o right, t = .binary pos left o right
  · obtain ⟨pos, left, o, right, rfl⟩ := hbinary
    rw [combine_binary hop]
    split
    · rename_i hless
      refine ⟨?_, ht.2⟩
      rw [operators, hnone, List.nil_append]
      exact List.forall_mem_cons.mpr ⟨hless, ht.1⟩
    · rename_i hless
      refine ⟨?_, ht.rank_le (Nat.le_of_not_lt hless)⟩
      rw [hnone]
      exact List.forall_mem_nil _
  · push Not at hbinary
    rw [combine_of_ne_binary hop hbinary, LeastAtRoot, hnone, operators_of_ne_binary hbinary]
    exact ⟨List.forall_mem_nil _, List.forall_mem_nil _⟩

/-- The tree of a chain has the first of its least operators at its root. -/
theorem leastAtRoot_group {e : Expr M} {links : List (Text × Expr M)} (he : e.IsOperand)
    (hlinks : ∀ p ∈ links, p.2.IsOperand) (hminus : ∀ p ∈ links, p.1 ≠ "-") :
    (e.group links).LeastAtRoot := by
  induction links generalizing e with
  | nil =>
    change e.LeastAtRoot
    cases e with
    | binary pos left op right => exact absurd rfl (he.ne_binary pos left op right)
    | _ => trivial
  | cons p links ih =>
    obtain ⟨hp, hlinks⟩ := List.forall_mem_cons.mp hlinks
    obtain ⟨hop, hminus⟩ := List.forall_mem_cons.mp hminus
    exact LeastAtRoot.combine he hop (ih hp hlinks hminus)

/-- An operator before a conventional operation breaks the convention only if it takes over a
left part with an operator that binds less than itself. -/
theorem conventional_combine_binary {e left right : Expr M} {op : Text} {o : Operator}
    {pos : Position} (he : e.IsOperand) (hop : op ≠ "-")
    (hleast : (Expr.binary pos left o right).LeastAtRoot) :
    (e.combine op (.binary pos left o right)).Conventional ↔
      (Expr.binary pos left o right).Conventional ∧
        ¬(rank o.symbol < rank op ∧ ∃ b ∈ left.operators, rank b < rank op) := by
  have hnone : e.operators = [] := operators_of_ne_binary he.ne_binary
  have hone : e.Conventional := conventional_of_ne_binary he.ne_binary
  have hroot := LeastAtRoot.combine he hop hleast
  rw [combine_binary hop] at hroot ⊢
  by_cases hless : rank o.symbol < rank op
  · rw [if_pos hless] at hroot ⊢
    constructor
    · rintro ⟨⟨-, hleft, -, hinner⟩, hright, -⟩
      refine ⟨⟨hleft, hright, hleast⟩, ?_⟩
      rintro ⟨-, b, hb, hlt⟩
      exact absurd (hinner b hb) (Nat.not_le_of_lt hlt)
    · rintro ⟨⟨hleft, hright, -⟩, hnot⟩
      refine ⟨⟨hone, hleft, ?_, fun b hb => ?_⟩, hright, hroot⟩
      · rw [hnone]
        exact List.forall_mem_nil _
      · by_contra hb'
        exact hnot ⟨hless, b, hb, Nat.lt_of_not_le hb'⟩
  · rw [if_neg hless] at hroot ⊢
    constructor
    · rintro ⟨-, ht, -⟩
      exact ⟨ht, fun h => hless h.1⟩
    · rintro ⟨ht, -⟩
      exact ⟨hone, ht, hroot⟩

end Expr

/-- Two operators next to each other of which the second binds less, and after them one that
binds still less. -/
def FallsTwice (ops : List Text) : Prop :=
  ∃ i j : Nat, ∃ a b c : Text, i + 1 < j ∧ ops[i]? = some a ∧ ops[i + 1]? = some b ∧
    ops[j]? = some c ∧ rank b < rank a ∧ rank c < rank b

/-- What falls twice does so with an operator before it. -/
theorem FallsTwice.cons {ops : List Text} (h : FallsTwice ops) (a : Text) :
    FallsTwice (a :: ops) := by
  obtain ⟨i, j, x, y, z, hij, hx, hy, hz, hfirst, hsecond⟩ := h
  exact ⟨i + 1, j + 1, x, y, z, by omega, hx, hy, hz, hfirst, hsecond⟩

/-- The priorities fall twice from the first operator on or from a later one. -/
theorem fallsTwice_cons_cons {a b : Text} {ops : List Text} :
    FallsTwice (a :: b :: ops) ↔
      (rank b < rank a ∧ ∃ c ∈ ops, rank c < rank b) ∨ FallsTwice (b :: ops) := by
  constructor
  · rintro ⟨i, j, a', b', c, hij, ha, hb, hc, hfirst, hsecond⟩
    obtain ⟨k, rfl⟩ := Nat.exists_eq_add_of_lt hij
    cases i with
    | zero =>
      obtain rfl : a = a' := Option.some.inj ha
      obtain rfl : b = b' := Option.some.inj hb
      have hmem : ops[k]? = some c := by
        rw [← hc, Nat.zero_add, Nat.add_comm 1 k]
        rfl
      exact .inl ⟨hfirst, c, List.mem_of_getElem? hmem, hsecond⟩
    | succ i =>
      refine .inr ⟨i, i + 1 + k + 1, a', b', c, by omega, ha, hb, ?_, hfirst, hsecond⟩
      rw [← hc, show i + 1 + 1 + k + 1 = i + 1 + k + 1 + 1 by omega]
      rfl
  · rintro (⟨hfirst, c, hc, hsecond⟩ | h)
    · obtain ⟨k, hk⟩ := List.mem_iff_getElem?.mp hc
      exact ⟨0, k + 2, a, b, c, by omega, rfl, rfl, hk, hfirst, hsecond⟩
    · exact h.cons a

/-- A single operator does not fall. -/
theorem not_fallsTwice_singleton (a : Text) : ¬ FallsTwice [a] := by
  rintro ⟨i, j, _, b, _, _, _, hb, _⟩
  simp at hb

/-- Where the priorities do not fall twice, they do not fall before an operator that binds less
than all before it. -/
theorem rank_le_of_not_fallsTwice {b m : Text} {before after : List Text}
    (h : ¬ FallsTwice (b :: (before ++ m :: after)))
    (hm : ∀ x ∈ before, rank m < rank x) : ∀ x ∈ before, rank b ≤ rank x := by
  induction before generalizing b with
  | nil => exact List.forall_mem_nil _
  | cons a before ih =>
    obtain ⟨ha, hbefore⟩ := List.forall_mem_cons.mp hm
    rw [List.cons_append, fallsTwice_cons_cons, not_or] at h
    have hle : rank b ≤ rank a := by
      by_contra hlt
      exact h.1 ⟨Nat.lt_of_not_le hlt, m, by simp, ha⟩
    exact List.forall_mem_cons.mpr ⟨hle, fun x hx => hle.trans (ih h.2 hbefore x hx)⟩

/-- An operator before others, of which the first of the least is known, makes the priorities
fall twice exactly if it binds tighter than one before that least operator. -/
theorem fallsTwice_cons_iff {a m : Text} {before after : List Text}
    (hbefore : ∀ x ∈ before, rank m < rank x) (hafter : ∀ x ∈ after, rank m ≤ rank x)
    (h : ¬ FallsTwice (before ++ m :: after)) :
    FallsTwice (a :: (before ++ m :: after)) ↔
      rank m < rank a ∧ ∃ b ∈ before, rank b < rank a := by
  cases before with
  | nil =>
    rw [List.nil_append] at h ⊢
    rw [fallsTwice_cons_cons]
    constructor
    · rintro (⟨-, c, hc, hlt⟩ | hfalls)
      · exact absurd (hafter c hc) (Nat.not_le_of_lt hlt)
      · exact absurd hfalls h
    · rintro ⟨-, b, hb, -⟩
      cases hb
  | cons b before =>
    obtain ⟨hb, hothers⟩ := List.forall_mem_cons.mp hbefore
    rw [List.cons_append] at h ⊢
    rw [fallsTwice_cons_cons]
    constructor
    · rintro (⟨hlt, -⟩ | hfalls)
      · exact ⟨hb.trans hlt, b, List.mem_cons_self, hlt⟩
      · exact absurd hfalls h
    · rintro ⟨-, x, hx, hlt⟩
      have hle : rank b ≤ rank x := by
        rcases List.mem_cons.mp hx with rfl | hx
        · exact Nat.le_refl _
        · exact rank_le_of_not_fallsTwice h hothers x hx
      exact .inl ⟨hle.trans_lt hlt, m, by simp, hb⟩

namespace Expr

/-- The tree of a chain without differences is grouped conventionally exactly if the priorities
of its operators do not fall twice. -/
theorem conventional_group_iff {e : Expr M} {links : List (Text × Expr M)} (he : e.IsOperand)
    (hlinks : ∀ p ∈ links, p.2.IsOperand) (hminus : ∀ p ∈ links, p.1 ≠ "-") :
    (e.group links).Conventional ↔ ¬ FallsTwice (links.map (·.1)) := by
  induction links generalizing e with
  | nil =>
    refine iff_of_true (conventional_of_ne_binary he.ne_binary) ?_
    rintro ⟨i, _, _, _, _, _, ha, _⟩
    simp at ha
  | cons p links ih =>
    obtain ⟨hp, hlinks⟩ := List.forall_mem_cons.mp hlinks
    obtain ⟨hop, hminus⟩ := List.forall_mem_cons.mp hminus
    have hops := (ofChain_group hp hlinks).operators_eq hminus
    have hleast := leastAtRoot_group hp hlinks hminus
    have ih := ih hp hlinks hminus
    change (e.combine p.1 (p.2.group links)).Conventional ↔ ¬ FallsTwice (p.1 :: links.map (·.1))
    rw [← hops] at ih ⊢
    generalize p.2.group links = t at hleast ih ⊢
    by_cases hbinary : ∃ pos left o right, t = .binary pos left o right
    · obtain ⟨pos, left, o, right, rfl⟩ := hbinary
      rw [conventional_combine_binary he hop hleast, ih]
      by_cases hfalls : FallsTwice (Expr.binary pos left o right).operators
      · exact iff_of_false (fun h => h.1 hfalls) (not_not.mpr (hfalls.cons p.1))
      · rw [operators] at hfalls ⊢
        rw [fallsTwice_cons_iff hleast.1 hleast.2 hfalls, and_iff_right hfalls]
    · push Not at hbinary
      have hroot := LeastAtRoot.combine he hop hleast
      rw [combine_of_ne_binary hop hbinary] at hroot ⊢
      rw [operators_of_ne_binary hbinary]
      exact iff_of_true ⟨conventional_of_ne_binary he.ne_binary,
        conventional_of_ne_binary hbinary, hroot⟩ (not_fallsTwice_singleton p.1)

/-- An operator with its left operand, put below all operators of a tree that bind less. -/
def insertFirst (e : Expr M) (op : Text) : Expr M → Expr M
  | .binary pos left o right =>
    if rank o.symbol < rank op then .binary pos (insertFirst e op left) o right
    else .binary {} e ⟨{}, op⟩ (.binary pos left o right)
  | t => .binary {} e ⟨{}, op⟩ t

/-- Before what is no operation the operator is the root. -/
theorem insertFirst_of_ne_binary {e t : Expr M} {op : Text}
    (ht : ∀ pos left o right, t ≠ .binary pos left o right) :
    e.insertFirst op t = .binary {} e ⟨{}, op⟩ t := by
  cases t with
  | binary pos left o right => exact absurd rfl (ht pos left o right)
  | _ => rfl

/-- An operator put into the tree of a chain makes the tree of a longer chain, and keeps the
convention. -/
theorem OfChain.insertFirst {e e' t : Expr M} {op : Text} {links : List (Text × Expr M)}
    (he : e.IsOperand) (hop : op ≠ "-") (h : OfChain e' links t)
    (hminus : ∀ p ∈ links, p.1 ≠ "-") (ht : t.Conventional) :
    OfChain e ((op, e') :: links) (e.insertFirst op t) ∧ (e.insertFirst op t).Conventional := by
  have hfirst : OfChain e [] e := .operand he
  have hnone : e.operators = [] := operators_of_ne_binary he.ne_binary
  have hone : e.Conventional := conventional_of_ne_binary he.ne_binary
  induction h with
  | @operand e' alone =>
    rw [insertFirst_of_ne_binary alone.ne_binary]
    refine ⟨.operation hop hfirst (.operand alone), hone, ht, ?_⟩
    rw [LeastAtRoot, hnone, operators_of_ne_binary alone.ne_binary]
    exact ⟨List.forall_mem_nil _, List.forall_mem_nil _⟩
  | @operation e' e'' left right o before after symbol first second ih _ =>
    obtain ⟨hbefore, hafter⟩ := List.forall_mem_append.mp hminus
    obtain ⟨hleft, hright, hroot⟩ := ht
    rw [Expr.insertFirst]
    split
    · rename_i hless
      obtain ⟨hchain, hconventional⟩ := ih hbefore hleft
      have hops := hchain.operators_eq (List.forall_mem_cons.mpr ⟨hop, hbefore⟩)
      refine ⟨.operation symbol hchain second, hconventional, hright, ?_, hroot.2⟩
      rw [hops, List.map_cons, ← first.operators_eq hbefore]
      exact List.forall_mem_cons.mpr ⟨hless, hroot.1⟩
    · rename_i hless
      refine ⟨.operation hop hfirst (.operation symbol first second), hone,
        ⟨hleft, hright, hroot⟩, ?_, hroot.rank_le (Nat.le_of_not_lt hless)⟩
      rw [hnone]
      exact List.forall_mem_nil _
  | difference => exact absurd rfl (hminus _ List.mem_append_cons_self)

/-- Every chain without differences has a conventional tree. -/
theorem exists_conventional {e : Expr M} {links : List (Text × Expr M)} (he : e.IsOperand)
    (hlinks : ∀ p ∈ links, p.2.IsOperand) (hminus : ∀ p ∈ links, p.1 ≠ "-") :
    ∃ t, OfChain e links t ∧ t.Conventional := by
  induction links generalizing e with
  | nil => exact ⟨e, .operand he, conventional_of_ne_binary he.ne_binary⟩
  | cons p links ih =>
    obtain ⟨hp, hlinks⟩ := List.forall_mem_cons.mp hlinks
    obtain ⟨hop, hminus⟩ := List.forall_mem_cons.mp hminus
    obtain ⟨t, hchain, ht⟩ := ih hp hlinks hminus
    exact ⟨_, hchain.insertFirst he hop hminus ht⟩

end Expr

/-- The first of the least operators of a chain is at one place only. -/
theorem split_eq_of_least {p q : Text × Expr M} {before before' after after' : List (Text × Expr M)}
    (heq : before ++ p :: after = before' ++ q :: after')
    (hbefore : ∀ x ∈ before.map (·.1), rank p.1 < rank x)
    (hafter : ∀ x ∈ after.map (·.1), rank p.1 ≤ rank x)
    (hbefore' : ∀ x ∈ before'.map (·.1), rank q.1 < rank x)
    (hafter' : ∀ x ∈ after'.map (·.1), rank q.1 ≤ rank x) :
    before = before' ∧ p = q ∧ after = after' := by
  rcases List.append_eq_append_iff.mp heq with ⟨between, rfl, hrest⟩ | ⟨between, rfl, hrest⟩
  · cases between with
    | nil =>
      obtain ⟨rfl, rfl⟩ := List.cons.inj hrest
      exact ⟨(List.append_nil _).symm, rfl, rfl⟩
    | cons x between =>
      obtain ⟨rfl, rfl⟩ := List.cons.inj hrest
      have hlt : rank q.1 < rank p.1 := hbefore' p.1 (by simp)
      have hle : rank p.1 ≤ rank q.1 := hafter q.1 (by simp)
      omega
  · cases between with
    | nil =>
      obtain ⟨rfl, rfl⟩ := List.cons.inj hrest
      exact ⟨List.append_nil _, rfl, rfl⟩
    | cons x between =>
      obtain ⟨rfl, rfl⟩ := List.cons.inj hrest
      have hlt : rank p.1 < rank q.1 := hbefore q.1 (by simp)
      have hle : rank q.1 ≤ rank p.1 := hafter' p.1 (by simp)
      omega

namespace Expr

/-- A chain without differences has no more than one conventional tree. -/
theorem OfChain.eq_of_conventional {e t t' : Expr M} {links : List (Text × Expr M)}
    (h : OfChain e links t) (h' : OfChain e links t') (hminus : ∀ p ∈ links, p.1 ≠ "-")
    (ht : t.Conventional) (ht' : t'.Conventional) : t = t' := by
  induction h generalizing t' with
  | operand alone =>
    generalize hlinks : ([] : List (Text × Expr M)) = links at h'
    cases h' with
    | operand => rfl
    | operation | difference => simp at hlinks
  | @operation e e' left right op before after symbol first second ihfirst ihsecond =>
    generalize hlinks : before ++ (op, e') :: after = links at h' hminus
    cases h' with
    | operand => simp at hlinks
    | difference => exact absurd rfl (hminus _ List.mem_append_cons_self)
    | operation symbol' first' second' =>
      obtain ⟨hbefore', hafter'⟩ := List.forall_mem_append.mp hminus
      have hafter' := (List.forall_mem_cons.mp hafter').2
      rw [← hlinks] at hminus
      obtain ⟨hbefore, hafter⟩ := List.forall_mem_append.mp hminus
      have hafter := (List.forall_mem_cons.mp hafter).2
      obtain ⟨hleft, hright, hroot⟩ := ht
      obtain ⟨hleft', hright', hroot'⟩ := ht'
      rw [LeastAtRoot, first.operators_eq hbefore, second.operators_eq hafter] at hroot
      rw [LeastAtRoot, first'.operators_eq hbefore', second'.operators_eq hafter'] at hroot'
      obtain ⟨rfl, hlink, rfl⟩ := split_eq_of_least hlinks hroot.1 hroot.2 hroot'.1 hroot'.2
      obtain ⟨rfl, rfl⟩ := Prod.mk.inj hlink
      rw [ihfirst first' hbefore hleft hleft', ihsecond second' hafter hright hright']
  | difference => exact absurd rfl (hminus _ List.mem_append_cons_self)

end Expr

end SymCalc
