import Mathlib
import SymCalc.Proofs.Reading

/-!
# The grammar of programs

Phrases of words and the trees that they stand for, as a relation with one rule for each way
of writing. Trees are without positions. An operator goes on with a phrase only from the same
line, and of several operators each is combined with all that follows it.
-/

namespace SymCalc

variable {M : Type}

namespace Expr

mutual

/-- A tree with all positions forgotten. -/
def bare : Expr M → Expr M
  | literal _ c => literal {} c
  | reference ref => reference ⟨{}, ref.name⟩
  | operator op => operator ⟨{}, op.symbol⟩
  | unary _ op right => unary {} ⟨{}, op.symbol⟩ (bare right)
  | binary _ left op right => binary {} (bare left) ⟨{}, op.symbol⟩ (bare right)
  | assign _ target right => assign {} ⟨{}, target.name⟩ (bare right)
  | tuple _ items => tuple {} (bareAll items)
  | matrix _ rows => matrix {} (bareRows rows)
  | ifThen _ test yes => ifThen {} (bare test) (bare yes)
  | ifElse _ test yes no => ifElse {} (bare test) (bare yes) (bare no)
  | lambda _ params _ body => lambda {} (params.map fun p => ⟨{}, p.name⟩) {} (bareAll body)
  | call _ name args => call {} name (bareAll args)
  | ret _ value => ret {} (bare value)
  | declare _ words => declare {} words
  | program _ statements => program {} (bareAll statements)
termination_by structural e => e

/-- Trees with all positions forgotten. -/
def bareAll : List (Expr M) → List (Expr M)
  | [] => []
  | e :: es => bare e :: bareAll es
termination_by structural es => es

/-- Rows of trees with all positions forgotten. -/
def bareRows : List (List (Expr M)) → List (List (Expr M))
  | [] => []
  | row :: rows => bareAll row :: bareRows rows
termination_by structural rows => rows

end

/-- The positions are forgotten in each of several trees. -/
theorem bareAll_eq_map (es : List (Expr M)) : bareAll es = es.map bare := by
  induction es with
  | nil => rfl
  | cons e es ih => rw [bareAll, List.map_cons, ih]

/-- The positions are forgotten in each of several rows. -/
theorem bareRows_eq_map (rows : List (List (Expr M))) : bareRows rows = rows.map (·.map bare) := by
  induction rows with
  | nil => rfl
  | cons row rows ih => rw [bareRows, List.map_cons, ih, bareAll_eq_map]

/-- A tree without positions has none at its root. -/
theorem pos_bare (e : Expr M) : e.bare.pos = {} := by
  cases e <;> rfl

end Expr

/-- The binary operation that words with an operator between them stand for: a difference is the
sum with the negated right side. -/
def Expr.combine (left : Expr M) (symbol : Text) (right : Expr M) : Expr M :=
  if symbol = "-" then Parse.rotate left ⟨{}, "+"⟩ (.unary {} ⟨{}, "-"⟩ right)
  else Parse.rotate left ⟨{}, symbol⟩ right

/-- Trees in parentheses: a single one other than an operation stands for itself. -/
def Expr.parenthesised : List (Expr M) → Expr M
  | [.binary pos left op right] => .tuple {} [.binary pos left op right]
  | [x] => x
  | items => .tuple {} items

/-- Forgetting positions before or after operators are brought into order is the same. -/
theorem Expr.bare_rotate (left right : Expr M) (op : Operator) :
    (Parse.rotate left op right).bare =
      Parse.rotate left.bare ⟨{}, op.symbol⟩ right.bare := by
  unfold Parse.rotate
  cases right with
  | binary pos inner o last =>
    simp only [bare, pos_bare]
    split <;> rfl
  | _ => simp only [bare, pos_bare]

/-- A binary operation is where its left operand is. -/
theorem Expr.pos_combine (left right : Expr M) (symbol : Text) :
    (left.combine symbol right).pos = left.pos := by
  have hrotate (op : Operator) (right : Expr M) : (Parse.rotate left op right).pos = left.pos := by
    unfold Parse.rotate
    dsimp only
    repeat' split
    all_goals rfl
  unfold Expr.combine
  split
  · exact hrotate _ _
  · exact hrotate _ _

/-- With a right operand that is no operation, an operation is put together as it stands. -/
theorem Expr.combine_of_ne_binary {left right : Expr M} {symbol : Text} (hminus : symbol ≠ "-")
    (hright : ∀ pos l op r, right ≠ .binary pos l op r) :
    left.combine symbol right = .binary left.pos left ⟨{}, symbol⟩ right := by
  rw [Expr.combine, if_neg hminus]
  cases right with
  | binary pos l op r => exact absurd rfl (hright pos l op r)
  | _ => rfl

/-- What stands in parentheses is no operation. -/
theorem Expr.parenthesised_ne_binary (items : List (Expr M)) (pos : Position) (left : Expr M)
    (op : Operator) (right : Expr M) : Expr.parenthesised items ≠ .binary pos left op right := by
  unfold Expr.parenthesised
  split
  · exact nofun
  · rename_i hne
    rintro rfl
    exact hne _ _ _ _ rfl
  · exact nofun

/-- A word is the given punctuation. -/
def Word.IsPunct (w : Word) (text : Text) : Prop := w.kind = .punctuation ∧ w.text = text

/-- A word is the given keyword. -/
def Word.IsKeyword (w : Word) (text : Text) : Prop := w.kind = .keyword ∧ w.text = text

/-- A word is a binary operator with a priority, on the line of the word before. -/
structure Word.Joins (w : Word) : Prop where
  /-- It is an operator. -/
  kind : w.kind = .operator
  /-- It is not the first word of its line. -/
  line : w.newline = false
  /-- It has a priority. -/
  priority : (priority? w.text).isSome = true

/-- An operator with a priority is none of those without. -/
theorem Word.Joins.text_ne {w : Word} {text : Text} (h : w.Joins)
    (htext : (priority? text).isSome = false) : w.text ≠ text := by
  rintro rfl
  rw [h.priority] at htext
  cases htext

/-- An operator with a priority is known. -/
theorem Word.Joins.known {w : Word} (h : w.Joins) : ¬ (priority? w.text).isNone = true := by
  rw [Option.isNone_iff_eq_none, ← Option.not_isSome_iff_eq_none, h.priority]
  decide

/-- Phrases with a separator between them. -/
inductive Separated (separator : Text) : List (List Word) → List Word → Prop where
  | nil : Separated separator [] []
  | single (ws : List Word) : Separated separator [ws] ws
  | cons {ws us vs : List Word} {w : Word} {uss : List (List Word)} (punct : w.IsPunct separator)
      (rest : Separated separator (us :: uss) vs) :
      Separated separator (ws :: us :: uss) (ws ++ w :: vs)

/-- The statements of a body. Each ends at a semicolon, or where what follows cannot belong
to it. -/
inductive Body : List (List Word) → List Word → Prop where
  | nil : Body [] []
  | semicolon {ws vs : List Word} {w : Word} {vss : List (List Word)} (punct : w.IsPunct ";")
      (rest : Body vss vs) : Body (ws :: vss) (ws ++ w :: vs)
  | adjacent {ws vs : List Word} {vss : List (List Word)} (stops : Stops vs) (rest : Body vss vs) :
      Body (ws :: vss) (ws ++ vs)

/-- Phrases with a separator between them, each on the line where the one before ends. -/
inductive Row (separator : Text) : List (List Word) → List Word → Prop where
  | single (ws : List Word) : Row separator [ws] ws
  | cons {ws vs : List Word} {w v : Word} {vss : List (List Word)} (punct : w.IsPunct separator)
      (before : w.newline = false) (after : v.newline = false)
      (rest : Row separator vss (v :: vs)) :
      Row separator (ws :: vss) (ws ++ w :: v :: vs)

/-- The rows of a matrix, each on a line of its own, with commas between the cells. -/
inductive Rows : List (List (List Word)) → List Word → Prop where
  | single {cells : List (List Word)} {ws : List Word} (row : Row "," cells ws) : Rows [cells] ws
  | cons {cells : List (List Word)} {rows : List (List (List Word))} {ws vs : List Word} {v : Word}
      (row : Row "," cells ws) (line : v.newline = true) (rest : Rows rows (v :: vs)) :
      Rows (cells :: rows) (ws ++ v :: vs)

/-- A row is a list with separators. -/
theorem Row.separated {separator : Text} {pieces : List (List Word)} {ws : List Word}
    (h : Row separator pieces ws) : Separated separator pieces ws := by
  induction h with
  | single ws => exact .single ws
  | @cons ws vs w v vss punct before after rest ih =>
    cases vss with
    | nil => cases rest
    | cons us uss => exact .cons punct ih

/-- A row with semicolons is a body. -/
theorem Row.body {pieces : List (List Word)} {ws : List Word} (h : Row ";" pieces ws) :
    Body pieces ws := by
  induction h with
  | single ws =>
    have hbody : Body [ws] (ws ++ []) := .adjacent ⟨rfl, rfl⟩ .nil
    rw [List.append_nil] at hbody
    exact hbody
  | cons punct before after rest ih => exact .semicolon punct ih

/-- A list with separators has at most one member more than it has words, and no member has
more words than the list. -/
theorem Separated.length_le {separator : Text} {pieces : List (List Word)} {ws : List Word}
    (h : Separated separator pieces ws) :
    pieces.length ≤ ws.length + 1 ∧ ∀ p ∈ pieces, p.length ≤ ws.length := by
  induction h with
  | nil => simp
  | single ws => simp
  | cons punct rest ih =>
    obtain ⟨hcount, hmembers⟩ := ih
    constructor
    · simp only [List.length_cons, List.length_append] at hcount ⊢
      omega
    · intro p hp
      rw [List.length_append, List.length_cons]
      rcases List.mem_cons.mp hp with rfl | hp
      · omega
      · have := hmembers p hp
        omega

/-- A body of statements that are not empty has at most as many statements as words, and no
statement has more words than the body. -/
theorem Body.length_le {pieces : List (List Word)} {ws : List Word} (h : Body pieces ws)
    (hpos : ∀ p ∈ pieces, 0 < p.length) :
    pieces.length ≤ ws.length ∧ ∀ p ∈ pieces, p.length ≤ ws.length := by
  induction h with
  | nil => simp
  | semicolon punct rest ih =>
    obtain ⟨_, hrest⟩ := List.forall_mem_cons.mp hpos
    obtain ⟨hcount, hmembers⟩ := ih hrest
    rw [List.length_append, List.length_cons, List.length_cons]
    refine ⟨by omega, List.forall_mem_cons.mpr ⟨by omega, fun p hp => ?_⟩⟩
    have := hmembers p hp
    omega
  | adjacent stops rest ih =>
    obtain ⟨hfirst, hrest⟩ := List.forall_mem_cons.mp hpos
    obtain ⟨hcount, hmembers⟩ := ih hrest
    rw [List.length_append, List.length_cons]
    refine ⟨by omega, List.forall_mem_cons.mpr ⟨by omega, fun p hp => ?_⟩⟩
    have := hmembers p hp
    omega

/-- A row of cells that are not empty has words, at most one cell more than it has words, and no
cell has more words than the row. -/
theorem Row.length_le {separator : Text} {cells : List (List Word)} {ws : List Word}
    (h : Row separator cells ws) (hpos : ∀ p ∈ cells, 0 < p.length) :
    0 < ws.length ∧ cells.length ≤ ws.length + 1 ∧ ∀ p ∈ cells, p.length ≤ ws.length := by
  induction h with
  | single ws => simpa using hpos
  | cons punct before after rest ih =>
    obtain ⟨_, hrest⟩ := List.forall_mem_cons.mp hpos
    obtain ⟨_, hcount, hcells⟩ := ih hrest
    simp only [List.length_append, List.length_cons] at hcount hcells ⊢
    refine ⟨by omega, by omega, List.forall_mem_cons.mpr ⟨by omega, fun p hp => ?_⟩⟩
    have := hcells p hp
    omega

/-- A matrix of cells that are not empty has at most as many rows as words; no row has more than
one cell more than the matrix has words, and no cell has more words than the matrix. -/
theorem Rows.length_le {rows : List (List (List Word))} {ws : List Word} (h : Rows rows ws)
    (hpos : ∀ cells ∈ rows, ∀ p ∈ cells, 0 < p.length) :
    rows.length ≤ ws.length ∧
      ∀ cells ∈ rows, cells.length ≤ ws.length + 1 ∧ ∀ p ∈ cells, p.length ≤ ws.length := by
  induction h with
  | single row =>
    obtain ⟨hwords, hcells⟩ := row.length_le (List.forall_mem_singleton.mp hpos)
    exact ⟨hwords, List.forall_mem_singleton.mpr hcells⟩
  | cons row line rest ih =>
    obtain ⟨hfirst, hothers⟩ := List.forall_mem_cons.mp hpos
    obtain ⟨hwords, hcells, hpieces⟩ := row.length_le hfirst
    obtain ⟨hcount, hrows⟩ := ih hothers
    rw [List.length_append]
    refine ⟨by rw [List.length_cons]; omega, List.forall_mem_cons.mpr ⟨⟨by omega, ?_⟩, ?_⟩⟩
    · intro p hp
      have := hpieces p hp
      omega
    · intro cells hmem
      obtain ⟨hlength, hinside⟩ := hrows cells hmem
      refine ⟨by omega, fun p hp => ?_⟩
      have := hinside p hp
      omega

/-- The kinds of phrases. A phrase is closed when its last part is a block, so that an operator
that follows does not belong to that part. -/
inductive Category where
  /-- What an operator may follow: a leaf, a call, parentheses or a matrix, perhaps behind
  prefix operators. -/
  | primary
  /-- A condition, a function or a declaration. -/
  | block
  /-- A return statement, perhaps behind prefix operators. -/
  | tail (closed : Bool)
  /-- A statement. -/
  | statement (closed : Bool)
  /-- A statement before something that ends it. -/
  | whole
  /-- A member of a list: a closed statement may go on with an operator there. -/
  | member
  deriving DecidableEq

/-- The literal that a name behind a backquote is. -/
def Constant.quoted [Magnitude M] (name : Text) : Constant M :=
  if name = "i" then .scalar (.poly (.term .imaginaryUnit))
  else .scalar (.poly (.term (.named name)))

/-- The phrases of each kind with their trees. -/
inductive Phrase [Numeric M] : Category → List Word → Expr M → Prop where
  | number {w : Word} {m : M} (kind : w.kind = .digit) (value : Numeric.read? w.text = some m) :
      Phrase .primary [w] (.literal {} (.scalar (.number m)))
  | boolean {w : Word} (b : Bool) (word : w.IsKeyword (if b then "true" else "false")) :
      Phrase .primary [w] (.literal {} (.boolean b))
  | reference {w : Word} (kind : w.kind = .identifier) :
      Phrase .primary [w] (.reference ⟨{}, w.text⟩)
  | quoted {q w : Word} (quote : q.kind = .operator ∧ q.text = "`") (kind : w.kind = .identifier) :
      Phrase .primary [q, w] (.literal {} (.quoted w.text))
  | call {w o c : Word} {args : List (List Word × Expr M)} {ws : List Word}
      (kind : w.kind = .identifier) (start : o.IsPunct "(") (line : o.newline = false)
      (stop : c.IsPunct ")") (list : Separated "," (args.map (·.1)) ws)
      (members : ∀ p ∈ args, Phrase .member p.1 p.2) :
      Phrase .primary (w :: o :: (ws ++ [c])) (.call {} w.text (args.map (·.2)))
  | parentheses {o c : Word} {items : List (List Word × Expr M)} {ws : List Word}
      (start : o.IsPunct "(") (stop : c.IsPunct ")") (nonempty : items ≠ [])
      (list : Separated "," (items.map (·.1)) ws) (members : ∀ p ∈ items, Phrase .member p.1 p.2) :
      Phrase .primary (o :: (ws ++ [c])) (.parenthesised (items.map (·.2)))
  | matrix {o c : Word} {rows : List (List (List Word × Expr M))} {ws : List Word}
      (start : o.IsPunct "[") (stop : c.IsPunct "]")
      (list : Rows (rows.map (·.map (·.1))) ws) (full : ∃ width, ∀ row ∈ rows, row.length = width)
      (cells : ∀ row ∈ rows, ∀ p ∈ row, Phrase .whole p.1 p.2) :
      Phrase .primary (o :: (ws ++ [c])) (.matrix {} (rows.map (·.map (·.2))))
  | prefixPrimary {o : Word} {ws : List Word} {e : Expr M} (kind : o.kind = .operator)
      (symbol : isUnaryOperator o.text = true) (right : Phrase .primary ws e) :
      Phrase .primary (o :: ws) (.unary {} ⟨{}, o.text⟩ e)
  | prefixBlock {o : Word} {ws : List Word} {e : Expr M} (kind : o.kind = .operator)
      (symbol : isUnaryOperator o.text = true) (right : Phrase .block ws e) :
      Phrase .primary (o :: ws) (.unary {} ⟨{}, o.text⟩ e)
  | prefixClosed {o : Word} {ws : List Word} {e : Expr M} (kind : o.kind = .operator)
      (symbol : isUnaryOperator o.text = true) (right : Phrase (.tail true) ws e) :
      Phrase .primary (o :: ws) (.unary {} ⟨{}, o.text⟩ e)
  | prefixTail {o : Word} {ws : List Word} {e : Expr M} (kind : o.kind = .operator)
      (symbol : isUnaryOperator o.text = true) (right : Phrase (.tail false) ws e) :
      Phrase (.tail false) (o :: ws) (.unary {} ⟨{}, o.text⟩ e)
  | ifThen {i t n : Word} {ws vs : List Word} {test yes : Expr M} (start : i.IsKeyword "if")
      (condition : Phrase .whole ws test) (between : t.IsKeyword "then")
      (first : Phrase .whole vs yes) (stop : n.IsKeyword "end") :
      Phrase .block (i :: (ws ++ t :: (vs ++ [n]))) (.ifThen {} test yes)
  | ifElse {i t l n : Word} {ws vs us : List Word} {test yes no : Expr M}
      (start : i.IsKeyword "if") (condition : Phrase .whole ws test) (between : t.IsKeyword "then")
      (first : Phrase .whole vs yes) (otherwise : l.IsKeyword "else") (second : Phrase .whole us no)
      (stop : n.IsKeyword "end") :
      Phrase .block (i :: (ws ++ t :: (vs ++ l :: (us ++ [n])))) (.ifElse {} test yes no)
  | lambda {l o c b d : Word} {params : List (List Word × Text)} {body : List (List Word × Expr M)}
      {ws vs : List Word} (start : l.IsKeyword "lambda") (opens : o.IsPunct "(")
      (list : Separated "," (params.map (·.1)) ws)
      (names : ∀ p ∈ params, Phrase .member p.1 (.reference ⟨{}, p.2⟩)) (closes : c.IsPunct ")")
      (begins : b.IsPunct "\x7b") (statements : Body (body.map (·.1)) vs)
      (members : ∀ p ∈ body, Phrase .member p.1 p.2) (stop : d.IsPunct "\x7d") :
      Phrase .block (l :: o :: (ws ++ c :: b :: (vs ++ [d])))
        (.lambda {} (params.map fun p => ⟨{}, p.2⟩) {} (body.map (·.2)))
  | declare {s operator left right priority function : Word} (start : s.IsKeyword "set") :
      Phrase .block [s, operator, left, right, priority, function]
        (.declare {} ⟨operator.text, left.text, right.text, priority.text, function.text⟩)
  | ret {r : Word} {ws : List Word} {e : Expr M} {closed : Bool} (start : r.IsKeyword "return")
      (value : Phrase (.statement closed) ws e) : Phrase (.tail closed) (r :: ws) (.ret {} e)
  | ofPrimary {ws : List Word} {e : Expr M} (h : Phrase .primary ws e) :
      Phrase (.statement false) ws e
  | ofBlock {ws : List Word} {e : Expr M} (h : Phrase .block ws e) : Phrase (.statement true) ws e
  | ofTail {ws : List Word} {e : Expr M} {closed : Bool} (h : Phrase (.tail closed) ws e) :
      Phrase (.statement closed) ws e
  | operation {o : Word} {ws vs : List Word} {left right : Expr M} {closed : Bool}
      (first : Phrase .primary ws left) (joins : o.Joins)
      (second : Phrase (.statement closed) vs right) :
      Phrase (.statement closed) (ws ++ o :: vs) (left.combine o.text right)
  | assignment {o : Word} {ws vs : List Word} {ref : Ref} {right : Expr M} {closed : Bool}
      (target : Phrase .primary ws (.reference ref)) (kind : o.kind = .operator)
      (symbol : o.text = "=") (line : o.newline = false)
      (value : Phrase (.statement closed) vs right) :
      Phrase (.statement closed) (ws ++ o :: vs) (.assign {} ref right)
  | whole {ws : List Word} {e : Expr M} {closed : Bool} (h : Phrase (.statement closed) ws e) :
      Phrase .whole ws e
  | member {ws : List Word} {e : Expr M} (h : Phrase .whole ws e) : Phrase .member ws e
  | resumed {o : Word} {ws vs : List Word} {left right : Expr M}
      (first : Phrase (.statement true) ws left) (joins : o.Joins)
      (second : Phrase .whole vs right) :
      Phrase .member (ws ++ o :: vs) (left.combine o.text right)

/-- The root of a phrase has no position. -/
theorem Phrase.pos_eq [Numeric M] {category : Category} {ws : List Word} {e : Expr M}
    (h : Phrase category ws e) : e.pos = {} := by
  induction h with
  | @parentheses o c items ws start stop nonempty list members ih =>
    unfold Expr.parenthesised
    split
    · rfl
    · rename_i x _ hitems
      obtain ⟨p, hp, rfl⟩ := List.mem_map.mp (hitems ▸ List.mem_singleton_self x)
      exact ih p hp
    · rfl
  | ofPrimary _ ih | ofBlock _ ih | ofTail _ ih | whole _ ih | member _ ih => exact ih
  | operation _ _ _ ih | resumed _ _ _ ih => rw [Expr.pos_combine, ih]
  | _ => rfl

/-- Where an operand is wanted a phrase is no operation. -/
theorem Phrase.ne_binary [Numeric M] {category : Category} {ws : List Word} {e : Expr M}
    (h : Phrase category ws e)
    (hoperand : category = .primary ∨ category = .block ∨ ∃ closed, category = .tail closed) :
    ∀ pos left op right, e ≠ .binary pos left op right := by
  cases h with
  | parentheses => exact Expr.parenthesised_ne_binary _
  | ofPrimary | ofBlock | ofTail | operation | assignment | whole | member | resumed =>
    simp at hoperand
  | _ => exact nofun

end SymCalc
