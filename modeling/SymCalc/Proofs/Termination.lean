import Mathlib
import SymCalc.Proofs.CanonicalValues
import SymCalc.Proofs.NestedExponents
import SymCalc.Proofs.StackDiscipline

/-!
# Every evaluation ends

A step of a process brings in no operator that stands on its own, so neither does any number of
steps. Main statement: from any statements, any machine and
any limit, evaluation halts after finitely many steps with what the run comes to, which is a value
or a failure unless an operator that stands on its own is met; and the comparisons that it makes
go no deeper than exponents are nested.
-/

namespace SymCalc

open Eval

variable {M : Type} {op : Operator}

variable (op) in
/-- An operator stands on its own in a tree. -/
inductive Expr.Contains : Expr M → Prop where
  /-- It is the tree. -/
  | here : Contains (.operator op)
  /-- It stands in a tree directly below. -/
  | inside {e x : Expr M} (mem : x ∈ e.children) (below : Contains x) : Contains e

variable (op) in
/-- An operator stands on its own in the body of a function that a value holds. -/
inductive Value.Contains : Value M → Prop where
  /-- In an item of a tuple. -/
  | item {items : List (Value M)} {v : Value M} (mem : v ∈ items) (below : Contains v) :
      Contains (.tuple items)
  /-- In a value that a function has captured. -/
  | captured {c : Closure M} {b : Text × Value M} (mem : b ∈ c.captured) (below : Contains b.2) :
      Contains (.closure c)
  /-- In the body of the function. -/
  | body {c : Closure M} {e : Expr M} (mem : e ∈ c.body) (below : e.Contains op) :
      Contains (.closure c)

/-- A constant holds no function. -/
theorem Constant.not_contains : (c : Constant M) → ¬c.value.Contains op
  | .scalar _ | .matrix _ | .boolean _ | .unit => nofun
  | .tuple items => by
    rw [value, values_eq_map]
    rintro ⟨mem, below⟩
    obtain ⟨c, hc, rfl⟩ := List.mem_map.mp mem
    have hless := List.sizeOf_lt_of_mem hc
    exact not_contains c below

section

variable (op)

/-- An operator stands on its own in what values are wanted for. -/
def Use.Contains : Use M → Prop
  | .tuple => False
  | .call _ _ c => (Value.closure c).Contains op

/-- An operator is met, or stands on its own in the value of a return statement. -/
def Exit.Contains : Exit M → Prop
  | .returned v => v.Contains op
  | .fault _ => False
  | .stray met => met = op

/-- An operator stands on its own in what a process is busy with. -/
def Focus.Contains : Focus M → Prop
  | .eval e => e.Contains op
  | .value v => v.Contains op
  | .exit x => x.Contains op
  | .gather use values later =>
    use.Contains op ∨ (∃ v ∈ values, v.Contains op) ∨ ∃ e ∈ later, e.Contains op
  | .rows _ _ later => ∃ e ∈ later.flatten, e.Contains op
  | .cells _ _ _ later others => (∃ e ∈ later, e.Contains op) ∨ ∃ e ∈ others.flatten, e.Contains op
  | .block last later => last.Contains op ∨ ∃ e ∈ later, e.Contains op

/-- An operator stands on its own in what waits for a value. -/
def Wait.Contains : Wait M → Prop
  | .unary _ | .assign _ | .ret => False
  | .left _ operand => operand.Contains op
  | .right operand _ => operand.Contains op
  | .gather use values later =>
    use.Contains op ∨ (∃ v ∈ values, v.Contains op) ∨ ∃ e ∈ later, e.Contains op
  | .cells _ _ _ later others => (∃ e ∈ later, e.Contains op) ∨ ∃ e ∈ others.flatten, e.Contains op
  | .branch _ yes no => yes.Contains op ∨ ∃ e ∈ no, e.Contains op
  | .block later => ∃ e ∈ later, e.Contains op
  | .body caller => ∃ b ∈ caller, b.2.Contains op

/-- An operator stands on its own somewhere in a process. -/
inductive Process.Contains (p : Process M) : Prop where
  /-- In what it is busy with. -/
  | focus (h : p.focus.Contains op)
  /-- In what waits for a value. -/
  | wait {w : Wait M} (mem : w ∈ p.waits) (h : w.Contains op)
  /-- In a value that is bound. -/
  | bound {b : Text × Value M} (mem : b ∈ p.machine.env.bindings) (h : b.2.Contains op)

end

namespace Process.Contains

variable {focus focus' : Focus M} {w : Wait M} {ws : List (Wait M)} {m m' : Machine M}

/-- What waits and what is bound stay the same. -/
theorem keep (h : Contains op ⟨focus', ws, m'⟩) (hm : m'.env.bindings = m.env.bindings)
    (hfocus : focus'.Contains op → Contains op ⟨focus, ws, m⟩) : Contains op ⟨focus, ws, m⟩ := by
  cases h with
  | focus h => exact hfocus h
  | wait mem h => exact .wait mem h
  | bound mem h => exact .bound (hm ▸ mem) h

/-- Something else waits. -/
theorem push (h : Contains op ⟨focus', w :: ws, m'⟩) (hm : m'.env.bindings = m.env.bindings)
    (hfocus : focus'.Contains op → focus.Contains op) (hwait : w.Contains op → focus.Contains op) :
    Contains op ⟨focus, ws, m⟩ := by
  cases h with
  | focus h => exact .focus (hfocus h)
  | bound mem h => exact .bound (hm ▸ mem) h
  | wait mem h =>
    rcases List.mem_cons.mp mem with rfl | mem
    · exact .focus (hwait h)
    · exact .wait mem h

/-- In what a process is busy with, or in what waits for that. -/
theorem of_or (h : focus.Contains op ∨ w.Contains op) : Contains op ⟨focus, w :: ws, m⟩ := by
  rcases h with h | h
  · exact .focus h
  · exact .wait (List.mem_cons.mpr (.inl rfl)) h

/-- Something waits no longer. -/
theorem pop (h : Contains op ⟨focus', ws, m'⟩) (hm : m'.env.bindings = m.env.bindings)
    (hfocus : focus'.Contains op → focus.Contains op ∨ w.Contains op) :
    Contains op ⟨focus, w :: ws, m⟩ := by
  cases h with
  | focus h => exact of_or (hfocus h)
  | wait mem h => exact .wait (List.mem_cons.mpr (.inr mem)) h
  | bound mem h => exact .bound (hm ▸ mem) h

/-- Something else waits in its place. -/
theorem swap {w' : Wait M} (h : Contains op ⟨focus', w' :: ws, m'⟩)
    (hm : m'.env.bindings = m.env.bindings)
    (hfocus : focus'.Contains op → focus.Contains op ∨ w.Contains op)
    (hwait : w'.Contains op → focus.Contains op ∨ w.Contains op) :
    Contains op ⟨focus, w :: ws, m⟩ := by
  cases h with
  | focus h => exact of_or (hfocus h)
  | bound mem h => exact .bound (hm ▸ mem) h
  | wait mem h =>
    rcases List.mem_cons.mp mem with rfl | mem
    · exact of_or (hwait h)
    · exact .wait (List.mem_cons.mpr (.inr mem)) h

end Process.Contains

namespace Value

variable [Magnitude M] {u v w : Value M} {symbol : Text}

omit [Magnitude M] in
/-- A result that holds no function. -/
theorem not_contains_map {α : Type} {x : Except Fault α} {f : α → Value M}
    (h : x.map f = .ok w) (hf : ∀ a, ¬(f a).Contains op) : ¬w.Contains op := by
  cases x with
  | ok a =>
    cases h
    exact hf a
  | error fault => cases h

/-- The result of a binary operator holds no function. -/
theorem not_contains_binary (h : binary u symbol v = .ok w) : ¬w.Contains op := by
  unfold binary at h
  split at h
  · unfold operate at h
    split at h
    case h_2 | h_4 | h_8 | h_9 => exact not_contains_map h fun _ => nofun
    all_goals cases h <;> exact nofun
  · cases h

/-- The result of a unary operator holds no function. -/
theorem not_contains_unary (h : unary symbol v = .ok w) : ¬w.Contains op := by
  unfold unary at h
  split at h
  · unfold operateUnary at h
    split at h <;> cases h <;> exact nofun
  · cases h

end Value

namespace Process

variable {ws : List (Wait M)} {m : Machine M}

/-- Starting on an expression brings in no operator. -/
theorem contains_start {e : Expr M} (h : (start e ws m).Contains op) :
    Contains op ⟨.eval e, ws, m⟩ := by
  have hbelow {x : Expr M} (mem : x ∈ e.children) (hx : x.Contains op) :
      Focus.Contains op (.eval e) := .inside mem hx
  cases e with
  | literal pos c => exact h.keep rfl (fun hc => absurd hc c.not_contains)
  | reference ref =>
    rw [start, lookup_eq] at h
    dsimp only at h
    cases hfind : m.env.bindings.find? ref.name with
    | none =>
      rw [hfind] at h
      exact h.keep rfl False.elim
    | some v =>
      rw [hfind] at h
      exact h.keep rfl (fun hv => .bound (Bindings.mem_of_find? hfind) hv)
  | operator met => exact h.keep rfl (fun hmet => .focus (hmet ▸ .here))
  | unary pos symbol right => exact h.push rfl (hbelow (by simp [Expr.children])) False.elim
  | binary pos left symbol right =>
    exact h.push rfl (hbelow (by simp [Expr.children])) (hbelow (by simp [Expr.children]))
  | assign pos target right => exact h.push rfl (hbelow (by simp [Expr.children])) False.elim
  | tuple pos items =>
    refine h.keep rfl ?_
    rintro (hnone | ⟨v, mem, -⟩ | ⟨x, mem, hx⟩)
    · exact hnone.elim
    · cases mem
    · exact .focus (hbelow mem hx)
  | matrix pos rows =>
    refine h.keep rfl ?_
    rintro ⟨x, mem, hx⟩
    exact .focus (hbelow mem hx)
  | ifThen pos test yes =>
    refine h.push rfl (hbelow (by simp [Expr.children])) ?_
    rintro (hyes | ⟨x, mem, -⟩)
    · exact hbelow (by simp [Expr.children]) hyes
    · cases mem
  | ifElse pos test yes no =>
    refine h.push rfl (hbelow (by simp [Expr.children])) ?_
    rintro (hyes | ⟨x, mem, hno⟩)
    · exact hbelow (by simp [Expr.children]) hyes
    · cases mem
      exact hbelow (by simp [Expr.children]) hno
  | lambda pos params bodyPos body =>
    refine h.keep rfl ?_
    intro hclosure
    cases hclosure with
    | captured mem hb => exact .bound mem hb
    | body mem hx => exact .focus (hbelow mem hx)
  | call pos name args =>
    rw [start] at h
    rcases callee_cases name args.length { m with pos := (Expr.call pos name args).pos } with
      ⟨c, mem, heq⟩ | ⟨fault, -, heq⟩
    · rw [heq] at h
      refine h.keep rfl ?_
      rintro (hc | ⟨v, hv, -⟩ | ⟨x, hx, hcontains⟩)
      · exact .bound mem hc
      · cases hv
      · exact .focus (hbelow hx hcontains)
    · rw [heq] at h
      exact h.keep rfl False.elim
  | ret pos value => exact h.push rfl (hbelow (by simp [Expr.children])) False.elim
  | declare pos words => exact h.keep rfl False.elim
  | program pos statements =>
    refine h.keep rfl ?_
    rintro (hunit | ⟨x, mem, hx⟩)
    · cases hunit
    · exact .focus (hbelow mem hx)

/-- Using values brings in no operator. -/
theorem contains_apply {limit : Nat} {use : Use M} {values : List (Value M)}
    (h : (apply limit use values ws m).Contains op) :
    Contains op ⟨.gather use values [], ws, m⟩ := by
  cases use with
  | tuple =>
    have htuple (hitems : (Value.tuple values).Contains op) :
        Contains op ⟨.gather .tuple values [], ws, m⟩ := by
      obtain ⟨mem, hv⟩ := hitems
      exact .focus (.inr (.inl ⟨_, mem, hv⟩))
    rcases values with _ | ⟨v, _ | ⟨u, values⟩⟩
    · exact h.keep rfl htuple
    · exact h.keep rfl fun hv => .focus (.inr (.inl ⟨v, by simp, hv⟩))
    · exact h.keep rfl htuple
  | call pos name c =>
    rw [apply] at h
    split at h
    · cases h with
      | focus h =>
        rcases h with hunit | ⟨x, mem, hx⟩
        · cases hunit
        · exact .focus (.inl (.body mem hx))
      | wait mem h =>
        rcases List.mem_cons.mp mem with rfl | mem
        · obtain ⟨b, hb, hcontains⟩ := h
          exact .bound hb hcontains
        · exact .wait mem h
      | bound mem h =>
        rcases Closure.mem_bindArgs mem with hargs | hcaptured
        · exact .focus (.inr (.inl ⟨_, hargs, h⟩))
        · exact .focus (.inl (.captured hcaptured h))
    · exact h.keep rfl False.elim

/-- A failed operation or a value without functions brings in no operator. -/
theorem contains_lift {w : Wait M} {focus : Focus M} {pos : Position}
    {x : Except Fault (Value M)} (hx : ∀ v, x = .ok v → ¬v.Contains op)
    (h : (settle give ws (lift x { m with pos := pos })).Contains op) :
    Contains op ⟨focus, w :: ws, m⟩ := by
  cases x with
  | ok v => exact h.pop rfl fun hv => absurd hv (hx v rfl)
  | error fault => exact h.pop rfl nofun

variable [Numeric M]

/-- Going on with a value brings in no operator. -/
theorem contains_resume {v : Value M} {w : Wait M} (h : (resume v w ws m).Contains op) :
    Contains op ⟨.value v, w :: ws, m⟩ := by
  cases w with
  | unary symbol => exact contains_lift (fun _ => Value.not_contains_unary) h
  | left symbol right => exact h.swap rfl .inr .inl
  | right u symbol => exact contains_lift (fun _ => Value.not_contains_binary) h
  | assign name =>
    cases h with
    | focus h => cases h
    | wait mem h => exact .wait (List.mem_cons.mpr (.inr mem)) h
    | bound mem h =>
      rcases Bindings.mem_insert mem with rfl | mem
      · exact .focus h
      · exact .bound mem h
  | gather use values later =>
    refine h.pop rfl ?_
    rintro (huse | ⟨u, mem, hu⟩ | hlater)
    · exact .inr (.inl huse)
    · rcases List.mem_append.mp mem with mem | mem
      · exact .inr (.inr (.inl ⟨u, mem, hu⟩))
      · exact .inl (List.mem_singleton.mp mem ▸ hu)
    · exact .inr (.inr (.inr hlater))
  | cells pos done cells later rows =>
    rw [resume] at h
    split at h
    · exact h.pop rfl nofun
    · exact h.pop rfl .inr
  | branch pos yes no =>
    unfold resume at h
    dsimp only at h
    split at h
    · exact h.pop rfl fun hyes => .inr (.inl hyes)
    · exact h.pop rfl fun hno => .inr (.inr ⟨_, rfl, hno⟩)
    · exact h.pop rfl nofun
    · exact h.pop rfl nofun
  | ret => exact h.pop rfl .inl
  | block later => exact h.pop rfl id
  | body caller =>
    cases h with
    | focus h => exact .focus h
    | wait mem h => exact .wait (List.mem_cons.mpr (.inr mem)) h
    | bound mem h => exact .wait (List.mem_cons.mpr (.inl rfl)) ⟨_, mem, h⟩

omit [Numeric M] in
/-- Giving up what waits brings in no operator. -/
theorem contains_unwind {x : Exit M} {w : Wait M} (h : (unwind x w ws m).Contains op) :
    Contains op ⟨.exit x, w :: ws, m⟩ := by
  cases w with
  | body caller =>
    have hcaller {b : Text × Value M} (mem : b ∈ caller) (hb : b.2.Contains op) :
        Contains op ⟨.exit x, .body caller :: ws, m⟩ :=
      .of_or (.inr ⟨b, mem, hb⟩)
    cases x with
    | returned v | fault cause | stray met =>
      cases h with
      | focus h => exact .focus h
      | wait mem h => exact .wait (List.mem_cons.mpr (.inr mem)) h
      | bound mem h => exact hcaller mem h
  | _ => exact h.pop rfl .inl

/-- A step brings in no operator on its own. -/
theorem contains_of_step {limit : Nat} {p q : Process M} (hstep : p.step limit = some q)
    (h : q.Contains op) : p.Contains op := by
  obtain ⟨focus, ws, m⟩ := p
  cases focus with
  | eval e =>
    cases hstep
    exact contains_start h
  | gather use values later =>
    cases later with
    | nil =>
      cases hstep
      exact contains_apply h
    | cons e es =>
      cases hstep
      refine h.push rfl (fun he => .inr (.inr ⟨e, by simp, he⟩)) ?_
      rintro (huse | hvalues | ⟨x, mem, hx⟩)
      · exact .inl huse
      · exact .inr (.inl hvalues)
      · exact .inr (.inr ⟨x, List.mem_cons_of_mem e mem, hx⟩)
  | rows pos done later =>
    cases later with
    | nil =>
      cases hstep
      cases hrows : Matrix.ofRows done with
      | ok a =>
        rw [hrows] at h
        exact h.keep rfl nofun
      | error fault =>
        rw [hrows] at h
        exact h.keep rfl nofun
    | cons row rows =>
      cases hstep
      refine h.keep rfl ?_
      rintro (⟨x, mem, hx⟩ | ⟨x, mem, hx⟩)
      · exact .focus ⟨x, List.mem_append_left _ mem, hx⟩
      · exact .focus ⟨x, List.mem_append_right _ mem, hx⟩
  | cells pos done cells later rows =>
    cases later with
    | nil =>
      cases hstep
      exact h.keep rfl fun hrows => .focus (.inr hrows)
    | cons e es =>
      cases hstep
      refine h.push rfl (fun he => .inl ⟨e, by simp, he⟩) ?_
      rintro (⟨x, mem, hx⟩ | hrows)
      · exact .inl ⟨x, List.mem_cons_of_mem e mem, hx⟩
      · exact .inr hrows
  | block last later =>
    cases later with
    | nil =>
      cases hstep
      exact h.keep rfl fun hlast => .focus (.inl hlast)
    | cons e es =>
      cases hstep
      refine h.push rfl (fun he => .inr ⟨e, by simp, he⟩) ?_
      rintro ⟨x, mem, hx⟩
      exact .inr ⟨x, List.mem_cons_of_mem e mem, hx⟩
  | value v =>
    cases ws with
    | nil => cases hstep
    | cons w ws =>
      cases hstep
      exact contains_resume h
  | exit x =>
    cases ws with
    | nil => cases hstep
    | cons w ws =>
      cases hstep
      exact contains_unwind h

/-- No number of steps brings in an operator on its own. -/
theorem contains_of_after {limit n : Nat} {p : Process M} (h : (p.after limit n).Contains op) :
    p.Contains op := by
  induction n generalizing p with
  | zero => exact h
  | succ n ih =>
    rw [after] at h
    split at h
    · exact h
    · rename_i q hstep
      exact contains_of_step hstep (ih h)

end Process

variable [Numeric M]

omit [Numeric M] in
/-- A process that has met an operator contains it. -/
theorem Process.contains_of_outcome {p : Process M} {t : Machine M}
    (h : p.outcome = some (.stray op, t)) : p.Contains op := by
  unfold outcome at h
  split at h
  · cases h
  · cases h
  · cases h
  · cases h
    exact .focus rfl
  · cases h

/-- An operator that a run meets stands on its own in a statement or in a value that is bound. -/
theorem Machine.contains_of_run {limit : Nat} {statements : List (Expr M)} {m : Machine M}
    (h : (m.run limit statements).1 = .stray op) :
    (∃ e ∈ statements, e.Contains op) ∨ ∃ b ∈ m.env.bindings, b.2.Contains op := by
  obtain ⟨n, -, houtcome⟩ := Process.haltsWith_run limit statements m
  have hmet : (m.run limit statements) = (.stray op, (m.run limit statements).2) := Prod.ext h rfl
  rw [hmet] at houtcome
  cases Process.contains_of_after (Process.contains_of_outcome houtcome) with
  | focus h => exact .inl (h.resolve_left nofun)
  | wait mem _ => cases mem
  | bound mem h => exact .inr ⟨_, mem, h⟩

/-- What a statement leaves: new bindings only after a value. -/
def Machine.commit (m : Machine M) : Outcome M × Machine M → Outcome M × Machine M
  | (.value v, t) => (.value v, t)
  | (outcome, t) => (outcome, { t with env := m.env })

/-- Every evaluation ends. For all statements, machines and limits, a process that evaluates
the statements halts after finitely many steps, with what their run comes to; it never has more
calls in progress than the limit allows, or than there were; and it ends with a value or a failure,
unless it meets an operator that stands on its own in a statement or in a function that is bound.
A single statement halts as well, and its run commits what it comes to. Sums are compared in
one round more than exponents are nested in the first of them. -/
theorem every_evaluation_ends (limit : Nat) (m : Machine M) :
    (∀ statements : List (Expr M),
      (Process.ofStatements statements m).HaltsWith limit (m.run limit statements) ∧
      (∀ n, ((Process.ofStatements statements m).after limit n).machine.stack.length ≤
        max limit m.stack.length) ∧
      ((∃ v, (m.run limit statements).1 = .value v) ∨
        (∃ x, (m.run limit statements).1 = .failure x) ∨
        ∃ op, (m.run limit statements).1 = .stray op ∧
          ((∃ e ∈ statements, e.Contains op) ∨ ∃ b ∈ m.env.bindings, b.2.Contains op))) ∧
    (∀ statement : Expr M, ∃ result,
      (Process.ofStatements [statement] m).HaltsWith limit result ∧
        m.runStatement limit statement = m.commit result) ∧
    ∀ (p q : Poly M) (more : Nat),
      p.equalWithin (p.exponentDepth + 1 + more) q = some (p.equal q) ∧
        p.orderWithin (p.exponentDepth + 1 + more) q = some (p.order q) := by
  refine ⟨fun statements => ⟨Process.haltsWith_run limit statements m,
    fun n => Process.stack_after limit n _, ?_⟩, fun statement => ?_, fun p q more => ?_⟩
  · cases hrun : (m.run limit statements).1 with
    | value v => exact .inl ⟨v, rfl⟩
    | failure x => exact .inr (.inl ⟨x, rfl⟩)
    | stray op => exact .inr (.inr ⟨op, rfl, Machine.contains_of_run hrun⟩)
  · refine ⟨_, Process.haltsWith_run limit [statement] m, ?_⟩
    rw [Machine.runStatement]
    rcases m.run limit [statement] with ⟨outcome, t⟩
    cases outcome <;> rfl
  · have hless : p.exponentDepth < p.exponentDepth + 1 + more := by omega
    exact ⟨Poly.equalWithin_eq hless q, Poly.orderWithin_eq hless q⟩

end SymCalc
