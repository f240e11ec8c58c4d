import Mathlib
import SymCalc.Proofs.Simulation
import SymCalc.Proofs.WholeProgram

/-!
# Names that a program does not mention

Functions hold all bindings in force when they were made, so runs that start with different values
of a name make different functions, even if the program never mentions the name. The values of two
such runs are related here: functions that were made at the same time have the same body, and agree
in every name that the body can look up. Main statement: two runs that start with the same bindings
but for a name that the program does not mention print the same, fail alike, and end with the same
bindings, up to what functions hold of that name.
-/

namespace SymCalc

variable {M : Type}

namespace Expr

/-- The names in a tree are all of a kind. -/
def Within (sees : Text → Prop) (e : Expr M) : Prop :=
  e.Everywhere fun x => ∀ name ∈ x.names, sees name

/-- A tree does not mention a name. -/
abbrev Omits (n : Text) (e : Expr M) : Prop := e.Within (· ≠ n)

instance (n : Text) (e : Expr M) : Decidable (e.Omits n) :=
  inferInstanceAs (Decidable (e.Everywhere fun x => ∀ name ∈ x.names, name ≠ n))

/-- The names in a tree are names. -/
theorem within_true (e : Expr M) : e.Within fun _ => True := by
  induction e using children_induction with
  | h e ih => exact .intro (fun _ _ => trivial) ih

end Expr

section

variable (n : Text) (j k : Nat)

/-- Values of two runs that may differ in a name, and that started after `j` and `k` functions had
been made: what was there before, and functions that both runs made at the same time, which agree in
the names that the body can look up, and in all names but the one that may differ. -/
inductive Value.Matches : Value M → Value M → Prop where
  | same (v : Value M) : Matches v v
  | tuple {us vs : List (Value M)} (items : List.Forall₂ Matches us vs) :
    Matches (.tuple us) (.tuple vs)
  | closure {serial : Nat} {params : List Text} {body : List (Expr M)} {bs cs : Bindings M}
    (sees : Text → Prop) (others : ∀ x, x ≠ n → sees x) (within : ∀ e ∈ body, e.Within sees)
    (captured : ∀ x, sees x → Option.Rel Matches (bs.find? x) (cs.find? x)) :
    Matches (.closure ⟨j + serial, params, bs, body⟩) (.closure ⟨k + serial, params, cs, body⟩)

/-- Bindings of two runs match in the names of a kind. -/
def Bindings.Match (sees : Text → Prop) (bs cs : Bindings M) : Prop :=
  ∀ x, sees x → Option.Rel (Value.Matches n j k) (bs.find? x) (cs.find? x)

/-- Calls of two runs match. -/
structure Frame.Matches (f g : Frame M) : Prop where
  /-- They were made at the same place. -/
  pos : f.pos = g.pos
  /-- The same name was called. -/
  name : f.name = g.name
  /-- The arguments match. -/
  args : List.Forall₂ (Value.Matches n j k) f.args g.args

/-- Machines of two runs match in the names of a kind. -/
structure Machine.Match (sees : Text → Prop) (m m' : Machine M) : Prop where
  /-- The bindings match. -/
  bindings : m.env.bindings.Match n j k sees m'.env.bindings
  /-- Both runs have made as many functions. -/
  made : ∃ count, m.env.made = j + count ∧ m'.env.made = k + count
  /-- The same node is being evaluated. -/
  pos : m.pos = m'.pos
  /-- The calls in progress match. -/
  stack : List.Forall₂ (Frame.Matches n j k) m.stack m'.stack

end

variable {n : Text} {j k : Nat} {sees : Text → Prop}

namespace Value

variable {u v u' v' : Value M}

/-- Values that match are of the same kind. -/
theorem Matches.kind (h : u.Matches n j k v) : u.kind = v.kind := by
  cases h <;> rfl

/-- Values that match are scalars alike. -/
theorem Matches.asScalar? (h : u.Matches n j k v) : u.asScalar? = v.asScalar? := by
  cases h <;> rfl

/-- Values that match are there or not. -/
theorem Matches.isUnit (h : u.Matches n j k v) : u.isUnit = v.isUnit := by
  cases h <;> rfl

/-- Values that match are printed alike. -/
theorem Matches.render [Magnitude M] (write : M → Text) (h : u.Matches n j k v) :
    u.render write = v.render write := by
  have hlist {us vs : List (Value M)} (hitems : List.Forall₂ (Matches n j k) us vs)
      (ih : ∀ u ∈ us, ∀ v, u.Matches n j k v → u.render write = v.render write) :
      renderAll write us = renderAll write vs := by
    induction hitems with
    | nil => rfl
    | @cons u v us vs huv _ ihs =>
      obtain ⟨hu, hus⟩ := List.forall_mem_cons.mp ih
      rw [renderAll, renderAll, hu v huv, ihs hus]
  induction u using parts_induction generalizing v with
  | h u ih =>
  cases h with
  | same => rfl
  | tuple items => rw [Value.render, Value.render, hlist items fun u hu v => @ih u hu v]
  | closure => rfl

/-- A binary operator makes the same of values that match. -/
theorem Matches.binary [Magnitude M] (hu : u.Matches n j k u') (hv : v.Matches n j k v')
    (symbol : Text) : u.binary symbol v = u'.binary symbol v' := by
  unfold Value.binary
  cases BinaryOp.ofSymbol? symbol with
  | none => rfl
  | some op =>
    -- No operator has a meaning for tuples or functions, and the fault names the kinds only.
    have hkinds : (.error (.binaryOperands op.symbol u.kind v.kind) : Except Fault (Value M)) =
        .error (.binaryOperands op.symbol u'.kind v'.kind) := by
      rw [hu.kind, hv.kind]
    cases hu with
    | same u =>
      cases hv with
      | same v => rfl
      | tuple => cases op <;> cases u <;> exact hkinds
      | closure => cases op <;> cases u <;> exact hkinds
    | tuple => cases op <;> exact hkinds
    | closure => cases op <;> exact hkinds

/-- A unary operator makes the same of values that match. -/
theorem Matches.unary [Magnitude M] (h : u.Matches n j k v) (symbol : Text) :
    Value.unary symbol u = Value.unary symbol v := by
  unfold Value.unary
  cases UnaryOp.ofSymbol? symbol with
  | none => rfl
  | some op => cases h <;> cases op <;> rfl

end Value

namespace Bindings

variable {bs cs : Bindings M}

/-- Bindings that are the same in the names of a kind match. -/
theorem Match.of_eq (h : ∀ x, sees x → bs.find? x = cs.find? x) : bs.Match n j k sees cs := by
  intro x hx
  rw [h x hx]
  cases cs.find? x with
  | none => exact .none
  | some v => exact .some (.same v)

/-- Binding a name to values that match. -/
theorem Match.insert (h : bs.Match n j k sees cs) (name : Text) {u v : Value M}
    (huv : u.Matches n j k v) :
    Bindings.Match n j k sees (bs.insert name u) (cs.insert name v) := by
  intro x hx
  by_cases hname : x = name
  · subst hname
    rw [find?_insert_self, find?_insert_self]
    exact .some huv
  · rw [find?_insert_of_ne hname, find?_insert_of_ne hname]
    exact h x hx

/-- Binding parameters to arguments that match. -/
theorem Match.bindArgs (params : List Text) {us vs : List (Value M)}
    (hargs : List.Forall₂ (Value.Matches n j k) us vs) (h : bs.Match n j k sees cs) :
    Bindings.Match n j k sees (Closure.bindArgs params us bs) (Closure.bindArgs params vs cs) := by
  induction params generalizing us vs bs cs with
  | nil => exact h
  | cons x xs ih =>
    cases hargs with
    | nil => exact h
    | cons huv hothers => exact ih hothers (h.insert x huv)

end Bindings

/-- Functions of two runs can be called alike: they have the same parameters and the same body, and
were made in bindings that match in the names that the body mentions. -/
structure Closure.Matches (n : Text) (j k : Nat) (c d : Closure M) : Prop where
  /-- The parameters are the same. -/
  params : c.params = d.params
  /-- The body is the same. -/
  body : c.body = d.body
  /-- The bindings match in what the body mentions. -/
  captured : ∃ sees, (∀ x, x ≠ n → sees x) ∧ (∀ e ∈ c.body, e.Within sees) ∧
    Bindings.Match n j k sees c.captured d.captured

/-- Values that match are functions alike. -/
theorem Value.Matches.closures {c d : Closure M}
    (h : Value.Matches n j k (.closure c) (.closure d)) : c.Matches n j k d := by
  cases h with
  | same =>
    have htrue : Bindings.Match n j k (fun _ => True) c.captured c.captured :=
      .of_eq fun _ _ => rfl
    exact ⟨rfl, rfl, fun _ => True, fun _ _ => trivial, fun e _ => e.within_true, htrue⟩
  | closure sees others within captured => exact ⟨rfl, rfl, sees, others, within, captured⟩

variable [Numeric M]

/-- Two runs that match in the names that they see: all but one, and perhaps that one. -/
def matchingSimulation (n : Text) (j k : Nat) :
    Simulation {sees : Text → Prop // ∀ x, x ≠ n → sees x} M where
  move := id
  ops := .standard
  Node w e := ∀ name ∈ e.names, w.1 name
  Values := Value.Matches n j k
  Faults _ := True
  Strays _ := True
  States w := Machine.Match n j k w.1

/-- Operations of machines that match leave machines that match. -/
theorem matchingSimulation_lawful : (matchingSimulation (M := M) n j k).Lawful where
  kind h := h.kind
  boolean h := by
    cases h
    rfl
  params h := congrArg List.length h.closures.params
  unit := .same _
  tuple h := .tuple h
  constant _ := .same _
  fault _ := trivial
  stray _ := trivial
  moveTo _ h := ⟨h.bindings, h.made, rfl, h.stack⟩
  found here hname h := h.bindings _ (here _ hname)
  insert name huv h := ⟨h.bindings.insert name huv, h.made, h.pos, h.stack⟩
  unary {_ pos op right u v} _ huv := by
    have hsame : Value.unary op.symbol u = Value.unary op.symbol v := huv.unary op.symbol
    rw [Operators.standard_unary, hsame]
    exact .lift_same (fun w _ => .same w) fun _ _ => trivial
  binary {_ pos left op right u u' v v'} _ hu hv := by
    have hsame : u.binary op.symbol v = u'.binary op.symbol v' := hu.binary hv op.symbol
    rw [Operators.standard_binary, hsame]
    exact .lift_same (fun w _ => .same w) fun _ _ => trivial
  matrix {_ pos rows cells cells'} _ _ hcells := by
    have hscalar (s t : Scalar M) (hst : (matchingSimulation (M := M) n j k).Scalars s t) :
        s = t := by
      cases hst
      rfl
    obtain rfl := Simulation.cells_eq hscalar hcells
    exact .lift_same (fun m _ => .same _) fun _ _ => trivial
  close {w pos start params body} _ hbody := by
    rintro m m' ⟨hbindings, ⟨count, hmade, hmade'⟩, hpos, hstack⟩
    rw [Simulation.map_relabel_of_move_id _ rfl]
    refine .ok ?_ ⟨hbindings, ⟨count + 1, ?_, ?_⟩, hpos, hstack⟩
    · rw [hmade, hmade']
      exact .closure w.1 w.2 hbody hbindings
    · exact congrArg (· + 1) hmade
    · exact congrArg (· + 1) hmade'
  enter {_ c d us vs m m'} pos name hcd huvs h := by
    obtain ⟨hparams, hbody, sees, hothers, hmentioned, hcaptured⟩ := hcd.closures
    have hlocals : Bindings.Match n j k sees (c.locals us) (d.locals vs) := by
      rw [Closure.locals, Closure.locals, hparams]
      exact hcaptured.bindArgs d.params huvs
    refine ⟨⟨sees, hothers⟩, hmentioned, ?_, hlocals, h.made, h.pos, ?_⟩
    · exact hbody.symm.trans (Expr.map_relabel_id c.body).symm
    · exact .cons ⟨rfl, rfl, huvs⟩ h.stack
  resume h ht := ⟨h.bindings, ht.made, ht.pos, ht.stack⟩
  pop h := by
    refine ⟨h.bindings, h.made, h.pos, ?_⟩
    simpa only [List.drop_one] using List.forall₂_drop 1 h.stack

/-- Statements are evaluated alike in two runs that match in the names that they mention, with any
number of levels of calls left. -/
theorem Eval.block_match (levels : Nat) {sees : Text → Prop} {statements : List (Expr M)}
    (hothers : ∀ x, x ≠ n → sees x) (h : ∀ e ∈ statements, e.Within sees) {m m' : Machine M}
    (hm : m.Match n j k sees m') :
    (matchingSimulation n j k).Results ⟨sees, hothers⟩ (Value.Matches n j k)
      (Eval.block .standard levels statements m) (Eval.block .standard levels statements m') := by
  have hbody : (matchingSimulation (M := M) n j k).Statements ⟨sees, hothers⟩ statements := h
  have hblock := matchingSimulation_lawful.block levels hbody m m' hm
  rw [Simulation.map_relabel_of_move_id _ rfl] at hblock
  exact hblock

/-- Failures of two runs match. -/
structure Failure.Matches (n : Text) (j k : Nat) (x y : Failure M) : Prop where
  /-- They are at the same position. -/
  pos : x.pos = y.pos
  /-- The fault is the same. -/
  fault : x.fault = y.fault
  /-- The calls in progress match. -/
  stack : List.Forall₂ (Frame.Matches n j k) x.stack y.stack

/-- Runs of statements end alike. -/
inductive Outcome.Matches (n : Text) (j k : Nat) : Outcome M → Outcome M → Prop where
  | value {u v : Value M} (h : u.Matches n j k v) : Matches n j k (.value u) (.value v)
  | failure {x y : Failure M} (h : x.Matches n j k y) : Matches n j k (.failure x) (.failure y)
  | stray (op : Operator) : Matches n j k (.stray op) (.stray op)

omit [Numeric M] in
/-- A function that does not tell related items apart makes the same of related lists. -/
theorem map_eq_of_forall₂ {α β : Type} {R : α → α → Prop} {f : α → β} {xs ys : List α}
    (h : List.Forall₂ R xs ys) (hf : ∀ x y, R x y → f x = f y) : xs.map f = ys.map f := by
  induction h with
  | nil => rfl
  | cons hxy _ ih => rw [List.map_cons, List.map_cons, hf _ _ hxy, ih]

/-- Calls that match are shown alike. -/
theorem Frame.Matches.text {f g : Frame M} (h : f.Matches n j k g) : f.text = g.text := by
  have hargs : f.args.map (fun v => shorten (v.render Numeric.write)) =
      g.args.map fun v => shorten (v.render Numeric.write) :=
    map_eq_of_forall₂ h.args fun u v huv => congrArg shorten (huv.render Numeric.write)
  rw [Frame.text, Frame.text, hargs, h.name, h.pos]

/-- Failures that match are reported alike. -/
theorem Failure.Matches.report {x y : Failure M} (h : x.Matches n j k y) :
    x.report = y.report := by
  have hinner : List.Forall₂ (Frame.Matches n j k) (x.innermost traceLimit)
      (y.innermost traceLimit) :=
    List.forall₂_reverse_iff.mpr (List.forall₂_take traceLimit h.stack)
  unfold Failure.report
  rw [h.pos, h.fault, h.stack.length_eq,
    map_eq_of_forall₂ hinner fun f g hfg => congrArg (Text.ofString "\n\t•> " ++ ·) hfg.text]

/-- Values that match print the same line. -/
theorem Value.Matches.printed (settings : Settings) {u v : Value M} (h : u.Matches n j k v) :
    printed settings u = SymCalc.printed settings v := by
  rw [SymCalc.printed, SymCalc.printed, h.isUnit, h.render]

/-- Answers of two runs match: they are the same error, or evaluations that end alike. -/
inductive Answer.Matches (n : Text) (j k : Nat) : Answer M → Answer M → Prop where
  | error (err : SyntaxError) : Matches n j k (.error err) (.error err)
  | ok {x y : Outcome M} (h : x.Matches n j k y) : Matches n j k (.ok x) (.ok y)

/-- Answers that match print the same. -/
theorem Answer.Matches.printed (settings : Settings) {x y : Answer M}
    (h : Answer.Matches n j k x y) : Answer.printed settings x = Answer.printed settings y := by
  cases h with
  | error err => rfl
  | ok houtcome =>
    cases houtcome with
    | value huv => exact huv.printed settings
    | failure | stray => rfl

/-- Answers that match report the same. -/
theorem Answer.Matches.reported {x y : Answer M} (h : Answer.Matches n j k x y) :
    Answer.reported x = Answer.reported y := by
  cases h with
  | error err => rfl
  | ok houtcome =>
    cases houtcome with
    | failure hxy => exact congrArg (· ++ Text.ofString "\n") hxy.report
    | value | stray => rfl

namespace Machine

variable {m m' : Machine M} (limit : Nat)

/-- A statement ends alike in two runs that match in the names that it mentions. -/
theorem runStatement_match (hothers : ∀ x, x ≠ n → sees x) {e : Expr M} (he : e.Within sees)
    (h : m.Match n j k sees m') :
    (m.runStatement limit e).1.Matches n j k (m'.runStatement limit e).1 ∧
      (m.runStatement limit e).2.Match n j k sees (m'.runStatement limit e).2 := by
  have hran :=
    Eval.block_match (limit - m.stack.length) hothers (List.forall_mem_singleton.mpr he) h
  unfold runStatement run runUsing
  rw [← h.stack.length_eq]
  generalize Eval.block .standard (limit - m.stack.length) [e] m = r,
    Eval.block .standard (limit - m.stack.length) [e] m' = r' at hran
  cases hran with
  | ok results states => exact ⟨.value results, states⟩
  | error exits states =>
    cases exits with
    | returned values => exact ⟨.value values, states.bindings, states.made, states.pos, .nil⟩
    | fault =>
      exact ⟨.failure ⟨states.pos, rfl, states.stack⟩, h.bindings, h.made, states.pos, .nil⟩
    | stray => exact ⟨.stray _, h.bindings, h.made, states.pos, .nil⟩

/-- Statements are answered alike in two runs that match in the names that they mention. -/
theorem replay_match (hothers : ∀ x, x ≠ n → sees x) {statements : List (Expr M)}
    (hwithin : ∀ e ∈ statements, e.Within sees) (h : m.Match n j k sees m') :
    List.Forall₂ (Answer.Matches n j k)
        (m.replay limit (statements.map .ok)).1 (m'.replay limit (statements.map .ok)).1 ∧
      (m.replay limit (statements.map .ok)).2.Match n j k sees
        (m'.replay limit (statements.map .ok)).2 := by
  induction statements generalizing m m' with
  | nil => exact ⟨.nil, h⟩
  | cons e es ih =>
    obtain ⟨he, hes⟩ := List.forall_mem_cons.mp hwithin
    obtain ⟨houtcome, hmachine⟩ := runStatement_match limit hothers he h
    obtain ⟨hanswers, hend⟩ := ih hes hmachine
    exact ⟨.cons (.ok houtcome) hanswers, hend⟩

end Machine

namespace Progress

/-- Two runs have read and written the same, and their machines match. -/
structure Match (n : Text) (j k : Nat) (sees : Text → Prop) (p q : Progress M) : Prop where
  /-- Reading stands at the same place. -/
  cursor : p.cursor = q.cursor
  /-- The machines match. -/
  machine : p.machine.Match n j k sees q.machine
  /-- The same has been printed. -/
  out : p.out = q.out
  /-- The same has been reported. -/
  err : p.err = q.err
  /-- Both have succeeded so far, or neither. -/
  ok : p.ok = q.ok
  /-- The same stopped them, if something did. -/
  interrupt : p.interrupt = q.interrupt

variable {settings : Settings} {interactive : Bool} {o : Offset} {p q : Progress M} {e : Expr M}

omit [Numeric M] in
/-- Two runs go on from the same cursor. -/
theorem Match.moveTo (h : p.Match n j k sees q) (c : Cursor) :
    (p.moveTo c).Match n j k sees (q.moveTo c) :=
  ⟨rfl, h.machine, congrArg (· ++ c.scanner.log) h.out, h.err, h.ok, h.interrupt⟩

omit [Numeric M] in
/-- Two runs print the same. -/
theorem Match.print (h : p.Match n j k sees q) (text : Text) :
    (p.print text).Match n j k sees (q.print text) :=
  ⟨h.cursor, h.machine, congrArg (· ++ text) h.out, h.err, h.ok, h.interrupt⟩

omit [Numeric M] in
/-- Two runs report the same. -/
theorem Match.complain (h : p.Match n j k sees q) (report : Text) :
    (p.complain report).Match n j k sees (q.complain report) :=
  ⟨h.cursor, h.machine, h.out, congrArg (· ++ report ++ "\n") h.err, rfl, h.interrupt⟩

omit [Numeric M] in
/-- Two runs are stopped by the same. -/
theorem Match.stop (h : p.Match n j k sees q) (interrupt : Interrupt) :
    (p.stop interrupt).Match n j k sees (q.stop interrupt) :=
  ⟨h.cursor, h.machine, h.out, h.err, rfl, rfl⟩

/-- A statement is evaluated in two runs that match in the names that it mentions. -/
theorem Match.evaluate (settings : Settings) (interactive : Bool)
    (hothers : ∀ x, x ≠ n → sees x) (he : e.Within sees)
    (h : p.Match n j k sees q) :
    (p.evaluate settings interactive e).Match n j k sees (q.evaluate settings interactive e) := by
  obtain ⟨houtcome, hmachine⟩ :=
    Machine.runStatement_match settings.maxDepth hothers he h.machine
  unfold Progress.evaluate
  generalize p.machine.runStatement settings.maxDepth e = ran at houtcome hmachine
  generalize q.machine.runStatement settings.maxDepth e = ran' at houtcome hmachine
  obtain ⟨outcome, m⟩ := ran
  obtain ⟨outcome', m'⟩ := ran'
  have hran : Match n j k sees ({ p with machine := m } : Progress M) { q with machine := m' } :=
    ⟨h.cursor, hmachine, h.out, h.err, h.ok, h.interrupt⟩
  have htimed : Match n j k sees
      (if (interactive && settings.debug.cpu) = true then
        ({ p with machine := m } : Progress M).print timeLine else { p with machine := m })
      (if (interactive && settings.debug.cpu) = true then
        ({ q with machine := m' } : Progress M).print timeLine else { q with machine := m' }) := by
    split
    · exact hran.print timeLine
    · exact hran
  cases houtcome with
  | value huv =>
    dsimp only
    rw [huv.printed settings]
    exact htimed.print _
  | failure hxy =>
    dsimp only
    rw [hxy.fault, hxy.report]
    cases settings.debug.stop with
    | true => exact htimed.stop _
    | false => exact htimed.complain _
  | stray op => exact htimed.stop _

/-- Two runs over the same statements go alike if they match in the names that the statements
mention. -/
theorem Match.loopWithin (interactive : Bool) (hothers : ∀ x, x ≠ n → sees x)
    (hmore : o.more = none)
    (hplace : o.place = id) (hloud : o.loud = false → settings.debug.outline = false) (rounds : Nat)
    {statements : List (Expr M)} (hwithin : ∀ e ∈ statements, e.Within sees)
    (htame : o.Tame p.cursor)
    (hread : ((o.cursor p.cursor).statementsWithin {} rounds).1 = statements.map .ok)
    (h : p.Match n j k sees q) :
    (p.loopWithin settings interactive rounds).Match n j k sees
      (q.loopWithin settings interactive rounds) := by
  induction rounds generalizing p q statements with
  | zero => exact h
  | succ rounds ih =>
    have hpeeked := h.moveTo p.cursor.atEnd.2
    by_cases hkind : p.cursor.scanner.peek.1.kind = .eof
    · rw [loopWithin_of_end rounds hkind, loopWithin_of_end rounds (h.cursor ▸ hkind), ← h.cursor]
      exact hpeeked
    · obtain ⟨e, es, c, rfl, hstatement, hafter, hlater⟩ :=
        exists_statement hmore hplace hloud htame hkind hread
      obtain ⟨he, hes⟩ := List.forall_mem_cons.mp hwithin
      rw [loopWithin_of_token rounds hkind, loopWithin_of_token rounds (h.cursor ▸ hkind),
        ← h.cursor]
      have hstep {r : Progress M} (hr : r.cursor = (p.moveTo p.cursor.atEnd.2).cursor) :
          r.step settings interactive = (r.moveTo c).evaluate settings interactive e := by
        rw [← hr] at hstatement
        rw [step_of_ok interactive (congrArg Prod.fst hstatement), hstatement]
      rw [hstep (r := p.moveTo _) rfl, hstep (r := q.moveTo _) rfl]
      have hevaluated : Match n j k sees _ _ :=
        (hpeeked.moveTo c).evaluate settings interactive hothers he
      have hcursor := cursor_evaluate settings interactive ((p.moveTo p.cursor.atEnd.2).moveTo c) e
      generalize ((p.moveTo p.cursor.atEnd.2).moveTo c).evaluate settings interactive e = r
        at hevaluated hcursor
      generalize ((q.moveTo p.cursor.atEnd.2).moveTo c).evaluate settings interactive e = r'
        at hevaluated
      dsimp only
      rw [← hevaluated.interrupt]
      split
      · exact hevaluated
      · refine ih hes ?_ ?_ hevaluated
        · rw [hcursor]
          exact tame_moveTo _ hafter
        · rw [hcursor]
          exact hlater

end Progress

/-- A name that a program does not mention has no influence on it. From bindings that differ in
such a name only, statements are answered alike: they print the same and fail with the same report,
at the same position, with the same fault and matching calls in progress. The bindings at the end
match in every other name. So do runs of a text, whatever the settings. -/
theorem unmentioned_name_has_no_influence (n : Text) {before before' : Env M}
    (hsame : ∀ x, x ≠ n → before.bindings.find? x = before'.bindings.find? x) :
    (∀ (limit : Nat) (statements : List (Expr M)), (∀ e ∈ statements, e.Omits n) →
      let first := Machine.replay limit (statements.map .ok) { env := before }
      let second := Machine.replay limit (statements.map .ok) { env := before' }
      (∀ settings, first.1.map (Answer.printed settings) = second.1.map (Answer.printed settings)) ∧
      first.1.map Answer.reported = second.1.map Answer.reported ∧
      List.Forall₂ (Answer.Matches n before.made before'.made) first.1 second.1 ∧
      first.2.env.bindings.Match n before.made before'.made (· ≠ n) second.2.env.bindings) ∧
    ∀ (settings : Settings) (name text : Text) (interactive : Bool) (statements : List (Expr M)),
      ((Cursor.start settings name (.ofText text)).program settings).1 = .ok statements →
      (∀ e ∈ statements, e.Omits n) →
      let first := runSource settings name (.ofText text) before interactive
      let second := runSource settings name (.ofText text) before' interactive
      first.out = second.out ∧ first.err = second.err ∧ first.ok = second.ok ∧
      first.interrupt = second.interrupt ∧
      first.machine.env.bindings.Match n before.made before'.made (· ≠ n)
        second.machine.env.bindings := by
  have hstart : Machine.Match n before.made before'.made (· ≠ n) ({ env := before } : Machine M)
      { env := before' } :=
    ⟨.of_eq hsame, ⟨0, rfl, rfl⟩, rfl, .nil⟩
  refine ⟨fun limit statements homits => ?_,
    fun settings name text interactive statements hread homits => ?_⟩
  · obtain ⟨hanswers, hend⟩ := Machine.replay_match limit (fun _ hx => hx) homits hstart
    exact ⟨fun settings => map_eq_of_forall₂ hanswers fun _ _ h => h.printed settings,
      map_eq_of_forall₂ hanswers fun _ _ h => h.reported, hanswers, hend.bindings⟩
  · let o := Offset.alongside name text true
    obtain ⟨htame, hcursor⟩ : o.Tame (Cursor.start settings name (.ofText text)) ∧ _ :=
      Offset.alongside_start nofun
    have hrounds : ((o.cursor (Cursor.start settings name (.ofText text))).statementsWithin {}
        (Cursor.start settings name (.ofText text)).scanner.size).1 = statements.map .ok := by
      rw [hcursor, ← readText_of_program hread, readText_quiet]
      rfl
    have hplace : o.place = id := Position.down_zero
    have hloud : o.loud = false → settings.debug.outline = false := nofun
    have hrun := Progress.Match.loopWithin interactive
      (p := { cursor := Cursor.start settings name (.ofText text), machine := { env := before } })
      (q := { cursor := Cursor.start settings name (.ofText text), machine := { env := before' } })
      (fun _ hx => hx) rfl hplace hloud _ homits htame hrounds
      ⟨rfl, hstart, rfl, rfl, rfl, rfl⟩
    exact ⟨hrun.out, hrun.err, hrun.ok, hrun.interrupt, hrun.machine.bindings⟩

/-- Bindings with a function that was made in them and looks up `y`. -/
def firstBindings : Env ℚ :=
  (({} : Session ℚ).eval "y = 1\nf = lambda (a) \x7b return a + y \x7d").2.env

/-- The same bindings with another value of `y`. The function has kept the value it was made
with. -/
def secondBindings : Env ℚ :=
  { firstBindings with bindings := firstBindings.bindings.insert "y" (.boolean true) }

/-- A program that calls the function and does not mention `y`. -/
def withoutY : Text := "g = lambda (a) \x7b return f(a) * 2 \x7d\ng(2)\ng(f)"

/-- The function makes the same of its argument in both runs, and fails alike. -/
theorem program_without_y_runs_alike :
    (∀ x : Text, x ≠ "y" → firstBindings.bindings.find? x = secondBindings.bindings.find? x) ∧
    (∃ statements : List (Expr ℚ),
      ((Cursor.start {} "" (.ofText withoutY)).program {}).1 = .ok statements ∧
        ∀ e ∈ statements, e.Omits "y") ∧
    let first := runSource {} "" (.ofText withoutY) firstBindings false
    let second := runSource {} "" (.ofText withoutY) secondBindings false
    first.out = second.out ∧ first.err = second.err ∧ second.out = "6\n" ∧
      second.err = "2:27: operator \"+\" not implemented for left: Closure, right: Term\n" ++
        "\t•> g(lambda(a)) at 3:1\n\t•> f(lambda(a)) at 1:25\n" := by
  have hsame (x : Text) (hx : x ≠ "y") :
      firstBindings.bindings.find? x = secondBindings.bindings.find? x := by
    rw [secondBindings, Bindings.find?_insert_of_ne hx]
  have hread : (match ((Cursor.start {} "" (.ofText withoutY)).program (M := ℚ) {}).1 with
      | .ok statements => decide (∀ e ∈ statements, e.Omits "y")
      | .error _ => false) = true := by
    decide +kernel
  cases hprogram : ((Cursor.start {} "" (.ofText withoutY)).program (M := ℚ) {}).1 with
  | error errors =>
    rw [hprogram] at hread
    cases hread
  | ok statements =>
    rw [hprogram] at hread
    have homits := of_decide_eq_true hread
    obtain ⟨hout, herr, -⟩ := (unmentioned_name_has_no_influence "y" hsame).2 {} "" withoutY false
      statements hprogram homits
    exact ⟨hsame, ⟨statements, rfl, homits⟩, hout, herr, by decide +kernel, by decide +kernel⟩

end SymCalc
