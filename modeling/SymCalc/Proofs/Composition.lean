import Mathlib
import SymCalc.Proofs.Replay
import SymCalc.Session

/-!
# Programs one after the other

A program may be given in pieces, if the pieces are whole lines and all but the last can be read
without an error. Main statement: two pieces with a line feed between them are read as one after the
other, the second one further down, and a session that is given both at once comes to what it comes
to when they are given one by one.
-/

namespace SymCalc

variable {M : Type} [Numeric M]

/-- The characters of two texts with a line feed between them. -/
theorem Text.chars_append_newline (a b : Text) :
    (a ++ "\n" ++ b : Text).chars = a.chars ++ '\n' :: b.chars := by
  have hbytes : (a ++ ofString "\n" ++ b).bytes = a.bytes ++ newline :: b.bytes := by
    rw [bytes_append, bytes_append, List.append_assoc]
    rfl
  rw [chars, hbytes, decode_append_newline]
  rfl

/-- The statements and errors that a text is read as, in order. -/
def readText (settings : Settings) (name text : Text) : List (Except SyntaxError (Expr M)) :=
  ((Cursor.start settings name (.ofText text)).statements settings).1

/-- A text next to itself, read in silence or not. -/
def Offset.alongside (name text : Text) (loud : Bool) : Offset where
  stop := ({} : Position).advanceAll (Source.ofText text).rest
  name := name
  loud := loud

omit [Numeric M] in
/-- Where reading a text starts, next to where reading it in silence starts. -/
theorem Offset.alongside_start {settings : Settings} {name text : Text} {loud : Bool}
    (h : loud = false → settings.debug.tokens = false) :
    (alongside name text loud).Tame (Cursor.start settings name (.ofText text)) ∧
      (alongside name text loud).cursor (Cursor.start settings name (.ofText text)) =
        Cursor.start {} name (.ofText text) := by
  have hchars : (Source.ofText text).rest ++ [] = (Source.ofText text).chars :=
    (List.append_nil _).trans (Source.rest_of_feed_none rfl)
  exact ⟨⟨Source.lined_of_feed_none rfl, h, fun _ => rfl, rfl, rfl, fun _ hx => nomatch hx⟩,
    congrArg (fun cs => Cursor.start {} name { chars := cs }) hchars⟩

/-- What is read does not depend on what is logged. -/
theorem readText_quiet (settings : Settings) (name text : Text) :
    readText (M := M) settings name text = readText {} name text := by
  let o := Offset.alongside name text true
  obtain ⟨htame, hcursor⟩ : o.Tame _ ∧ o.cursor (Cursor.start settings name (.ofText text)) = _ :=
    Offset.alongside_start nofun
  have hplace : o.place = id := Position.down_zero
  have hbudget := Offset.budget_lt_size (Cursor.start settings name (.ofText text))
  have hrounds := Nat.lt_of_le_of_lt htame.ahead.2 hbudget
  have houtline : ({} : Settings).debug.outline = false := rfl
  have hloud : o.loud = false → settings.debug.outline = false := nofun
  have hread := (htame.abreast rfl).statementsWithin (M := M) rfl hloud houtline hrounds hrounds
  rw [hcursor, hplace, Offset.map_relabelRead_id] at hread
  exact hread.symm

/-- Characters are read up to a line feed and then after it, if there are no errors before it. -/
theorem Cursor.statements_append_newline (name : Text) (cs ds : List Char)
    (hok : ∀ result ∈ ((start {} name { chars := cs }).statements (M := M) {}).1,
      ∃ e, result = .ok e) :
    ((start {} name { chars := cs ++ '\n' :: ds }).statements {}).1 =
      ((start {} name { chars := cs }).statements (M := M) {}).1 ++
      ((start {} name { chars := ds }).statements {}).1.map
        (Offset.relabelRead (Position.down (cs.count '\n' + 1))) := by
  -- The second reader goes on with the characters after the line feed.
  let o : Offset := { more := some ds, stop := ({} : Position).advanceAll cs, name := name }
  have hrest (xs : List Char) : ({ chars := xs } : Source).rest = xs := Source.rest_of_feed_none rfl
  have houtline : ({} : Settings).debug.outline = false := rfl
  have htame : o.Tame (start {} name { chars := cs }) := by
    refine ⟨Source.lined_of_feed_none rfl, fun _ => rfl, fun _ => rfl, rfl, ?_,
      fun _ hx => nomatch hx⟩
    exact congrArg ({} : Position).advanceAll (hrest cs)
  have hlinked : o.Linked (start {} name { chars := cs })
      (start {} name { chars := cs ++ '\n' :: ds }) := by
    have hcursor : o.cursor (start {} name { chars := cs }) =
        start {} name { chars := cs ++ '\n' :: ds } :=
      congrArg (fun xs => start {} name { chars := xs ++ '\n' :: ds }) (hrest cs)
    have hstart := Offset.Linked.level htame fun _ ⟨_, hx, _⟩ => nomatch hx
    rw [hcursor] at hstart
    exact hstart
  have hbudget : (start {} name { chars := cs }).budget = cs.length :=
    congrArg List.length (hrest cs)
  have hline : (o.place o.stop).line = cs.count '\n' + 1 := by
    change ((({} : Position).advanceAll cs).line + 0) = _
    rw [Position.line_advanceAll]
    exact Nat.add_comm 1 _
  have hplace : o.place = id := Position.down_zero
  have hread := hlinked.statementsWithin (M := M) rfl houtline
    (show _ < cs.length + 2 by omega)
    (show _ < (cs ++ '\n' :: ds).length + 2 by simp; omega)
    (show ds.length < ds.length + 2 by omega) hok
  rw [hline, hplace, Offset.map_relabelRead_id] at hread
  exact hread

/-- Two texts are read one after the other, if the first one has no errors. -/
theorem readText_append (settings : Settings) (name : Text) {a : Text} (b : Text)
    (hok : ∀ result ∈ readText (M := M) settings name a, ∃ e, result = .ok e) :
    readText settings name (a ++ "\n" ++ b) = readText (M := M) settings name a ++
      (readText settings name b).map
        (Offset.relabelRead (Position.down (a.chars.count '\n' + 1))) := by
  have hcount : (a.chars.filter (· ≠ '\r')).count '\n' = a.chars.count '\n' :=
    List.count_filter (by decide)
  have hwhole : Source.ofText (a ++ "\n" ++ b) =
      { chars := a.chars.filter (· ≠ '\r') ++ '\n' :: b.chars.filter (· ≠ '\r') } := by
    rw [Source.ofText, Text.chars_append_newline, List.filter_append]
    rfl
  rw [readText_quiet settings name a] at hok
  rw [readText_quiet, readText_quiet settings name a, readText_quiet settings name b, readText,
    hwhole, ← hcount]
  exact Cursor.statements_append_newline name _ _ hok

section

variable {results : List (Except SyntaxError (Expr M))} (f : Position → Position)

omit [Numeric M] in
/-- Statements before add no errors. -/
theorem syntaxErrors_append (statements : List (Expr M)) :
    syntaxErrors (statements.map .ok ++ results.map (Offset.relabelRead f)) =
      (syntaxErrors results).map (SyntaxError.relabel f) := by
  induction statements with
  | cons e statements ih => exact ih
  | nil =>
    induction results with
    | nil => rfl
    | cons result results ih =>
      cases result with
      | ok e => exact ih
      | error e => exact congrArg (SyntaxError.relabel f e :: ·) ih

omit [Numeric M] in
/-- Statements before come first. -/
theorem readStatements_append (statements : List (Expr M)) :
    readStatements (statements.map .ok ++ results.map (Offset.relabelRead f)) =
      statements ++ (readStatements results).map (Expr.relabel f) := by
  induction statements with
  | cons e statements ih => exact congrArg (e :: ·) ih
  | nil =>
    induction results with
    | nil => rfl
    | cons result results ih =>
      cases result with
      | ok e => exact congrArg (Expr.relabel f e :: ·) ih
      | error e => exact ih

end

/-- A program is what is read of it, unless there are errors. -/
theorem program_eq (settings : Settings) (name text : Text) :
    ((Cursor.start settings name (.ofText text)).program (M := M) settings).1 =
      if syntaxErrors (readText (M := M) settings name text) = []
      then .ok (readStatements (readText settings name text))
      else .error (syntaxErrors (readText (M := M) settings name text)) := by
  unfold Cursor.program readText
  generalize (Cursor.start settings name (.ofText text)).statements (M := M) settings = read
  obtain ⟨results, c⟩ := read
  dsimp only
  cases syntaxErrors results with
  | nil => rfl
  | cons e errors => rfl

/-- A program without errors is read as its statements. -/
theorem readText_of_program {settings : Settings} {name text : Text} {statements : List (Expr M)}
    (h : ((Cursor.start settings name (.ofText text)).program settings).1 = .ok statements) :
    readText settings name text = statements.map .ok :=
  Cursor.program_eq_ok_iff.mp h

/-- Nothing that is read of a program without errors is an error. -/
theorem ok_of_program {settings : Settings} {name text : Text} {statements : List (Expr M)}
    (h : ((Cursor.start settings name (.ofText text)).program settings).1 = .ok statements) :
    ∀ result ∈ readText (M := M) settings name text, ∃ e, result = .ok e := by
  rw [readText_of_program h]
  exact List.forall_mem_map.mpr fun e _ => ⟨e, rfl⟩

/-- Two programs are read one after the other, if the first one has no errors. -/
theorem program_append {settings : Settings} {name a : Text} (b : Text)
    {statements : List (Expr M)}
    (h : ((Cursor.start settings name (.ofText a)).program settings).1 = .ok statements) :
    readText settings name (a ++ "\n" ++ b) = statements.map .ok ++
        (readText settings name b).map
          (Offset.relabelRead (Position.down (a.chars.count '\n' + 1))) ∧
      ((Cursor.start settings name (.ofText (a ++ "\n" ++ b))).program settings).1 =
        match ((Cursor.start settings name (.ofText b)).program settings).1 with
        | .ok later =>
          .ok (statements ++ later.map (Expr.relabel (Position.down (a.chars.count '\n' + 1))))
        | .error errors =>
          .error (errors.map (SyntaxError.relabel (Position.down (a.chars.count '\n' + 1)))) := by
  have hread := readText_append settings name b (ok_of_program h)
  rw [readText_of_program h] at hread
  refine ⟨hread, ?_⟩
  rw [program_eq, program_eq, hread, syntaxErrors_append, readStatements_append]
  cases syntaxErrors (readText (M := M) settings name b) with
  | nil => rfl
  | cons e errors => rfl

/-- The statements that are read of a text are well formed. -/
theorem wellFormed_of_readText {settings : Settings} {name text : Text} :
    ∀ e : Expr M, .ok e ∈ readText settings name text → e.WellFormed :=
  fun e he => (Cursor.statementsWithin_read _ (.start name _) e he).wellFormed

section

variable (settings : Settings) (name : Text)

/-- Nothing is read of an empty text. -/
theorem readText_nil : readText (M := M) settings name "" = [] :=
  (Cursor.start settings name (.ofText "")).statementsWithin_of_end settings 1 rfl

/-- A line feed at the end changes nothing in a program without errors. -/
theorem readText_ensureLine {a : Text}
    (hok : ∀ result ∈ readText (M := M) settings name a, ∃ e, result = .ok e) :
    readText (M := M) settings name a.ensureLine = readText settings name a := by
  rw [Text.ensureLine]
  split
  · rfl
  · have hread := readText_append settings name "" hok
    rw [Text.append_nil, readText_nil, List.map_nil, List.append_nil] at hread
    exact hread

omit [Numeric M] in
/-- Two texts end a line where the second one does. -/
theorem Text.ensureLine_append (a : Text) {b : Text} (hb : b ≠ "") :
    (a ++ "\n" ++ b : Text).ensureLine = a ++ "\n" ++ b.ensureLine := by
  have hbytes : b.bytes ≠ [] := fun hnil => hb (bytes_inj.mp hnil)
  have hends : (a ++ "\n" ++ b : Text).endsLine = b.endsLine := by
    rw [endsLine, endsLine, bytes_append, List.getLast?_append_of_ne_nil _ hbytes]
  rw [ensureLine, ensureLine, hends]
  split
  · rfl
  · exact ByteArray.append_assoc

/-- Two texts are read to the end of the last line one after the other, if the first one has no
errors. -/
theorem readText_ensureLine_append {a : Text} (b : Text)
    (hok : ∀ result ∈ readText (M := M) settings name a, ∃ e, result = .ok e) :
    readText settings name (a ++ "\n" ++ b : Text).ensureLine = readText (M := M) settings name a ++
      (readText settings name b.ensureLine).map
        (Offset.relabelRead (Position.down (a.chars.count '\n' + 1))) := by
  by_cases hb : b = ""
  · subst hb
    have hnone : ∀ result ∈ readText (M := M) settings name "", ∃ e, result = .ok e := by
      rw [readText_nil]
      exact List.forall_mem_nil _
    rw [readText_ensureLine settings name hnone]
    have hends : (a ++ "\n" : Text).endsLine = true := by
      rw [Text.endsLine, Text.bytes_append, List.getLast?_append_of_ne_nil _ (by decide)]
      rfl
    rw [Text.append_nil, Text.ensureLine, if_pos hends, ← Text.append_nil (a ++ "\n")]
    exact readText_append settings name "" hok
  · rw [Text.ensureLine_append a hb]
    exact readText_append settings name b.ensureLine hok

end

/-- The reply that consists of answers. -/
def Reply.ofAnswers (answers : List (Answer M)) : Reply where
  out := Text.join "" (answers.map (Answer.printed {}))
  err :=
    let reported := Text.join "" (answers.map Answer.reported)
    if reported.isEmpty then none else some reported

namespace Session

/-- The answers of a session to what is read of a text. -/
def answers (s : Session M) (text : Text) : List (Answer M) :=
  (({ env := s.env } : Machine M).replay ({} : Settings).maxDepth
    (readText {} "" text.ensureLine)).1

/-- The bindings of a session after what is read of a text. -/
def bound (s : Session M) (text : Text) : Env M :=
  (({ env := s.env } : Machine M).replay ({} : Settings).maxDepth
    (readText {} "" text.ensureLine)).2.env

variable {s : Session M}

/-- A session replies with its answers. -/
theorem eval_eq (hs : s.env.Sound) (text : Text) :
    s.eval text = (.ofAnswers (s.answers text), ⟨s.bound text⟩) := by
  have hdebug : ({} : Settings).debug = {} := rfl
  have htame : Offset.Tame { stop := ({} : Position).advanceAll (Source.ofText text.ensureLine).rest }
      (Cursor.start {} "" (.ofText text.ensureLine)) :=
    ⟨Source.lined_of_feed_none rfl, fun _ => rfl, fun _ => rfl, rfl, rfl, fun _ hx => nomatch hx⟩
  obtain ⟨hwrote, hmachine⟩ := Progress.loopWithin_wrote (M := M)
    (p := Progress.atStart {} (.ofText text.ensureLine) s.env) rfl rfl hdebug
    (Cursor.start {} "" (.ofText text.ensureLine)).scanner.size htame rfl wellFormed_of_readText hs
  have hrun : runSource {} "" (.ofText text.ensureLine) s.env false =
      (Progress.atStart {} (.ofText text.ensureLine) s.env).loopWithin {} false
        (Cursor.start {} "" (.ofText text.ensureLine)).scanner.size := rfl
  have hout := hwrote.out.trans (Text.nil_append _)
  have herr := hwrote.err.trans (Text.nil_append _)
  rw [eval, hrun, hout, herr, hmachine]
  rfl

/-- The sessions that there are: one without bindings, and those after texts were evaluated. -/
inductive Reached : Session M → Prop where
  | fresh : Reached {}
  | eval {s : Session M} (before : Reached s) (text : Text) : Reached (s.eval text).2

/-- The values bound in a session are sound. -/
theorem Reached.sound (h : s.Reached) : s.env.Sound := by
  induction h with
  | fresh => exact fun _ hb => nomatch hb
  | @eval s _ text ih =>
    rw [eval_eq ih text]
    exact (Machine.replay_sound _ wellFormed_of_readText ih).2

end Session

/-- A position without its line. -/
def Position.forgetLine (p : Position) : Position := ⟨1, p.column⟩

omit [Numeric M] in
/-- Positions are changed one way after the other. -/
theorem Offset.relabelRead_relabelRead (f g : Position → Position)
    (result : Except SyntaxError (Expr M)) :
    relabelRead g (relabelRead f result) = relabelRead (g ∘ f) result := by
  cases result with
  | ok e => exact congrArg Except.ok (e.relabel_relabel f g)
  | error e =>
    obtain ⟨file, pos, fault⟩ := e
    cases fault <;> rfl

/-- Line numbers do not matter: statements further down have the same answers, and bind the same
names to the same values, up to line numbers. -/
theorem Machine.replay_down {m : Machine M} (limit k : Nat)
    {results : List (Except SyntaxError (Expr M))}
    (hwell : ∀ e, .ok e ∈ results → e.WellFormed) (hm : m.env.Sound) :
    let moved := m.replay limit (results.map (Offset.relabelRead (Position.down k)))
    moved.1.map (Answer.relabel Position.forgetLine) =
        (m.replay limit results).1.map (Answer.relabel Position.forgetLine) ∧
      moved.2.relabel Position.forgetLine =
        (m.replay limit results).2.relabel Position.forgetLine := by
  have hmoved : ∀ e, .ok e ∈ results.map (Offset.relabelRead (Position.down k)) →
      e.WellFormed := by
    intro e he
    obtain ⟨result, hresult, heq⟩ := List.mem_map.mp he
    cases result with
    | error x => cases heq
    | ok x =>
      cases heq
      exact (hwell x hresult).relabel _
  have hforget : (results.map (Offset.relabelRead (Position.down k))).map
      (Offset.relabelRead Position.forgetLine) =
        results.map (Offset.relabelRead Position.forgetLine) := by
    rw [List.map_map]
    refine List.map_congr_left fun result _ => ?_
    exact Offset.relabelRead_relabelRead (Position.down k) Position.forgetLine result
  have hfirst := Machine.replay_relabel limit Position.forgetLine hmoved hm
  have hsecond := Machine.replay_relabel limit Position.forgetLine hwell hm
  rw [hforget] at hfirst
  exact Prod.mk.inj (hfirst.symm.trans hsecond)

/-- A session that is given two texts at once answers the first one, and then the second one up to
line numbers. -/
theorem Session.answers_append {s : Session M} (hs : s.env.Sound) {a : Text} (b : Text)
    (hok : ∀ result ∈ readText (M := M) {} "" a, ∃ e, result = .ok e) :
    ∃ later, s.answers (a ++ "\n" ++ b) = s.answers a ++ later ∧
      later.map (Answer.relabel Position.forgetLine) =
        (answers ⟨s.bound a⟩ b).map (Answer.relabel Position.forgetLine) ∧
      (s.bound (a ++ "\n" ++ b)).relabel Position.forgetLine =
        (bound ⟨s.bound a⟩ b).relabel Position.forgetLine := by
  obtain ⟨m, hm⟩ : ∃ m, m = ({ env := s.env } : Machine M).replay ({} : Settings).maxDepth
    (readText {} "" a) := ⟨_, rfl⟩
  have hstack : m.2.stack = [] := hm ▸ Machine.stack_replay _ rfl
  have hsound : m.2.env.Sound := hm ▸ (Machine.replay_sound _ wellFormed_of_readText hs).2
  have hline := readText_ensureLine {} "" hok
  have hanswers : s.answers a = m.1 := by rw [answers, hline, hm]
  have hbound : s.bound a = m.2.env := by rw [bound, hline, hm]
  have hread := readText_ensureLine_append {} "" b hok
  have hwell : ∀ e : Expr M, .ok e ∈ readText {} "" b.ensureLine → e.WellFormed :=
    wellFormed_of_readText
  have hdown := Machine.replay_down (m := { env := m.2.env }) ({} : Settings).maxDepth
    (a.chars.count '\n' + 1) hwell hsound
  generalize (readText (M := M) {} "" b.ensureLine).map
    (Offset.relabelRead (Position.down (a.chars.count '\n' + 1))) = moved at hread hdown
  -- The machine goes on as one that starts with the bindings would.
  have hsame : (m.2.replay ({} : Settings).maxDepth moved).1 = _ ∧
      (m.2.replay ({} : Settings).maxDepth moved).2.env = _ :=
    Machine.replay_of_env ({} : Settings).maxDepth (n := { env := m.2.env }) hstack rfl rfl
  have hwhole := Machine.replay_append ({} : Settings).maxDepth (readText {} "" a) moved
    { env := s.env }
  rw [← hread, ← hm] at hwhole
  refine ⟨(m.2.replay ({} : Settings).maxDepth moved).1, ?_, ?_, ?_⟩
  · rw [answers, hwhole, hanswers]
  · rw [hsame.1, hdown.1, answers, hbound]
  · rw [bound, hwhole, hsame.2, bound, hbound]
    exact congrArg Machine.env hdown.2

/-- Programs compose by lines. After a text that is read without an error, a line feed and
another text are read as the statements and errors of the other text, further down by the lines of
the first. A session that is given both texts at once prints what it prints when they are given one
by one, and binds the same names to values that print the same; what it answers to the second text,
errors and failures with their calls, is the same up to line numbers. -/
theorem programs_compose_by_lines (a b : Text) :
    (∀ (settings : Settings) (name : Text) (statements : List (Expr M)),
      ((Cursor.start settings name (.ofText a)).program settings).1 = .ok statements →
      readText settings name (a ++ "\n" ++ b) = statements.map .ok ++
        (readText settings name b).map
          (Offset.relabelRead (Position.down (a.chars.count '\n' + 1))) ∧
      ((Cursor.start settings name (.ofText (a ++ "\n" ++ b))).program settings).1 =
        match ((Cursor.start settings name (.ofText b)).program settings).1 with
        | .ok later =>
          .ok (statements ++ later.map (Expr.relabel (Position.down (a.chars.count '\n' + 1))))
        | .error errors =>
          .error (errors.map (SyntaxError.relabel (Position.down (a.chars.count '\n' + 1))))) ∧
    ∀ (s : Session M) (statements : List (Expr M)), s.Reached →
      ((Cursor.start {} "" (.ofText a)).program {}).1 = .ok statements →
      let whole := s.eval (a ++ "\n" ++ b)
      let first := s.eval a
      let second := first.2.eval b
      whole.1.out = first.1.out ++ second.1.out ∧
      whole.2.names = second.2.names ∧
      (∀ (name : Text) (write : M → Text),
        (whole.2.env.bindings.find? name).map (Value.render write) =
          (second.2.env.bindings.find? name).map (Value.render write)) ∧
      whole.1 = .ofAnswers (s.answers (a ++ "\n" ++ b)) ∧
      first.1 = .ofAnswers (s.answers a) ∧ second.1 = .ofAnswers (first.2.answers b) ∧
      ∃ later, s.answers (a ++ "\n" ++ b) = s.answers a ++ later ∧
        later.map (Answer.relabel Position.forgetLine) =
          (first.2.answers b).map (Answer.relabel Position.forgetLine) := by
  refine ⟨fun settings name statements h => program_append b h, ?_⟩
  intro s statements hs h
  obtain ⟨later, hanswers, hlater, hbound⟩ :=
    Session.answers_append hs.sound b (ok_of_program h)
  have hfirst := Session.eval_eq hs.sound a
  have hnext : (⟨s.bound a⟩ : Session M).Reached := by
    have hnext := hs.eval a
    rw [hfirst] at hnext
    exact hnext
  have hsecond := Session.eval_eq hnext.sound b
  have hwhole := Session.eval_eq hs.sound (a ++ "\n" ++ b)
  rw [hfirst]
  dsimp only
  rw [hsecond, hwhole]
  have hprinted (xs : List (Answer M)) : xs.map (Answer.printed {}) =
      (xs.map (Answer.relabel Position.forgetLine)).map (Answer.printed {}) := by
    rw [List.map_map]
    exact List.map_congr_left fun x _ => (x.printed_relabel {} Position.forgetLine).symm
  have hbindings := congrArg Env.bindings hbound
  refine ⟨?_, ?_, fun name write => ?_, rfl, rfl, rfl, later, hanswers, hlater⟩
  · simp only [Reply.ofAnswers]
    rw [hanswers, List.map_append, Text.join_nil_append, hprinted later, hlater, ← hprinted]
  · have hnames := congrArg Bindings.names hbindings
    simp only [Env.relabel, Bindings.names_relabel] at hnames
    exact congrArg (Text.join " ") hnames
  · have hfind := congrArg (Bindings.find? name) hbindings
    simp only [Env.relabel, Bindings.find?_relabel] at hfind
    have hrender := congrArg (Option.map (Value.render write)) hfind
    simpa [Function.comp_def] using hrender

/-- A function that will fail. -/
def helperPiece : Text := "g = lambda (n) \x7b return n + u \x7d"

/-- A function that calls the one that will fail. -/
def bindingPiece : Text := "x = 2\nf = lambda (n) \x7b return g(n) * x \x7d"

/-- A call that fails, a line that cannot be read and one that can. -/
def callingPiece : Text := "f(x)\ny = +\nx * 3"

/-- The calls in progress are reported with the lines of their own pieces. -/
theorem pieces_of_failing_program :
    let s := (({} : Session ℚ).eval helperPiece).2
    let first := s.eval bindingPiece
    let second := first.2.eval callingPiece
    let whole := s.eval (bindingPiece ++ "\n" ++ callingPiece)
    (∃ statements : List (Expr ℚ),
      ((Cursor.start {} "" (.ofText bindingPiece)).program {}).1 = .ok statements) ∧
    whole.1.out = first.1.out ++ second.1.out ∧ whole.2.names = second.2.names ∧
    second.1.err = some ("1:29: u is not defined\n\t•> f(2) at 1:1\n\t•> g(2) at 2:25\n" ++
      "2:5: unknown unary operator \"+\"\n") ∧
    whole.1.err = some ("1:29: u is not defined\n\t•> f(2) at 3:1\n\t•> g(2) at 2:25\n" ++
      "4:5: unknown unary operator \"+\"\n") := by
  intro s first second whole
  have hread : (match ((Cursor.start {} "" (.ofText bindingPiece)).program (M := ℚ) {}).1 with
      | .ok _ => true
      | .error _ => false) = true := by
    decide +kernel
  cases hprogram : ((Cursor.start {} "" (.ofText bindingPiece)).program (M := ℚ) {}).1 with
  | error errors =>
    rw [hprogram] at hread
    cases hread
  | ok statements =>
    have hreached : s.Reached := .eval .fresh helperPiece
    obtain ⟨hout, hnames, -⟩ :=
      (programs_compose_by_lines bindingPiece callingPiece).2 s statements hreached hprogram
    exact ⟨⟨statements, rfl⟩, hout, hnames, by decide +kernel, by decide +kernel⟩

end SymCalc
