import Lox.Proofs.Grammar.Places
import Lox.Proofs.Session.Sinks

/-! # An expression as a program

An expression with a semicolon in the line after it is a program whose value is
written. Evaluating the expression and running the program come to the same. -/

namespace Lox

open Grammar

/-- An expression with which nothing is wrong, where nodes are numbered from `first`. -/
structure Evaluable (source : String) (first : Nat) (e : Expr) : Prop where
  read : (readExpression source first).report.hadError = false
  value : (readExpression source first).value = some e
  scopes : (Scope.wholeExpression e).errors = #[]

/-- An expression whose nesting also fits when it stands one level deeper. -/
def Roomy (source : String) (first : Nat) : Prop :=
  ∃ e next, Derives .expression Place.top.deeper first (Lexer.scan source).tokens.tokens e next

/-- A rule has read the text to its end and found no error. -/
def ReadsAll : EStateM.Result Halt Cursor Expr → Bool
  | .ok _ c => c.tokens.isEmpty && c.errors.isEmpty
  | .error _ _ => false

/-- An expression, and a semicolon in the next line. -/
def bareText (source : String) : String := Lexer.joined source ";"

variable {source : String} {first n : Nat} {e : Expr}

theorem roomy_of_readsAll
    (h : ReadsAll (expression (stepBound (Lexer.scan source).tokens.tokens.length)
      Place.top.deeper (.start (Lexer.scan source).tokens first)) = true) : Roomy source first := by
  cases hrule : expression (stepBound (Lexer.scan source).tokens.tokens.length) Place.top.deeper
    (.start (Lexer.scan source).tokens first) with
  | ok e c =>
    rw [hrule] at h
    obtain ⟨hend, hclean⟩ := Bool.and_eq_true_iff.mp h
    exact ⟨e, _, derives_of_expression hrule (List.isEmpty_iff.mp hend)
      (Array.isEmpty_iff.mp hclean)⟩
  | error halt c =>
    rw [hrule] at h
    cases h

/-! ## Reading -/

theorem Evaluable.faults (h : Evaluable source first e) : (Lexer.scan source).faults = #[] := by
  have hstatic := (parseExpression_static first (Lexer.scan source).tokens).2
  exact (Report.clean_of_addAll (faults_static source)
    (Report.clean_of_addAll hstatic h.read).1).2

/-- The tree that an expression has one level deeper is the one that it has on its own. -/
theorem Evaluable.derives (h : Evaluable source first e) (hroom : Roomy source first) :
    Derives .expression Place.top.deeper first (Lexer.scan source).tokens.tokens e
      (readExpression source first).nextId := by
  obtain ⟨e', next, hderives⟩ := hroom
  have hparse := parseExpression_of_derives (hderives.admitted .top_deeper)
  have hnext : (readExpression source first).nextId = next := by
    unfold readExpression Reading.of
    dsimp only
    rw [hparse]
  have hvalue : (readExpression source first).value = some e' := by
    unfold readExpression Reading.of
    dsimp only
    rw [hparse]
  obtain rfl := Option.some.inj (h.value.symm.trans hvalue)
  rw [hnext]
  exact hderives

/-- A statement that is an expression is nested one level deeper than the expression. -/
theorem derivesProgram_bare {ts : List Token} {next : Nat} {semi : Token}
    (h : Derives .expression Place.top.deeper n ts e next)
    (hsemi : semi.kind = .symbol .semicolon) : DerivesProgram n (ts ++ [semi]) [.expression e] next := by
  have hroom : Place.top.depth < maxNesting := by decide
  have hstatement : Derives .declaration .top n (ts ++ [semi]) (.expression e) next :=
    .statement (.nested hroom (.expressionStatement (.terminated h hsemi)))
  have hprogram := Derives.declarations hstatement .noDeclaration
  rw [List.append_nil] at hprogram
  exact hprogram

theorem readProgram_bareText (h : Evaluable source first e) (hroom : Roomy source first) :
    readProgram (bareText source) first =
      ⟨[.expression e], .empty, (readExpression source first).nextId⟩ := by
  have hsemicolon : (Lexer.scan ";").faults = #[] := by decide +kernel
  have htokens : (Lexer.scan ";").tokens.tokens = [⟨.symbol .semicolon, ";", ⟨0, 1⟩⟩] := by
    decide +kernel
  refine readProgram_of_derives (Lexer.faults_joined h.faults hsemicolon) ?_
  rw [bareText, Lexer.tokens_joined h.faults, htokens]
  exact derivesProgram_bare (h.derives hroom) rfl

theorem scopes_bare (e : Expr) : Scope.program [.expression e] = Scope.wholeExpression e := rfl

theorem Evaluable.accepted (h : Evaluable source first e) (hroom : Roomy source first) :
    Accepted (bareText source) := by
  have hread := readProgram_bareText h hroom
  have hzero := readProgram_eq (bareText source) first
  constructor
  · have hreport : (readProgram (bareText source) 0).report = .empty := by
      rw [hread] at hzero
      exact (Reading.mk.inj hzero).2.1.symm
    rw [hreport]
    rfl
  · have hwalk := Renumber.walk_program (· + first) (readProgram (bareText source) 0).value
    rw [hread] at hzero
    rw [← (Reading.mk.inj hzero).1, scopes_bare] at hwalk
    have herrors : (Scope.wholeExpression e).errors =
        (Scope.program (readProgram (bareText source) 0).value).errors := by rw [hwalk]; rfl
    rw [← herrors]
    exact h.scopes

/-! ## Evaluating -/

/-- The machine after a line of output more. -/
def Machine.printed (m : Machine) (text : String) : Machine :=
  { m with sink := { m.sink with
      lines := m.sink.lines.push text, flushed := m.sink.flushed + 1 } }

/-- A sink that does not fail takes a line. -/
theorem Run.writeLine_printed {m : Machine} (hsink : m.sink.fault = none) (text : String) :
    Run.writeLine text m = .ok () (m.printed text) := by
  have hdue : m.sink.due = none := by
    unfold Sink.due
    rw [hsink]
  unfold Run.writeLine Sink.writeLine
  simp only [hdue]
  rfl

namespace Session

/-- The session after a line of output more. -/
def printed (s : Session) (text : String) : Session := { s with machine := s.machine.printed text }

/-- An expression and the program of it have come to the same, and `log` is what the program did
after the evaluation. -/
inductive SameEnd :
    Option (Except Report Value × Session) → Option (Report × Session) → Array Trace.Entry → Prop
  /-- Neither has ended within its steps. -/
  | unfinished : SameEnd none none #[]
  /-- Both have failed with one error. -/
  | failed {d : Diagnostic} (runtime : d.isStatic = false) (s : Session) :
    SameEnd (some (.error ⟨#[], #[d]⟩, s)) (some (⟨#[], #[d]⟩, s)) #[]
  /-- The program has written the value. -/
  | value (v : Value) (s : Session) :
    SameEnd (some (.ok v, s)) (some (.empty, s.printed (s.machine.heap.describe v)))
      #[.write (s.machine.heap.describe v) s.machine.heap s.machine.clock]

/-- The answer to an expression with which nothing is wrong, the session after it, and the trace. -/
def evaluated (next : Nat) :
    EStateM.Result Stop Trace.Tape (Except Diagnostic Value) →
      Option (Except Report Value × Session) × Array Trace.Entry
  | .ok (.ok v) t => (some (.ok v, ⟨t.machine, next⟩), t.entries)
  | .ok (.error d) t => (some (.error (Report.empty.add d), ⟨t.machine, next⟩), t.entries)
  | .error _ t => (none, t.entries)

/-- An expression with which nothing is wrong is evaluated. -/
theorem evaluate_of_evaluable {s : Session} (h : Evaluable source s.nextId e) (fuel : Nat) :
    (s.evaluate fuel source, (s.traced fuel (.expression source)).2) =
      evaluated (readExpression source s.nextId).nextId
        (Trace.attempt (Trace.expr fuel e) ⟨recording s.machine (Scope.wholeExpression e), #[]⟩) := by
  have hreport : (readExpression source s.nextId).report = .empty := by
    have hruntime := readExpression_runtime source s.nextId
    have hread := h.read
    generalize (readExpression source s.nextId).report = report at hruntime hread
    obtain ⟨static, runtime⟩ := report
    obtain rfl : runtime = #[] := hruntime
    have hempty : static = #[] := by simpa [Report.hadError] using hread
    rw [hempty]
    rfl
  have hscopes : Report.empty.addAll (Scope.wholeExpression e).errors = .empty := by
    rw [h.scopes]
    rfl
  have hclean : Report.empty.hadError = false := rfl
  have herases := ((Trace.erasesWithin fuel).expr e).attempt.eq
    ⟨recording s.machine (Scope.wholeExpression e), #[]⟩
  unfold evaluate traced Input.draft Draft.expression Trace.task
  simp only [h.value, hreport, hscopes, hclean, Option.map_some, Bool.false_eq_true, if_false,
    Functor.map, EStateM.map]
  dsimp only at herases
  rw [← herases]
  cases Trace.attempt (Trace.expr fuel e)
      ⟨recording s.machine (Scope.wholeExpression e), #[]⟩ with
  | ok outcome t => cases outcome <;> rfl
  | error stop t => rfl

/-- The program of an expression with which nothing is wrong is executed. -/
theorem run_of_evaluable {s : Session} (h : Evaluable source s.nextId e)
    (hroom : Roomy source s.nextId) (fuel : Nat) :
    let next := (readExpression source s.nextId).nextId
    let ended := Trace.execute fuel [.expression e]
      ⟨recording s.machine (Scope.wholeExpression e), #[]⟩
    s.run fuel (bareText source) = concluded next (Trace.forget id ended) ∧
      (s.traced fuel (.program (bareText source))).2 = (Trace.tapeOf ended).entries := by
  intro next ended
  have hread := readProgram_bareText h hroom
  have hrun := run_of_accepted (h.accepted hroom) s fuel
  have htraced := traced_of_accepted (h.accepted hroom) s fuel
  have herases := (Trace.erases_execute fuel [.expression e]).eq
    ⟨recording s.machine (Scope.wholeExpression e), #[]⟩
  rw [hread] at hrun htraced
  constructor
  · rw [hrun]
    exact congrArg (concluded next) herases.symm
  · rw [htraced, entries_traceConcluded]
    rfl

/-- The program of an expression evaluates it and writes the value. -/
theorem execute_of_bare (fuel : Nat) (e : Expr) :
    Trace.execute fuel [.expression e] =
      Trace.attempt (Trace.expr fuel e >>= Trace.writeValue) >>= fun
        | .ok _ => pure none
        | .error diagnostic => pure (some diagnostic) := rfl

/-- What the program of an expression does, by what its evaluation ends in. -/
theorem execute_bare {m : Machine} (hsink : m.sink.fault = none) (fuel : Nat) (e : Expr) :
    Ends (Trace.expr fuel e) ⟨m, #[]⟩
      (fun v t =>
        let text := t.machine.heap.describe v
        Trace.execute fuel [.expression e] ⟨m, #[]⟩ = .ok none
          ⟨t.machine.printed text, t.entries.push (.write text t.machine.heap t.machine.clock)⟩)
      fun stop t => Trace.execute fuel [.expression e] ⟨m, #[]⟩ = match stop with
        | .failed d => .ok (some d) t
        | .outOfFuel => .error .outOfFuel t := by
  -- What the evaluation writes goes to the same sink, so the sink takes the value too.
  have hcuts := (Trace.cutsWithin ⟨m.sink, hsink, 0, .write⟩ fuel).expr e
  have hfills := (hcuts.fills ⟨m, #[]⟩ (Trace.filled_empty m.sink).symm).1
  rw [execute_of_bare]
  unfold Ends
  cases hexpr : Trace.expr fuel e ⟨m, #[]⟩ with
  | ok v t =>
    rw [hexpr] at hfills
    have hfault : t.machine.sink.fault = none := by
      rw [show t.machine.sink = Trace.filled m.sink t.entries from hfills]
      exact hsink
    simp only [bind, EStateM.bind, Trace.attempt, hexpr, Trace.writeValue, Trace.lift, Run.ask,
      Trace.note, Run.writeLine_printed hfault]
    rfl
  | error stop t =>
    simp only [bind, EStateM.bind, Trace.attempt, hexpr]
    cases stop <;> rfl

/-- **Evaluating an expression and running it as a program agree.** Let nothing be wrong with an
expression for a session whose sink does not fail, and let there be room for one more level of
nesting around it. Then the expression with a semicolon in the next line is read as a program that is
this one expression, with the same numbers, and nothing is wrong with its scopes. Within every bound
on steps both come to the same: neither ends, or both fail with the same error, or the program writes
the value. What the program does is what the evaluation does, once, and then only the writing. -/
theorem run_agrees_with_evaluate {s : Session} (hsink : s.machine.sink.fault = none)
    (h : Evaluable source s.nextId e) (hroom : Roomy source s.nextId) :
    readProgram (bareText source) s.nextId =
        ⟨[.expression e], .empty, (readExpression source s.nextId).nextId⟩ ∧
      (Scope.program [.expression e]).errors = #[] ∧
      ∀ fuel, ∃ more, SameEnd (s.evaluate fuel source) (s.run fuel (bareText source)) more ∧
        (s.traced fuel (.program (bareText source))).2 =
          (s.traced fuel (.expression source)).2 ++ more := by
  refine ⟨readProgram_bareText h hroom, h.scopes, fun fuel => ?_⟩
  obtain ⟨hevaluate, hlog⟩ := Prod.mk.inj (evaluate_of_evaluable h fuel)
  obtain ⟨hrun, hlog'⟩ := run_of_evaluable h hroom fuel
  have hends := execute_bare (m := recording s.machine (Scope.wholeExpression e)) hsink fuel e
  rw [hevaluate, hlog, hrun, hlog']
  unfold Trace.attempt
  cases hexpr : Trace.expr fuel e ⟨recording s.machine (Scope.wholeExpression e), #[]⟩ with
  | ok v t =>
    rw [hends.of_ok hexpr]
    exact ⟨_, .value v ⟨t.machine, _⟩, Array.push_eq_append⟩
  | error stop t =>
    have hend := hends.of_error hexpr
    cases stop with
    | failed d =>
      have hexecute := (Trace.erases_execute fuel [.expression e]).eq
        ⟨recording s.machine (Scope.wholeExpression e), #[]⟩
      rw [hend] at hexecute
      have hdynamic := dynamic_of_execute hexecute.symm
      have htold : Report.empty.add d = ⟨#[], #[d]⟩ := by
        unfold Report.add
        rw [hdynamic]
        rfl
      rw [hend]
      refine ⟨#[], ?_, (Array.append_empty ..).symm⟩
      show SameEnd (some (.error (Report.empty.add d), _)) (some (⟨#[], #[d]⟩, _)) #[]
      rw [htold]
      exact .failed hdynamic _
    | outOfFuel =>
      rw [hend]
      exact ⟨#[], .unfinished, (Array.append_empty ..).symm⟩

/-- The text begins with `fun`, ends in a comment, calls a function that a function has made, and
prints before it has its value. -/
theorem run_agrees_with_evaluate_called_lambda :
    let s := start .reliable fun _ => 0
    let source :=
      "fun (x) \x7b print x; return fun (y) \x7b return x + y; \x7d; \x7d (2)(3) // called twice"
    ∃ e, s.machine.sink.fault = none ∧ Evaluable source s.nextId e ∧ Roomy source s.nextId ∧
      readProgram (bareText source) s.nextId =
        ⟨[.expression e], .empty, (readExpression source s.nextId).nextId⟩ ∧
      (∃ more, SameEnd (s.evaluate 40 source) (s.run 40 (bareText source)) more ∧
        (s.traced 40 (.program (bareText source))).2 =
          (s.traced 40 (.expression source)).2 ++ more) ∧
      (s.evaluate 40 source).map (fun run => run.2.machine.sink.lines) = some #["2"] ∧
      (s.run 40 (bareText source)).map (fun run => run.2.machine.sink.lines) = some #["2", "5"] := by
  intro s source
  have hsome : (readExpression source s.nextId).value.isSome = true := by decide +kernel
  obtain ⟨e, he⟩ := Option.isSome_iff_exists.mp hsome
  have hscopes : ((readExpression source s.nextId).value.map fun e =>
      (Scope.wholeExpression e).errors) = some #[] := by decide +kernel
  rw [he] at hscopes
  have hevaluable : Evaluable source s.nextId e :=
    ⟨by decide +kernel, he, Option.some.inj hscopes⟩
  have hroom : Roomy source s.nextId := roomy_of_readsAll (by decide +kernel)
  obtain ⟨hprogram, -, hagree⟩ := run_agrees_with_evaluate (s := s) rfl hevaluable hroom
  exact ⟨e, rfl, hevaluable, hroom, hprogram, hagree 40, by decide +kernel, by decide +kernel⟩

end Session
end Lox
