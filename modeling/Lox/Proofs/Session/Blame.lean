import Lox.Proofs.Grammar.Marks
import Lox.Proofs.Session.Rooted
import Lox.Proofs.Token.LongestMatch

/-! # Where errors point

A span is a pair of offsets and does not tell of which text. Functions outlive
the text that they were read from and keep its spans, so an error of a run points
into one of the texts that the session was given, and not always into the last
one. -/

namespace Lox

open Twin

/-- The text of an input. -/
def Input.source : Input → String
  | .program source | .expression source => source

/-- A span of a text, from the start of one of its tokens to the end of one. -/
def Marks (text : String) (span : Span) : Prop :=
  ∃ a ∈ (Lexer.scan text).tokens.tokens, ∃ b ∈ (Lexer.scan text).tokens.tokens,
    span = a.span.cover b.span

instance (text : String) (span : Span) : Decidable (Marks text span) :=
  inferInstanceAs (Decidable (∃ a ∈ (Lexer.scan text).tokens.tokens,
    ∃ b ∈ (Lexer.scan text).tokens.tokens, span = a.span.cover b.span))

theorem Span.cover_self (a : Span) : a.cover a = a := by simp [Span.cover]

theorem Token.StandsIn.within {t : Token} {source : String} (h : t.StandsIn source) :
    t.span.start < t.span.stop ∧ t.span.stop ≤ source.utf8ByteSize := by
  obtain ⟨before, after, rfl, hstart, hstop, hsome, -, -⟩ := h
  have hpos : t.lexeme.utf8ByteSize ≠ 0 := by simpa using hsome
  rw [String.utf8ByteSize_append] at hstop
  rw [String.utf8ByteSize_append, String.utf8ByteSize_append]
  omega

theorem Marks.within {text : String} {span : Span} (h : Marks text span) :
    span.start < span.stop ∧ span.stop ≤ text.utf8ByteSize := by
  obtain ⟨a, ha, b, hb, rfl⟩ := h
  have hfirst := (Lexer.standsIn_of_mem ha).within
  have hlast := (Lexer.standsIn_of_mem hb).within
  simp only [Span.cover]
  omega

/-! ## The texts of a session -/

/-- Moves the spans that are none of a text. -/
def strays (text : String) (span : Span) : Span :=
  if Marks text span then span else ⟨span.start + 1, span.stop⟩

theorem strays_eq_iff {text : String} {span : Span} : strays text span = span ↔ Marks text span := by
  unfold strays
  split
  · next h => exact ⟨fun _ => h, fun _ => rfl⟩
  · next h =>
    refine ⟨fun heq => ?_, fun hmarks => absurd hmarks h⟩
    have hstart := congrArg Span.start heq
    dsimp only at hstart
    omega

theorem pinned_strays (text : String) : Grammar.Pinned (strays text)
    fun span => ∃ t ∈ (Lexer.scan text).tokens.tokens, span = t.span where
  one := by
    rintro _ ⟨t, ht, rfl⟩
    exact strays_eq_iff.mpr ⟨t, ht, t, ht, (Span.cover_self _).symm⟩
  cover := by
    rintro _ _ ⟨a, ha, rfl⟩ ⟨b, hb, rfl⟩
    exact strays_eq_iff.mpr ⟨a, ha, b, hb, rfl⟩

/-- Texts of which only the spans are told from others. -/
def Texts.told (texts : List String) : Texts {text : String // text ∈ texts} where
  holds _ _ := True
  shift text := strays text.1

/-- The program that a text is read as has spans of this text only. -/
theorem still_readProgram {source : String} {first : Nat}
    (h : (readProgram source first).report.hadError = false) :
    Respan.stmts (strays source) (readProgram source first).value =
      (readProgram source first).value :=
  have hstatic := (parseProgram_static first (Lexer.scan source).tokens).2
  (Grammar.derivesProgram_of_parseProgram (Reading.errors_of hstatic h)).still
    (pinned_strays source) fun t ht => ⟨t, ht, rfl⟩

theorem still_readExpression {source : String} {first : Nat} {e : Expr}
    (h : (readExpression source first).report.hadError = false)
    (he : (readExpression source first).value = some e) :
    Respan.expr (strays source) e = e :=
  have hstatic := (parseExpression_static first (Lexer.scan source).tokens).2
  (Grammar.derives_of_parseExpression he (Reading.errors_of hstatic h)).still
    (pinned_strays source) fun t ht => ⟨t, ht, rfl⟩

/-! ## What an answer tells -/

/-- Answers that tell of errors that go together. -/
def Twin.Setting.Accord (S : Setting) (a a' : Answer) : Prop :=
  List.Forall₂ S.Blames a.faults.runtime.toList a'.faults.runtime.toList

namespace Session

variable {S : Setting} {w : World S.Place} {f f' : FrameId} {p : S.Place} {report : Report}

theorem accord_add {d d' : Diagnostic} (hreport : report.runtime = #[]) (h : S.Blames d d') :
    List.Forall₂ S.Blames (report.add d).runtime.toList (report.add d').runtime.toList := by
  have hstatic : d'.isStatic = d.isStatic := by cases h <;> rfl
  unfold Report.add
  rw [hstatic]
  split
  · rw [hreport]
    exact .nil
  · rw [hreport]
    exact .cons h .nil

theorem sim_executed (hreport : report.runtime = #[]) (fuel : Nat) {ss : List Stmt}
    (hf : w.sites f f' p) (hkin : KinStmts S.toKinship p ss ss) :
    Sim S w f f' (Answer.executed report <$> execute fuel ss)
      (Answer.executed report <$> execute fuel ss) fun _ => S.Accord := by
  refine (sim_execute fuel hf hkin).map fun w e e' herror => ?_
  unfold Setting.Accord Answer.executed Answer.faults
  cases herror with
  | none =>
    rw [Option.elim_none, hreport]
    exact .nil
  | some hblames => exact accord_add hreport hblames

theorem sim_evaluated (hreport : report.runtime = #[]) (fuel : Nat) {e : Expr}
    (hf : w.sites f f' p) (hkin : KinExpr S.toKinship p e e) :
    Sim S w f f' (Answer.evaluated report <$> Run.attempt (Eval.expr fuel e))
      (Answer.evaluated report <$> Run.attempt (Eval.expr fuel e)) fun _ => S.Accord := by
  refine ((simWithin S fuel).expr hf hkin).attempt.map fun w r r' htried => ?_
  unfold Setting.Accord
  cases htried with
  | ok => exact .nil
  | error hblames => exact accord_add hreport hblames

/-- What is done with an input is done beside itself with its text told from others. -/
theorem sim_told {texts : List String} {globals : FrameId} {R : Resolutions}
    {hR : ∀ p id, (Texts.told texts).holds p id → R.find? id = R.find? id} (fuel : Nat)
    {input : Input} {first : Nat} (hmem : input.source ∈ texts)
    (hread : (input.draft fuel first).report.hadError = false)
    (hstatic : ∀ walk, (input.draft fuel first).walk = some walk →
      ∀ e ∈ walk.errors, e.isStatic = true) :
    Sim ((Texts.told texts).setting globals R R hR) Texts.everywhere f f (input.draft fuel first).task
      (input.draft fuel first).task
      fun _ => Setting.Accord ((Texts.told texts).setting globals R R hR) := by
  have hmirrors := Texts.kinship_mirrors (T := .told texts) ⟨input.source, hmem⟩
  cases input with
  | program source =>
    have hkin := kin_stmts_respan hmirrors (readProgram source first).value rfl fun _ _ => trivial
    have hstill : Respan.stmts ((Texts.told texts).shift ⟨(Input.program source).source, hmem⟩)
        (readProgram source first).value = _ := still_readProgram hread
    rw [hstill] at hkin
    refine sim_executed ?_ fuel rfl hkin
    rw [Report.runtime_addAll (hstatic _ rfl)]
    exact readProgram_runtime source first
  | expression source =>
    show Sim ((Texts.told texts).setting globals R R hR) _ _ _
      (Draft.expression fuel source first).task (Draft.expression fuel source first).task _
    have hread : (readExpression source first).report.hadError = false := hread
    have hstatic : ∀ walk, (readExpression source first).value.map Scope.wholeExpression =
      some walk → ∀ e ∈ walk.errors, e.isStatic = true := hstatic
    unfold Draft.expression
    dsimp only
    cases he : (readExpression source first).value with
    | none => exact sim_exhaust
    | some e =>
      rw [he] at hstatic
      have hkin := kin_expr_respan hmirrors e rfl fun _ _ => trivial
      have hstill : Respan.expr ((Texts.told texts).shift ⟨(Input.expression source).source, hmem⟩)
          e = _ := still_readExpression hread he
      rw [hstill] at hkin
      refine sim_evaluated ?_ fuel rfl hkin
      rw [Report.runtime_addAll (hstatic _ rfl)]
      exact readExpression_runtime source first

/-- The functions that a session holds were read from these texts. -/
def Holds (texts : List String) (s : Session) : Prop :=
  (Texts.told texts).Fit s.machine.resolutions s.machine.resolutions s.machine s.machine

variable {texts : List String} {s s' : Session}

/-- An answer tells of errors in the texts, if its input is one of them. -/
theorem Holds.answer {fuel : Nat} {input : Input} {a : Answer}
    (h : answer fuel input s = some (a, s')) (hs : s.Holds texts) (hmem : input.source ∈ texts) :
    s'.Holds texts ∧ ∀ cause span, .located cause span ∈ a.faults.runtime →
      ∃ text ∈ texts, Marks text span := by
  have hfair := draft_fair fuel s.nextId input
  have hnone {r : Report} (hr : r.runtime = #[]) {d : Diagnostic} : d ∉ r.runtime := by
    rw [hr]
    exact Array.not_mem_empty d
  rw [answer_eq_settle] at h
  cases settled_of_settle h with
  | unread =>
    refine ⟨hs, fun cause span hd => absurd hd (hnone ?_)⟩
    rw [hfair.refuse]
    exact hfair.runtime
  | @unscoped walk hwalk =>
    refine ⟨hs.withRecords _ _, fun cause span hd => absurd hd (hnone ?_)⟩
    rw [hfair.refuse, Report.runtime_addAll (hfair.static walk hwalk)]
    exact hfair.runtime
  | @done walk _ machine _ hread _ hdone =>
    have hrecorded := hs.withRecords (s.machine.resolutions.recordAll walk.found)
      (s.machine.resolutions.recordAll walk.found)
    have hsim := hrecorded.ends (fun _ _ _ => rfl) (sim_told fuel hmem hread hfair.static)
    obtain ⟨w, a', t, ht, hfit, haccord⟩ := hsim.of_ok hdone
    obtain ⟨rfl, rfl⟩ := EStateM.Result.ok.inj (hdone.symm.trans ht)
    constructor
    · unfold Holds
      rw [show machine.resolutions = _ from hfit.resolutions]
      exact hfit
    · intro cause span hd
      have hblames := List.forall₂_same.mp haccord _ (Array.mem_toList_iff.mpr hd)
      obtain ⟨⟨text, htext⟩, hmoved⟩ :=
        Texts.movedError_of_blames (⟨input.source, hmem⟩ : {text : String // text ∈ texts}) hblames
      have hspan : span = strays text span := (Diagnostic.located.inj hmoved).2
      exact ⟨text, htext, strays_eq_iff.mp hspan.symm⟩

theorem holds_of_answers {inputs : List (Nat × Input)} {as : List Answer}
    (h : answers inputs s = some (as, s')) (hall : ∀ input ∈ inputs, input.2.source ∈ texts)
    (hs : s.Holds texts) : s'.Holds texts := by
  induction inputs generalizing s as with
  | nil =>
    obtain ⟨-, rfl⟩ := Prod.mk.inj (Option.some.inj h)
    exact hs
  | cons head rest ih =>
    obtain ⟨hhead, hrest⟩ := List.forall_mem_cons.mp hall
    obtain ⟨⟨a, t⟩, ha, h⟩ := Option.bind_eq_some_iff.mp h
    obtain ⟨⟨more, u⟩, hmore, he⟩ := Option.map_eq_some_iff.mp h
    obtain ⟨-, rfl⟩ := Prod.mk.inj he
    exact ih hmore hrest (hs.answer ha hhead).1

theorem holds_start (sink : Sink) (reading : Nat → Float) {natives : List Native}
    (hnatives : ∀ n ∈ natives, n.code.Respectful) :
    ((start sink reading).withNatives natives).Holds texts := by
  obtain ⟨hheap, hhost⟩ := start_holds sink reading Native.clock_respectful hnatives
  exact Texts.fit_of_empty hheap hhost

/-- Every error that a run tells of, and that has a place, points at tokens of the text that is
run or of a text that the session was given before. -/
theorem runtime_errors_mark_texts {sink : Sink} {reading : Nat → Float} {natives : List Native}
    (hnatives : ∀ n ∈ natives, n.code.Respectful)
    {inputs : List (Nat × Input)} {as : List Answer} {s s' : Session}
    (hreached : answers inputs ((start sink reading).withNatives natives) = some (as, s))
    {fuel : Nat} {source : String} {report : Report}
    (hrun : s.run fuel source = some (report, s')) {cause : Cause} {span : Span}
    (herror : .located cause span ∈ report.runtime) :
    ∃ text ∈ source :: inputs.map (·.2.source),
      Marks text span ∧ span.start < span.stop ∧ span.stop ≤ text.utf8ByteSize := by
  have hall : ∀ input ∈ inputs, input.2.source ∈ source :: inputs.map (·.2.source) :=
    fun input hinput => List.mem_cons_of_mem _ (List.mem_map.mpr ⟨input, hinput, rfl⟩)
  have hs := holds_of_answers hreached hall (holds_start sink reading hnatives)
  have hanswer : s.answer fuel (.program source) = some (.report report, s') :=
    congrArg (Option.map _) hrun
  obtain ⟨text, htext, hmarks⟩ := (hs.answer hanswer (List.mem_cons_self ..)).2 cause span herror
  exact ⟨text, htext, hmarks, hmarks.within⟩

theorem runtime_errors_mark_texts_earlier :
    let first := "fun add(first, second) { return first + second; }"
    let second := "add(1, nil);"
    ∃ as s report s', answers [(30, .program first)] ((start .reliable fun _ => 0).withNatives []) =
        some (as, s) ∧ s.run 30 second = some (report, s') ∧
      .located (.execution .operandsNotAddable) ⟨38, 39⟩ ∈ report.runtime ∧
      ∃ text ∈ [second, first], Marks text ⟨38, 39⟩ ∧ 38 < 39 ∧ 39 ≤ text.utf8ByteSize := by
  intro first second
  have hruns : ((answers [(30, .program first)] ((start .reliable fun _ => 0).withNatives [])).bind
      fun reached => (reached.2.run 30 second).map fun last => last.1.runtime) =
      some #[.located (.execution .operandsNotAddable) ⟨38, 39⟩] := by
    decide +kernel
  obtain ⟨⟨as, s⟩, hreached, hrun⟩ := Option.bind_eq_some_iff.mp hruns
  obtain ⟨⟨report, s'⟩, hrun, herror⟩ := Option.map_eq_some_iff.mp hrun
  have hmem : .located (.execution .operandsNotAddable) ⟨38, 39⟩ ∈ report.runtime := by
    rw [show report.runtime = _ from herror]
    exact Array.mem_singleton.mpr rfl
  have hnatives : ∀ n ∈ ([] : List Native), n.code.Respectful := nofun
  exact ⟨as, s, report, s', hreached, hrun, hmem,
    runtime_errors_mark_texts hnatives hreached hrun hmem⟩

/-- A function that an earlier input declared fails where that input has it: the span of the
error is not in the text that is run. -/
theorem error_marks_earlier_text :
    let first := "fun add(first, second) { return first + second; }"
    let second := "add(1, nil);"
    ((answers [(30, .program first)] (start .reliable fun _ => 0)).bind
      fun reached => (reached.2.run 30 second).map fun last => last.1.runtime) =
        some #[.located (.execution .operandsNotAddable) ⟨38, 39⟩] ∧
      ¬ Marks second ⟨38, 39⟩ ∧ ¬ 38 ≤ second.utf8ByteSize := by
  decide +kernel

end Session
end Lox
