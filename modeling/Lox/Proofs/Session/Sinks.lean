import Lox.Proofs.Session.Balance
import Lox.Proofs.Session.Joined
import Lox.Proofs.Session.Traced
import Lox.Proofs.Trace.Cutting

/-! # A failing sink cuts a run

When the sink fails at a line of output, the program ends at that line, wherever
in it the line is written. The run up to there is that of the same program on a
sink that does not fail. -/

namespace Lox.Session

open Trace

/-- The session with another sink. -/
def withSink (s : Session) (sink : Sink) : Session :=
  { s with machine := { s.machine with sink } }

/-- The answer to a program with which nothing is wrong, the session after it, and the trace. -/
def traceConcluded (next : Nat) :
    EStateM.Result Stop Tape (Option Diagnostic) → Option (Answer × Session) × Array Entry
  | .ok error t => (some (.report ⟨#[], error.toArray⟩, ⟨t.machine, next⟩), t.entries)
  | .error _ t => (none, t.entries)

variable {source : String} {s : Session}

theorem traced_of_accepted (h : Accepted source) (s : Session) (fuel : Nat) :
    s.traced fuel (.program source) = traceConcluded (readProgram source s.nextId).nextId
      (Trace.execute fuel (readProgram source s.nextId).value
        ⟨recording s.machine (Scope.program (readProgram source s.nextId).value), #[]⟩) := by
  refine Prod.ext ?_ ?_
  · rw [traced_answer]
    show (s.run fuel source).map _ = _
    have herases := (erases_execute fuel (readProgram source s.nextId).value).eq
      ⟨recording s.machine (Scope.program (readProgram source s.nextId).value), #[]⟩
    rw [run_of_accepted h, ← herases]
    cases Trace.execute fuel (readProgram source s.nextId).value
      ⟨recording s.machine (Scope.program (readProgram source s.nextId).value), #[]⟩ <;> rfl
  · have hscopes := h.scopes_from s.nextId
    show (traced fuel (.program source) s).2 = _
    unfold traced Input.draft Draft.program Trace.task
    dsimp only
    rw [h.reading s.nextId]
    dsimp only
    rw [hscopes, if_neg (by decide), if_neg (by decide)]
    simp only [Functor.map, EStateM.map]
    cases Trace.execute fuel (readProgram source s.nextId).value
      ⟨recording s.machine (Scope.program (readProgram source s.nextId).value), #[]⟩ <;> rfl

/-! ## What is concluded on both sinks -/

theorem entries_traceConcluded (next : Nat) (r : EStateM.Result Stop Tape (Option Diagnostic)) :
    (traceConcluded next r).2 = (tapeOf r).entries := by
  cases r <;> rfl

theorem extract_append_self {α : Type} (xs ys : Array α) : (xs ++ ys).extract 0 xs.size = xs := by
  simp [Array.extract_append]

/-- What the sink keeps are the first lines of the whole run. -/
theorem kept_eq_extract {S : Sinks} {before told : Array String} {text : String}
    (hcount : before.size = S.limit) :
    S.kept before text = (before.push text ++ told).extract 0
      (match S.step with | .write => S.limit | .flush => S.limit + 1) := by
  unfold Sinks.kept
  cases S.step with
  | write =>
    rw [← hcount, Array.push_eq_append, Array.append_assoc]
    exact (extract_append_self before _).symm
  | flush =>
    rw [← hcount, ← Array.size_push text]
    exact (extract_append_self (before.push text) _).symm

section

variable {S : Sinks} {w : Traced (Option Diagnostic)} {t : Tape} {next : Nat}

/-- A run that ends on the sink that never fails leaves the lines of its trace in it. -/
theorem sink_of_concluded (next : Nat) (h : Cuts S S.Told w) (ht : t.Filled S) {a : Answer} {u : Session}
    (hu : (traceConcluded next (w t)).1 = some (a, u)) :
    u.machine.sink = filled S.out (traceConcluded next (w t)).2 := by
  have hfilled := (h.fills t ht).1
  cases hr : w t with
  | ok error v =>
    rw [hr] at hu hfilled
    obtain ⟨-, rfl⟩ := Prod.mk.inj (Option.some.inj hu)
    exact hfilled
  | error stop v =>
    rw [hr] at hu
    cases hu

/-- With no more lines than the sink takes nothing fails. -/
theorem concluded_follows (h : Cuts S S.Told w) (ht : t.Filled S)
    (hle : (lines (traceConcluded next (w t)).2).size ≤ S.limit) :
    traceConcluded next (w (t.failing S)) = ((traceConcluded next (w t)).1.map fun (a, u) =>
      (a, u.withSink { u.machine.sink with fault := S.failing.fault }),
        (traceConcluded next (w t)).2) := by
  have hsink := fun a u => sink_of_concluded (a := a) (u := u) next h ht
  rw [entries_traceConcluded] at hle
  rw [h.follows t ht hle]
  cases hr : w t with
  | ok error v =>
    rw [hr] at hsink
    have hmachine : v.machine.sink = filled S.out v.entries := hsink _ _ rfl
    have hfailing : filled S.failing v.entries =
        { v.machine.sink with fault := S.failing.fault } := by
      rw [hmachine]
      rfl
    exact congrArg (fun sink => (some (Answer.report ⟨#[], error.toArray⟩,
      Session.mk { v.machine with sink } next), v.entries)) hfailing
  | error stop v => rfl

/-- With more lines the run ends at the first one that is too many. -/
theorem concluded_halts (h : Cuts S S.Told w) (ht : t.Filled S) (hstart : t.entries = #[])
    (hlt : S.limit < (lines (traceConcluded next (w t)).2).size) :
    let whole := (traceConcluded next (w t)).2
    let cut := traceConcluded next (w (t.failing S))
    ∃ u before text rest, cut.1 = some (.report ⟨#[], #[S.error]⟩, u) ∧
      cut.2 = before.push (.write text u.machine.heap u.machine.clock) ∧
      whole = cut.2 ++ rest ∧ (lines before).size = S.limit ∧
      u.machine.sink.lines = S.out.lines ++ (lines whole).extract 0
        (match S.step with | .write => S.limit | .flush => S.limit + 1) := by
  intro whole cut
  have hwhole : whole = (tapeOf (w t)).entries := entries_traceConcluded ..
  have hempty : (lines t.entries).size ≤ S.limit := by simp [hstart, lines]
  obtain ⟨⟨v, hv⟩, before, text, rest, hbefore, hrest, hcount, hlines⟩ :=
    h.halts t ht hempty (hwhole ▸ hlt)
  rw [hv] at hbefore hrest hlines
  have hcut : cut = (some (.report ⟨#[], #[S.error]⟩, ⟨v.machine, next⟩), v.entries) :=
    congrArg (traceConcluded next) hv
  have htold : lines whole = (lines before).push text ++ lines rest := by
    rw [hwhole, hrest, show (tapeOf _).entries = _ from hbefore, lines_append, lines_push_write]
  refine ⟨⟨v.machine, next⟩, before, text, rest, congrArg Prod.fst hcut, ?_, ?_, hcount, ?_⟩
  · rw [hcut]
    exact hbefore
  · rw [hcut, hwhole]
    exact hrest
  · rw [htold]
    exact hlines.trans (congrArg (S.out.lines ++ ·) (kept_eq_extract hcount))

end

theorem idle_of_answers {sink : Sink} {reading : Nat → Float} {natives : List Native}
    {inputs : List (Nat × Input)} {as : List Answer}
    (h : answers inputs ((start sink reading).withNatives natives) = some (as, s)) : s.Idle :=
  answers_induction (fun _ _ _ _ _ h hs => idle_answer h hs) inputs h
    (idle_withNatives natives (idle_start sink reading))

/-! ## The main statement -/

/-- **A failing sink cuts a run.** After any inputs to a session let a program with which nothing is
wrong be run on a sink that never fails, and on the same sink but that it fails after `limit` more
lines, at writing or at flushing; the clock shows the same. What is traced is what the session does,
and the first run leaves the lines of its trace in its sink. If these are no more than `limit`, both
runs are the same, whether or not they end. Otherwise the second one ends: the error of the sink is
all that it tells of, its trace is the beginning of the first one and ends with the entry of the line
after the first `limit` ones, the heap and the clock are those of this entry, its sink has got the
first `limit` lines, and that line too if it failed only at flushing, and nothing is being executed
any more. -/
theorem failing_sink_cuts_run {sink : Sink} {reading : Nat → Float} {natives : List Native}
    {inputs : List (Nat × Input)} {as : List Answer}
    (hreached : answers inputs ((start sink reading).withNatives natives) = some (as, s))
    (haccepted : Accepted source) (out : Sink) (hout : out.fault = none) (fuel limit : Nat)
    (step : SinkStep) :
    let failing : Sink := { out with fault := some ⟨out.flushed + limit, step⟩ }
    let whole := (s.withSink out).traced fuel (.program source)
    let cut := (s.withSink failing).traced fuel (.program source)
    (whole.1 = (s.withSink out).answer fuel (.program source) ∧
      cut.1 = (s.withSink failing).answer fuel (.program source)) ∧
    (∀ a t, whole.1 = some (a, t) → t.machine.sink.lines = out.lines ++ lines whole.2) ∧
    ((lines whole.2).size ≤ limit → cut = (whole.1.map fun (a, t) =>
      (a, t.withSink { t.machine.sink with fault := failing.fault }), whole.2)) ∧
    (limit < (lines whole.2).size → ∃ t before text rest,
      cut.1 = some (.report ⟨#[], #[.output step.failure]⟩, t) ∧
      cut.2 = before.push (.write text t.machine.heap t.machine.clock) ∧
      whole.2 = cut.2 ++ rest ∧ (lines before).size = limit ∧
      t.machine.sink.lines = out.lines ++ (lines whole.2).extract 0
        (match step with | .write => limit | .flush => limit + 1) ∧ t.Idle) := by
  intro failing whole cut
  let S : Sinks := ⟨out, hout, limit, step⟩
  let ss := (readProgram source s.nextId).value
  let next := (readProgram source s.nextId).nextId
  let t : Tape := ⟨{ recording s.machine (Scope.program ss) with sink := out }, #[]⟩
  have ht : t.Filled S := (filled_empty out).symm
  have hcuts : Cuts S S.Told (Trace.execute fuel ss) := cuts_execute S fuel ss
  have hwhole : whole = traceConcluded next (Trace.execute fuel ss t) :=
    traced_of_accepted haccepted (s.withSink out) fuel
  have hcut : cut = traceConcluded next (Trace.execute fuel ss (t.failing S)) := by
    have hfailing : t.failing S = ⟨{ t.machine with sink := failing }, #[]⟩ :=
      congrArg (fun sink => Tape.mk { t.machine with sink } #[]) (filled_empty _)
    rw [hfailing]
    exact traced_of_accepted haccepted (s.withSink failing) fuel
  have hanswer : cut.1 = (s.withSink failing).answer fuel (.program source) := traced_answer ..
  refine ⟨⟨traced_answer .., hanswer⟩, ?_⟩
  rw [hcut] at hanswer
  rw [hwhole, hcut]
  refine ⟨fun a u hu => ?_, concluded_follows hcuts ht, fun hlt => ?_⟩
  · exact congrArg Sink.lines (sink_of_concluded next hcuts ht hu)
  · obtain ⟨u, before, text, rest, hended, hentries, hwhole, hcount, hlines⟩ :=
      concluded_halts hcuts ht rfl hlt
    have hidle : s.Idle := idle_of_answers hreached
    refine ⟨u, before, text, rest, hended, hentries, hwhole, hcount, hlines, ?_⟩
    exact idle_answer (s := s.withSink failing) (hanswer.symm.trans hended)
      ⟨hidle.current, hidle.callDepth⟩

/-- The second of three calls fails at flushing. -/
theorem failing_sink_cuts_run_second_call :
    let first := "fun greet(name) { print name; return name; }"
    let source := "greet(\"a\"); greet(\"b\"); greet(\"c\");"
    ∃ as s, answers [(30, .program first)] ((start .reliable fun _ => 0).withNatives []) =
        some (as, s) ∧
      lines ((s.withSink .reliable).traced 30 (.program source)).2 = #["a", "b", "c"] ∧
      ∃ t, (s.withSink (.failing ⟨1, .flush⟩)).answer 30 (.program source) =
          some (.report ⟨#[], #[.output "flush failed"]⟩, t) ∧
        t.machine.sink.lines = #["a", "b"] ∧ t.Idle := by
  intro first source
  have hruns : (answers [(30, .program first)] ((start .reliable fun _ => 0).withNatives [])).map
      (fun reached => lines ((reached.2.withSink .reliable).traced 30 (.program source)).2) =
        some #["a", "b", "c"] := by
    decide +kernel
  obtain ⟨⟨as, s⟩, hreached, hlines⟩ := Option.map_eq_some_iff.mp hruns
  have hlines : lines ((s.withSink .reliable).traced 30 (.program source)).2 = #["a", "b", "c"] :=
    hlines
  have haccepted : Accepted source := ⟨by decide +kernel, by decide +kernel⟩
  obtain ⟨⟨-, hanswer⟩, -, -, hcut⟩ :=
    failing_sink_cuts_run hreached haccepted .reliable rfl 30 1 .flush
  obtain ⟨t, -, -, -, htraced, -, -, -, hkept, hidle⟩ := hcut (by rw [hlines]; decide)
  refine ⟨as, s, hreached, hlines, t, hanswer.symm.trans htraced, ?_, hidle⟩
  rw [hkept, hlines]
  rfl

end Lox.Session
