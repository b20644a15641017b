import Lox.Proofs.Eval.Mute
import Lox.Proofs.Trace.Eval

/-! # Evaluation on a failing sink

The same evaluation is traced on a sink that never fails and on one that fails
after a number of lines. As long as no more lines than that are written, both do
the same. The next line is the last thing that the second one does: its error
goes up to the statement of the program, and its trace is the beginning of the
first trace, up to the entry of that line. -/

namespace Lox.Trace

open Run

/-! ## Lines -/

/-- The line that an entry tells of. -/
def Entry.line? : Entry → Option String
  | .write text _ _ => some text
  | _ => none

/-- The lines that a log tells of. -/
def lines (log : Array Entry) : Array String := log.filterMap Entry.line?

theorem lines_append (log log' : Array Entry) : lines (log ++ log') = lines log ++ lines log' := by
  simp [lines]

theorem lines_push_write (log : Array Entry) (text : String) (heap : Heap) (clock : Clock) :
    lines (log.push (.write text heap clock)) = (lines log).push text := by
  simp [lines, Entry.line?]

theorem lines_push {entry : Entry} (log : Array Entry) (h : entry.line? = none) :
    lines (log.push entry) = lines log := by
  simp [lines, h]

/-- A sink after the lines of a log have been written to it. -/
def filled (out : Sink) (log : Array Entry) : Sink :=
  { out with lines := out.lines ++ lines log, flushed := out.flushed + (lines log).size }

theorem filled_empty (out : Sink) : filled out #[] = out := by
  simp [filled, lines]

/-! ## Two sinks -/

/-- A sink that never fails, and how it could: after so many lines more, at this step. -/
structure Sinks where
  out : Sink
  reliable : out.fault = none
  limit : Nat
  step : SinkStep

namespace Sinks

/-- The sink that fails. -/
def failing (S : Sinks) : Sink := { S.out with fault := some ⟨S.out.flushed + S.limit, S.step⟩ }

/-- The error that tells of the failure. -/
def error (S : Sinks) : Diagnostic := .output S.step.failure

/-- What the failing sink keeps of the line at which it fails. -/
def kept (S : Sinks) (before : Array String) (text : String) : Array String :=
  match S.step with
  | .write => before
  | .flush => before.push text

end Sinks

/-- The lines of a trace have been written to the sink that never fails. -/
def Tape.Filled (S : Sinks) (t : Tape) : Prop := t.machine.sink = filled S.out t.entries

/-- The same on the failing sink. -/
def Tape.failing (S : Sinks) (t : Tape) : Tape :=
  { t with machine := { t.machine with sink := filled S.failing t.entries } }

variable {α β : Type}

/-- The tape that a computation leaves, whatever its ending. -/
def tapeOf : EStateM.Result Stop Tape α → Tape
  | .ok _ t => t
  | .error _ t => t

/-- The same ending with another tape. -/
def onTape (f : Tape → Tape) : EStateM.Result Stop Tape α → EStateM.Result Stop Tape α
  | .ok a t => .ok a (f t)
  | .error stop t => .error stop (f t)

/-- A run has ended at the line at which the sink failed: the last entry is that of the line, of
the lines before it there are as many as the sink takes, nothing has been done since, and the entries
are the first ones of the whole run. -/
def Cut (S : Sinks) (v : Tape) (whole : Array Entry) : Prop :=
  ∃ before text rest, v.entries = before.push (.write text v.machine.heap v.machine.clock) ∧
    whole = v.entries ++ rest ∧ (lines before).size = S.limit ∧
    v.machine.sink.lines = S.out.lines ++ S.kept (lines before) text

theorem Cut.append {S : Sinks} {v : Tape} {whole : Array Entry} (h : Cut S v whole)
    (more : Array Entry) : Cut S v (whole ++ more) := by
  obtain ⟨before, text, rest, hentries, hwhole, hcount, hlines⟩ := h
  exact ⟨before, text, rest ++ more, hentries, by rw [hwhole, Array.append_assoc], hcount, hlines⟩

/-- What a computation does on the failing sink: the same, unless it writes more lines than that
sink takes; then it ends at the line in question, and its result is such as `halted` says. -/
structure Cuts (S : Sinks) (halted : EStateM.Result Stop Tape α → Prop) (w : Traced α) : Prop where
  fills : ∀ t, t.Filled S →
    (tapeOf (w t)).Filled S ∧ ∃ more, (tapeOf (w t)).entries = t.entries ++ more
  follows : ∀ t, t.Filled S → (lines (tapeOf (w t)).entries).size ≤ S.limit →
    w (t.failing S) = onTape (Tape.failing S) (w t)
  halts : ∀ t, t.Filled S → (lines t.entries).size ≤ S.limit →
    S.limit < (lines (tapeOf (w t)).entries).size →
      halted (w (t.failing S)) ∧ Cut S (tapeOf (w (t.failing S))) (tapeOf (w t)).entries

/-- The error of the sink has stopped the computation. -/
def Sinks.Stopped (S : Sinks) (r : EStateM.Result Stop Tape α) : Prop :=
  ∃ v, r = .error (.failed S.error) v

/-! ## How computations are put together -/

variable {S : Sinks} {halted halted' : EStateM.Result Stop Tape α → Prop} {w : Traced α}

theorem Cuts.lines_le (h : Cuts S halted w) {t : Tape} (ht : t.Filled S) :
    (lines t.entries).size ≤ (lines (tapeOf (w t)).entries).size := by
  obtain ⟨more, hmore⟩ := (h.fills t ht).2
  rw [hmore, lines_append, Array.size_append]
  exact Nat.le_add_right ..

/-- What writes nothing is the same on both sinks. -/
theorem cuts_lift {r : Run α} (h : Mute r) : Cuts S halted (lift r) := by
  have hsame : ∀ t, (tapeOf (lift r t)).entries = t.entries := by
    intro t
    unfold lift
    cases r t.machine <;> rfl
  have hsink : ∀ t, (tapeOf (lift r t)).machine.sink = t.machine.sink := by
    intro t
    have hm := h.sink t.machine
    unfold Ends at hm
    unfold lift
    cases hr : r t.machine <;> rw [hr] at hm <;> exact hm
  constructor
  · intro t ht
    refine ⟨?_, #[], by rw [hsame, Array.append_empty]⟩
    unfold Tape.Filled
    rw [hsame, hsink]
    exact ht
  · intro t ht _
    have hm : r (t.failing S).machine = withSink (filled S.failing t.entries) (r t.machine) :=
      h.eq t.machine _
    unfold lift
    rw [hm]
    cases r t.machine <;> rfl
  · intro t ht hle hlt
    rw [hsame] at hlt
    omega

theorem cuts_pure (a : α) : Cuts S halted (pure a) := cuts_lift (mute_stepwise.pure a)

/-- An entry that tells of no line. -/
theorem cuts_note {halted : EStateM.Result Stop Tape Nat → Prop} {entry : Entry}
    (h : entry.line? = none) : Cuts S halted (note entry) := by
  have hfill : ∀ out log, filled out (log.push entry) = filled out log := by
    intro out log
    rw [filled, lines_push log h, filled]
  constructor
  · intro t ht
    exact ⟨ht.trans (hfill S.out t.entries).symm, #[entry], Array.push_eq_append⟩
  · intro t ht _
    show EStateM.Result.ok _ _ = onTape (Tape.failing S) (.ok t.entries.size _)
    simp only [onTape, Tape.failing, hfill]
  · intro t ht hle hlt
    have hlt : S.limit < (lines (t.entries.push entry)).size := hlt
    rw [lines_push _ h] at hlt
    omega

/-- What is done next, if the error of the sink stops it too. -/
theorem Cuts.seq {halted' : EStateM.Result Stop Tape β → Prop} {k : α → Traced β}
    (h : Cuts S halted w) (hk : ∀ a, Cuts S halted' (k a))
    (hend : ∀ t, halted (w t) → halted' ((w >>= k) t) ∧ tapeOf ((w >>= k) t) = tapeOf (w t)) :
    Cuts S halted' (w >>= k) := by
  constructor
  · intro t ht
    obtain ⟨hfilled, more, hmore⟩ := h.fills t ht
    cases hr : w t with
    | ok a u =>
      rw [hr] at hfilled hmore
      obtain ⟨hfilled', more', hmore'⟩ := (hk a).fills u hfilled
      rw [bind_of_ok hr]
      refine ⟨hfilled', more ++ more', ?_⟩
      rw [hmore', show u.entries = _ from hmore, Array.append_assoc]
    | error stop u =>
      rw [hr] at hfilled hmore
      rw [bind_of_error hr]
      exact ⟨hfilled, more, hmore⟩
  · intro t ht hle
    have hfilled := (h.fills t ht).1
    have hsame := h.follows t ht
    cases hr : w t with
    | ok a u =>
      rw [hr] at hfilled hsame
      rw [bind_of_ok hr] at hle ⊢
      rw [bind_of_ok (hsame (Nat.le_trans ((hk a).lines_le hfilled) hle))]
      exact (hk a).follows u hfilled hle
    | error stop u =>
      rw [hr] at hsame
      rw [bind_of_error hr] at hle ⊢
      rw [bind_of_error (hsame hle)]
      rfl
  · intro t ht hle hlt
    have hfilled := (h.fills t ht).1
    have hsame := h.follows t ht
    have hhalts := h.halts t ht hle
    by_cases hover : S.limit < (lines (tapeOf (w t)).entries).size
    · -- the sink has failed already
      obtain ⟨hhalted, hcut⟩ := hhalts hover
      obtain ⟨hhalted', htape⟩ := hend _ hhalted
      refine ⟨hhalted', ?_⟩
      rw [htape]
      cases hr : w t with
      | ok a u =>
        rw [hr] at hfilled hcut
        obtain ⟨more, hmore⟩ := ((hk a).fills u hfilled).2
        rw [bind_of_ok hr, hmore]
        exact hcut.append more
      | error stop u =>
        rw [hr] at hcut
        rw [bind_of_error hr]
        exact hcut
    · cases hr : w t with
      | ok a u =>
        rw [hr] at hfilled hsame hover
        rw [bind_of_ok hr] at hlt ⊢
        rw [bind_of_ok (hsame (Nat.le_of_not_lt hover))]
        exact (hk a).halts u hfilled (Nat.le_of_not_lt hover) hlt
      | error stop u =>
        rw [bind_of_error hr] at hlt
        rw [hr] at hover
        exact absurd hlt hover

theorem Cuts.bind {k : α → Traced β} (h : Cuts S S.Stopped w)
    (hk : ∀ a, Cuts S S.Stopped (k a)) : Cuts S S.Stopped (w >>= k) := by
  refine h.seq hk ?_
  rintro t ⟨v, hv⟩
  rw [bind_of_error hv, hv]
  exact ⟨⟨v, rfl⟩, rfl⟩

/-- Goes to another frame, or one call deeper, and comes back: nothing that is told of changes. -/
structure Excursion (go : Machine → Machine) (back : Machine → Machine → Machine) : Prop where
  go_sink : ∀ m, (go m).sink = m.sink
  go_failing : ∀ m sink, go { m with sink } = { go m with sink }
  back_heap : ∀ m m', (back m m').heap = m'.heap
  back_clock : ∀ m m', (back m m').clock = m'.clock
  back_sink : ∀ m m', (back m m').sink = m'.sink
  back_failing : ∀ m m' sink sink', back { m with sink } { m' with sink := sink' } =
    { back m m' with sink := sink' }

theorem Cuts.excursion {go : Machine → Machine} {back : Machine → Machine → Machine}
    (he : Excursion go back) (h : Cuts S S.Stopped w) {w' : Traced α}
    (hw : ∀ t, w' t = onTape (fun u => { u with machine := back t.machine u.machine })
      (w { t with machine := go t.machine })) : Cuts S S.Stopped w' := by
  have hinside : ∀ t : Tape, t.Filled S → Tape.Filled S { t with machine := go t.machine } :=
    fun t ht => (he.go_sink t.machine).trans ht
  have hentries : ∀ t, (tapeOf (w' t)).entries =
      (tapeOf (w { t with machine := go t.machine })).entries := by
    intro t
    rw [hw]
    cases w { t with machine := go t.machine } <;> rfl
  have hfailing : ∀ t : Tape, w' (t.failing S) =
      onTape (fun u => { u with machine := back (t.failing S).machine u.machine })
        (w (Tape.failing S { t with machine := go t.machine })) := by
    intro t
    rw [hw]
    exact congrArg (fun m => onTape _ (w ⟨m, t.entries⟩)) (he.go_failing t.machine _)
  have hback : ∀ t u : Tape, Tape.mk (back (t.failing S).machine (u.failing S).machine) u.entries =
      Tape.failing S ⟨back t.machine u.machine, u.entries⟩ :=
    fun t u => congrArg (Tape.mk · u.entries) (he.back_failing ..)
  constructor
  · intro t ht
    obtain ⟨hfilled, hmore⟩ := h.fills _ (hinside t ht)
    refine ⟨?_, by rw [hentries]; exact hmore⟩
    unfold Tape.Filled at hfilled ⊢
    rw [hentries, ← hfilled, hw]
    cases w { t with machine := go t.machine } <;> exact he.back_sink ..
  · intro t ht hle
    rw [hentries] at hle
    rw [hfailing, h.follows _ (hinside t ht) hle, hw]
    cases w { t with machine := go t.machine } with
    | ok a u => exact congrArg (EStateM.Result.ok a) (hback t u)
    | error stop u => exact congrArg (EStateM.Result.error stop) (hback t u)
  · intro t ht hle hlt
    rw [hentries] at hlt ⊢
    obtain ⟨⟨v, hv⟩, before, text, rest, hcut, hwhole, hcount, hlines⟩ :=
      h.halts _ (hinside t ht) hle hlt
    rw [hfailing, hv]
    rw [hv] at hcut hwhole hlines
    refine ⟨⟨_, rfl⟩, before, text, rest, ?_, hwhole, hcount, ?_⟩
    · show v.entries = before.push (.write text (back _ v.machine).heap (back _ v.machine).clock)
      rw [he.back_heap, he.back_clock]
      exact hcut
    · show (back _ v.machine).sink.lines = _
      rw [he.back_sink]
      exact hlines

theorem Cuts.within (h : Cuts S S.Stopped w) (frame : FrameId) :
    Cuts S S.Stopped (within frame w) := by
  have he : Excursion ({ · with current := frame }) fun m m' => { m' with current := m.current } := by
    constructor <;> intros <;> rfl
  refine h.excursion he fun t => ?_
  unfold Trace.within onTape
  rfl

theorem Cuts.asCall (h : Cuts S S.Stopped w) : Cuts S S.Stopped (asCall w) := by
  have he : Excursion (fun m => { m with callDepth := m.callDepth + 1 }) fun m m' =>
      { m' with callDepth := m.callDepth } := by
    constructor <;> intros <;> rfl
  refine h.excursion he fun t => ?_
  unfold Trace.asCall onTape
  rfl

/-! ## Writing a line -/

theorem filled_push (out : Sink) (log : Array Entry) (text : String) (heap : Heap) (clock : Clock) :
    filled out (log.push (.write text heap clock)) =
      { filled out log with
        lines := (filled out log).lines.push text, flushed := (filled out log).flushed + 1 } := by
  simp [filled, lines_push_write, Nat.add_assoc]

theorem due_reliable (S : Sinks) (log : Array Entry) : (filled S.out log).due = none := by
  simp [Sink.due, filled, S.reliable]

theorem due_failing (S : Sinks) (log : Array Entry) :
    (filled S.failing log).due = if S.limit ≤ (lines log).size then some S.step else none := by
  simp [Sink.due, filled, Sinks.failing]

/-- A tape after the entry of a value that is written. -/
def Tape.told (t : Tape) (v : Value) : Tape :=
  let text := t.machine.heap.describe v
  { t with entries := t.entries.push (.write text t.machine.heap t.machine.clock) }

theorem lines_told (t : Tape) (v : Value) :
    lines (t.told v).entries = (lines t.entries).push (t.machine.heap.describe v) :=
  lines_push_write ..

/-- A sink that is not due to fail takes the line. -/
theorem writeValue_of_due {t : Tape} {out : Sink} (v : Value)
    (ht : t.machine.sink = filled out t.entries) (hdue : (filled out t.entries).due = none) :
    writeValue v t =
      .ok () { t.told v with machine := { t.machine with sink := filled out (t.told v).entries } } := by
  show lift (Run.writeLine (t.machine.heap.describe v)) (t.told v) = _
  have hline : t.machine.sink.writeLine (t.machine.heap.describe v) =
      (none, filled out (t.told v).entries) := by
    rw [ht, Sink.writeLine, hdue]
    exact congrArg (Prod.mk none) (filled_push ..).symm
  simp only [lift, Run.writeLine, Tape.told, hline]

/-- The sink fails at the line, of which it may keep the text. -/
theorem writeValue_fails {t : Tape} (S : Sinks) (v : Value)
    (hdue : (filled S.failing t.entries).due = some S.step) :
    ∃ sink, writeValue v (t.failing S) = .error (.failed S.error)
        { t.told v with machine := { t.machine with sink } } ∧
      sink.lines = S.out.lines ++ S.kept (lines t.entries) (t.machine.heap.describe v) := by
  have hline : ∃ sink, (filled S.failing t.entries).writeLine (t.machine.heap.describe v) =
      (some S.step, sink) ∧
      sink.lines = S.out.lines ++ S.kept (lines t.entries) (t.machine.heap.describe v) := by
    rw [Sink.writeLine, hdue]
    unfold Sinks.kept
    cases S.step with
    | write => exact ⟨_, rfl, rfl⟩
    | flush => exact ⟨_, rfl, Array.push_append ..⟩
  obtain ⟨sink, hline, hlines⟩ := hline
  refine ⟨sink, ?_, hlines⟩
  show lift (Run.writeLine (t.machine.heap.describe v)) _ = _
  simp only [lift, Run.writeLine, Tape.told, Tape.failing, hline]
  rfl

theorem cuts_writeValue (v : Value) : Cuts S S.Stopped (writeValue v) := by
  have hwritten : ∀ t : Tape, t.Filled S → writeValue v t =
      .ok () { t.told v with machine := { t.machine with sink := filled S.out (t.told v).entries } } :=
    fun t ht => writeValue_of_due v ht (due_reliable S t.entries)
  constructor
  · intro t ht
    rw [hwritten t ht]
    exact ⟨rfl, _, Array.push_eq_append⟩
  · intro t ht hle
    rw [hwritten t ht] at hle ⊢
    have hroom : ¬ S.limit ≤ (lines t.entries).size := by
      have hcount : (lines (t.told v).entries).size ≤ S.limit := hle
      rw [lines_told, Array.size_push] at hcount
      omega
    exact writeValue_of_due (t := t.failing S) v rfl
      ((due_failing S t.entries).trans (if_neg hroom))
  · intro t ht hle hlt
    rw [hwritten t ht] at hlt ⊢
    have hfull : (lines t.entries).size = S.limit := by
      have hcount : S.limit < (lines (t.told v).entries).size := hlt
      rw [lines_told, Array.size_push] at hcount
      omega
    obtain ⟨sink, hfailed, hlines⟩ := writeValue_fails (t := t) S v
      ((due_failing S t.entries).trans (if_pos (Nat.le_of_eq hfull.symm)))
    rw [hfailed]
    exact ⟨⟨_, rfl⟩, t.entries, _, #[], rfl, Array.append_empty.symm, hfull, hlines⟩

end Lox.Trace
