import Lox.Proofs.Eval.Steady
import Lox.Proofs.Twin.Heaps

/-! # Two computations side by side

Two machines go together when their heaps do and everything else about them is
the same but for the frames they are in. Two computations run side by side when
they take machines that go together to machines that go together, end in the
same way, and have results that go together. -/

namespace Lox.Twin

variable (S : Setting)

/-- Two machines that go together in a world. -/
structure Machines (w : World S.Place) (m m' : Machine) : Prop where
  heaps : Heaps S w m.heap m'.heap
  globals : m.globals = S.globals
  globals' : m'.globals = S.globals'
  resolutions : m.resolutions = S.known
  resolutions' : m'.resolutions = S.known'
  callDepth : m'.callDepth = m.callDepth
  sink : m'.sink = m.sink
  clock : m'.clock = m.clock
  host : m'.host = m.host
  respectful : ∀ code ∈ m.host, code.Respectful
  discreet : S.Open w ∨ ∀ code ∈ m.host, code.Discreet

/-- Two machines that go together and are in frames that do. -/
structure Side (w : World S.Place) (f f' : FrameId) (m m' : Machine) : Prop
    extends Machines S w m m' where
  current : m.current = f
  current' : m'.current = f'

/-- Errors that differ in their span, and in the name of a variable that is undefined. -/
inductive Setting.Blames : Diagnostic → Diagnostic → Prop
  | located {p : S.Place} {span span' : Span} (cause : Cause) (hspan : S.span p span span') :
    Blames (.located cause span) (.located cause span')
  | undefined {p : S.Place} {id id' : Nat} {name name' : String} {span span' : Span}
    (huse : S.use p id id' name name') (hspan : S.span p span span') :
    Blames (.located (.execution (.undefinedVariable name)) span)
      (.located (.execution (.undefinedVariable name')) span')
  | output (words : String) : Blames (.output words) (.output words)

/-- Computations that stop for the same reason. -/
inductive Setting.Halts : Stop → Stop → Prop
  | failed {d d' : Diagnostic} (h : S.Blames d d') : Halts (.failed d) (.failed d')
  | outOfFuel : Halts .outOfFuel .outOfFuel

variable {α α' β β' : Type}

/-- Two computations, in frames that go together, that run side by side from a world on. -/
structure Sim (w : World S.Place) (f f' : FrameId) (r : Run α) (r' : Run α')
    (Q : World S.Place → α → α' → Prop) : Prop where
  ends : ∀ m m', Side S w f f' m m' → Ends r m
    (fun a t => ∃ w' a' t', w.Grows w' ∧ Side S w' f f' t t' ∧ r' m' = .ok a' t' ∧ Q w' a a')
    (fun stop t => ∃ w' stop' t', w.Grows w' ∧ Side S w' f f' t t' ∧ r' m' = .error stop' t' ∧
      S.Halts stop stop')

/-- Results that are the same and such as `P` says. -/
def Same {Place : Type} (P : World Place → α → Prop) (w : World Place) (a a' : α) : Prop :=
  a' = a ∧ P w a

variable {S} {w w' : World S.Place} {f f' : FrameId} {r : Run α} {r' : Run α'}
  {Q : World S.Place → α → α' → Prop} {P : World S.Place → α → Prop}

/-! ## Ending -/

theorem sim_pure {a : α} {a' : α'} (h : Q w a a') : Sim S w f f' (pure a) (pure a') Q :=
  ⟨fun _ m' hm => ⟨w, a', m', .refl w, hm, rfl, h⟩⟩

theorem sim_exhaust : Sim S w f f' (Run.exhaust : Run α) (Run.exhaust : Run α') Q :=
  ⟨fun _ m' hm => ⟨w, .outOfFuel, m', .refl w, hm, rfl, .outOfFuel⟩⟩

theorem sim_fail {p : S.Place} {span span' : Span} (error : RuntimeError)
    (hspan : S.span p span span') :
    Sim S w f f' (Run.fail error span : Run α) (Run.fail error span' : Run α') Q :=
  ⟨fun _ m' hm => ⟨w, _, m', .refl w, hm, rfl, .failed (.located _ hspan)⟩⟩

theorem sim_undefined {p : S.Place} {id id' : Nat} {name name' : String} {span span' : Span}
    (huse : S.use p id id' name name') (hspan : S.span p span span') :
    Sim S w f f' (Run.fail (.undefinedVariable name) span : Run α)
      (Run.fail (.undefinedVariable name') span' : Run α') Q :=
  ⟨fun _ m' hm => ⟨w, _, m', .refl w, hm, rfl, .failed (.undefined huse hspan)⟩⟩

theorem sim_orFail {p : S.Place} {span span' : Span} {result : Except RuntimeError α}
    (hspan : S.span p span span') (hresult : ∀ a, result = .ok a → P w a) :
    Sim S w f f' (Run.orFail result span) (Run.orFail result span') (Same P) := by
  cases result with
  | ok a => exact sim_pure ⟨rfl, hresult a rfl⟩
  | error error => exact sim_fail error hspan

theorem sim_orElseFail {p : S.Place} {span span' : Span} {result : Option α}
    {result' : Option α'} (error : RuntimeError) (hspan : S.span p span span')
    (hnone : result = none → result' = none)
    (hsome : ∀ a, result = some a → ∃ a', result' = some a' ∧ Q w a a') :
    Sim S w f f' (Run.orElseFail result error span) (Run.orElseFail result' error span') Q := by
  cases result with
  | none =>
    rw [hnone rfl]
    exact sim_fail error hspan
  | some a =>
    obtain ⟨a', ha', h⟩ := hsome a rfl
    rw [ha']
    exact sim_pure h

/-! ## One after the other -/

theorem Sim.imp {Q' : World S.Place → α → α' → Prop} (h : Sim S w f f' r r' Q)
    (himp : ∀ w' a a', w.Grows w' → Q w' a a' → Q' w' a a') : Sim S w f f' r r' Q' := by
  constructor
  intro m m' hm
  refine (h.ends m m' hm).imp (fun a t hresult => ?_) fun _ _ hstop => hstop
  obtain ⟨w', a', t', hgrows, hside, hr', hq⟩ := hresult
  exact ⟨w', a', t', hgrows, hside, hr', himp w' a a' hgrows hq⟩

theorem Sim.bind {Q' : World S.Place → β → β' → Prop} {k : α → Run β} {k' : α' → Run β'}
    (h : Sim S w f f' r r' Q)
    (hk : ∀ w' a a', w.Grows w' → Q w' a a' → Sim S w' f f' (k a) (k' a') Q') :
    Sim S w f f' (r >>= k) (r' >>= k') Q' := by
  constructor
  intro m m' hm
  rw [ends_bind]
  refine (h.ends m m' hm).imp ?_ ?_
  · intro a t hresult
    obtain ⟨w₁, a', t', hgrows, hside, hr', hq⟩ := hresult
    rw [bind_of_ok hr']
    refine ((hk w₁ a a' hgrows hq).ends t t' hside).imp ?_ ?_
    · intro b u hnext
      obtain ⟨w₂, b', u', hgrows', hnext⟩ := hnext
      exact ⟨w₂, b', u', hgrows.trans hgrows', hnext⟩
    · intro stop u hnext
      obtain ⟨w₂, stop', u', hgrows', hnext⟩ := hnext
      exact ⟨w₂, stop', u', hgrows.trans hgrows', hnext⟩
  · intro stop t hstop
    obtain ⟨w₁, stop', t', hgrows, hside, hr', hhalts⟩ := hstop
    exact ⟨w₁, stop', t', hgrows, hside, bind_of_error hr', hhalts⟩

/-- What comes after a result that is the same on both sides. -/
theorem Sim.bindSame {Q' : World S.Place → β → β' → Prop} {r₁ r₂ : Run α} {k : α → Run β}
    {k' : α → Run β'} (h : Sim S w f f' r₁ r₂ (Same P))
    (hk : ∀ w' a, w.Grows w' → P w' a → Sim S w' f f' (k a) (k' a) Q') :
    Sim S w f f' (r₁ >>= k) (r₂ >>= k') Q' := by
  refine h.bind fun w' a a' hgrows hsame => ?_
  obtain ⟨rfl, hp⟩ := hsame
  exact hk w' a' hgrows hp

/-! ## Asking and changing -/

theorem sim_ask {q : Machine → α} {q' : Machine → α'}
    (h : ∀ m m', Side S w f f' m m' → Q w (q m) (q' m')) :
    Sim S w f f' (Run.ask q) (Run.ask q') Q :=
  ⟨fun m m' hm => ⟨w, q' m', m', .refl w, hm, rfl, h m m' hm⟩⟩

theorem Machines.withHeap {m m' : Machine} (hm : Machines S w m m') (hgrows : w.Grows w')
    {h h' : Heap} (hheaps : Heaps S w' h h') :
    Machines S w' { m with heap := h } { m' with heap := h' } :=
  { hm with
    heaps := hheaps
    discreet := hm.discreet.imp_left (·.mono hgrows) }

theorem Side.withHeap {m m' : Machine} (hm : Side S w f f' m m') (hgrows : w.Grows w')
    {h h' : Heap} (hheaps : Heaps S w' h h') :
    Side S w' f f' { m with heap := h } { m' with heap := h' } :=
  ⟨hm.toMachines.withHeap hgrows hheaps, hm.current, hm.current'⟩

theorem sim_onHeap {q : Heap → α × Heap} {q' : Heap → α' × Heap}
    (h : ∀ m m', Side S w f f' m m' → ∃ w', w.Grows w' ∧ Heaps S w' (q m.heap).2 (q' m'.heap).2 ∧
      Q w' (q m.heap).1 (q' m'.heap).1) :
    Sim S w f f' (Run.onHeap q) (Run.onHeap q') Q := by
  constructor
  intro m m' hm
  obtain ⟨w', hgrows, hheaps, hq⟩ := h m m' hm
  exact ⟨w', _, _, hgrows, hm.withHeap hgrows hheaps, rfl, hq⟩

/-- A name that a scope declares gets a value. -/
theorem sim_define {p : S.Place} {name name' : String} {v : Value} (hf : w.sites f f' p)
    (hname : S.declare p name name') (hv : w.Fine v) :
    Sim S w f f' (Run.define name v) (Run.define name' v) fun _ _ _ => True := by
  constructor
  intro m m' hm
  have hheaps : Heaps S w (m.heap.define m.current name v) (m'.heap.define m'.current name' v) := by
    rw [hm.current, hm.current']
    exact hm.heaps.write (S.define v hm.heaps.frames hf hname) hv
  exact ⟨w, (), _, .refl w, hm.withHeap (.refl w) hheaps, rfl, trivial⟩

theorem sim_writeLine (text : String) :
    Sim S w f f' (Run.writeLine text) (Run.writeLine text) fun _ _ _ => True := by
  constructor
  intro m m' hm
  have hside (sink : Sink) : Side S w f f' { m with sink := sink } { m' with sink := sink } :=
    ⟨{ hm.toMachines with sink := rfl }, hm.current, hm.current'⟩
  unfold Ends Run.writeLine
  rw [hm.sink]
  rcases m.sink.writeLine text with ⟨_ | step, sink⟩
  · exact ⟨w, (), _, .refl w, hside sink, rfl, trivial⟩
  · exact ⟨w, _, _, .refl w, hside sink, rfl, .failed (.output _)⟩

/-- What a function of the host hands out. -/
theorem Machines.fine_of_native {m m' : Machine} (hm : Machines S w m m') {code : HostCode}
    (hcode : code ∈ m.host) {now : Float} {args : List Value} (hargs : ∀ v ∈ args, w.Fine v)
    {v : Value} (hv : code ⟨m.heap, now⟩ args = .ok v) : w.Fine v := by
  rintro g rfl
  rcases hm.discreet with hopen | hdiscreet
  · exact hopen.free g
  · rcases hdiscreet code hcode _ args g hv with hmem | ⟨frame, name, hget⟩ | ⟨i, name, hfield⟩
    · exact hargs _ hmem g rfl
    · exact hm.heaps.values frame name _ hget g rfl
    · exact hm.heaps.fields i name _ hfield g rfl

theorem sim_callNative {p : S.Place} {paren paren' : Span} (n : NativeId) {args : List Value}
    (hargs : ∀ v ∈ args, w.Fine v) (hspan : S.span p paren paren') :
    Sim S w f f' (Run.callNative n args paren) (Run.callNative n args paren')
      (Same World.Fine) := by
  constructor
  intro m m' hm
  unfold Ends Run.callNative
  rw [hm.host, hm.clock]
  cases hcode : m.host[n.index]? with
  | none => exact ⟨w, _, m', .refl w, hm, rfl, .failed (.located _ hspan)⟩
  | some code =>
    have hmem : code ∈ m.host := Array.mem_of_getElem? hcode
    have hsame := hm.respectful code hmem m.heap m'.heap (m.clock.reading m.clock.reads) args
      hm.heaps.alike
    have hside : Side S w f f' { m with clock := { m.clock with reads := m.clock.reads + 1 } }
        { m' with clock := { m.clock with reads := m.clock.reads + 1 }, host := m.host } :=
      ⟨{ hm.toMachines with clock := rfl, host := rfl }, hm.current, hm.current'⟩
    dsimp only
    rw [hsame]
    cases hresult : code ⟨m.heap, m.clock.reading m.clock.reads⟩ args with
    | ok v =>
      exact ⟨w, v, _, .refl w, hside, rfl, rfl, hm.toMachines.fine_of_native hmem hargs hresult⟩
    | error words => exact ⟨w, _, _, .refl w, hside, rfl, .failed (.located _ hspan)⟩

/-! ## Running elsewhere -/

/-- A body is run in frames that go together. -/
theorem Sim.within {g g' : FrameId} (h : Sim S w g g' r r' Q) :
    Sim S w f f' (Run.within g r) (Run.within g' r') Q := by
  constructor
  intro m m' hm
  have hback {w' : World S.Place} {t t' : Machine} (hside : Side S w' g g' t t') :
      Side S w' f f' { t with current := m.current } { t' with current := m'.current } :=
    ⟨{ hside.toMachines with }, hm.current, hm.current'⟩
  rw [Run.ends_within]
  refine (h.ends { m with current := g } { m' with current := g' }
    ⟨{ hm.toMachines with }, rfl, rfl⟩).imp ?_ ?_
  · intro a t hresult
    obtain ⟨w', a', t', hgrows, hside, hr', hq⟩ := hresult
    exact ⟨w', a', _, hgrows, hback hside, Run.within_of_ok hr', hq⟩
  · intro stop t hstop
    obtain ⟨w', stop', t', hgrows, hside, hr', hhalts⟩ := hstop
    exact ⟨w', stop', _, hgrows, hback hside, Run.within_of_error hr', hhalts⟩

theorem Sim.asCall (h : Sim S w f f' r r' Q) : Sim S w f f' (Run.asCall r) (Run.asCall r') Q := by
  constructor
  intro m m' hm
  have hback {w' : World S.Place} {t t' : Machine} (hside : Side S w' f f' t t') :
      Side S w' f f' { t with callDepth := m.callDepth } { t' with callDepth := m'.callDepth } :=
    ⟨{ hside.toMachines with callDepth := hm.callDepth }, hside.current, hside.current'⟩
  rw [Run.ends_asCall]
  refine (h.ends { m with callDepth := m.callDepth + 1 } { m' with callDepth := m'.callDepth + 1 }
    ⟨{ hm.toMachines with callDepth := congrArg (· + 1) hm.callDepth }, hm.current,
      hm.current'⟩).imp ?_ ?_
  · intro a t hresult
    obtain ⟨w', a', t', hgrows, hside, hr', hq⟩ := hresult
    exact ⟨w', a', _, hgrows, hback hside, Run.asCall_of_ok hr', hq⟩
  · intro stop t hstop
    obtain ⟨w', stop', t', hgrows, hside, hr', hhalts⟩ := hstop
    exact ⟨w', stop', _, hgrows, hback hside, Run.asCall_of_error hr', hhalts⟩

end Lox.Twin
