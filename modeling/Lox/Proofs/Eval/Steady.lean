import Lox.Proofs.Eval.Stepwise

/-! # What evaluation leaves as it is

Whatever way a computation ends, the present frame, the number of active calls,
the frame of the global names, what is recorded about scopes and the functions
of the host are the same as before. Only the heap, the sink and the clock
change. -/

namespace Lox

/-- The parts of a machine that an evaluation gives back as it got them. -/
structure Machine.Steady (m m' : Machine) : Prop where
  current : m'.current = m.current
  callDepth : m'.callDepth = m.callDepth
  globals : m'.globals = m.globals
  resolutions : m'.resolutions = m.resolutions
  host : m'.host = m.host

theorem Machine.Steady.refl (m : Machine) : m.Steady m := ⟨rfl, rfl, rfl, rfl, rfl⟩

theorem Machine.Steady.trans {m m' m'' : Machine} (h : m.Steady m') (h' : m'.Steady m'') :
    m.Steady m'' :=
  ⟨h'.current.trans h.current, h'.callDepth.trans h.callDepth, h'.globals.trans h.globals,
    h'.resolutions.trans h.resolutions, h'.host.trans h.host⟩

namespace Run

variable {α β : Type}

/-- A computation that is steady on every exit. -/
structure Keeps (r : Run α) : Prop where
  ends : ∀ m, Ends r m (fun _ m' => m.Steady m') (fun _ m' => m.Steady m')

theorem keeps_pure (a : α) : Keeps (pure a) := ⟨fun m => .refl m⟩

theorem keeps_exhaust : Keeps (exhaust : Run α) := ⟨fun m => .refl m⟩

theorem keeps_fail (error : RuntimeError) (span : Span) : Keeps (fail error span : Run α) :=
  ⟨fun m => .refl m⟩

theorem keeps_ask (f : Machine → α) : Keeps (ask f) := ⟨fun m => .refl m⟩

theorem keeps_onHeap (f : Heap → α × Heap) : Keeps (onHeap f) :=
  ⟨fun _ => ⟨rfl, rfl, rfl, rfl, rfl⟩⟩

theorem keeps_define (name : String) (value : Value) : Keeps (define name value) :=
  ⟨fun _ => ⟨rfl, rfl, rfl, rfl, rfl⟩⟩

theorem keeps_writeLine (text : String) : Keeps (writeLine text) := by
  constructor
  intro m
  unfold Ends writeLine
  cases m.sink.writeLine text with
  | mk step sink => cases step <;> exact ⟨rfl, rfl, rfl, rfl, rfl⟩

theorem keeps_callNative (id : NativeId) (args : List Value) (paren : Span) :
    Keeps (callNative id args paren) := by
  constructor
  intro m
  unfold Ends callNative
  cases m.host[id.index]? with
  | none => exact .refl m
  | some code =>
    dsimp only
    cases code ⟨m.heap, m.clock.reading m.clock.reads⟩ args <;> exact ⟨rfl, rfl, rfl, rfl, rfl⟩

theorem Keeps.bind {r : Run α} {k : α → Run β} (h : Keeps r) (hk : ∀ a, Keeps (k a)) :
    Keeps (r >>= k) := by
  constructor
  intro m
  rw [ends_bind]
  refine (h.ends m).imp (fun a m' hm => ?_) fun _ _ hm => hm
  exact ((hk a).ends m').imp (fun _ _ h' => hm.trans h') fun _ _ h' => hm.trans h'

theorem keeps_stepwise : Stepwise fun _ r => Keeps r where
  pure := keeps_pure
  fail := keeps_fail
  ask _ := keeps_ask _
  onHeap _ := keeps_onHeap _
  define := keeps_define
  bind := .bind

theorem ends_within {frame : FrameId} {r : Run α} {m : Machine} {ok : α → Machine → Prop}
    {stopped : Stop → Machine → Prop} :
    Ends (within frame r) m ok stopped ↔
      Ends r { m with current := frame } (fun a m' => ok a { m' with current := m.current })
        fun stop m' => stopped stop { m' with current := m.current } := by
  unfold Ends within
  dsimp only
  cases r { m with current := frame } <;> rfl

theorem ends_asCall {r : Run α} {m : Machine} {ok : α → Machine → Prop}
    {stopped : Stop → Machine → Prop} :
    Ends (asCall r) m ok stopped ↔
      Ends r { m with callDepth := m.callDepth + 1 }
        (fun a m' => ok a { m' with callDepth := m.callDepth })
        fun stop m' => stopped stop { m' with callDepth := m.callDepth } := by
  unfold Ends asCall
  dsimp only
  cases r { m with callDepth := m.callDepth + 1 } <;> rfl

theorem ends_attempt {r : Run α} {m : Machine} {ok : Except Diagnostic α → Machine → Prop}
    {stopped : Stop → Machine → Prop} :
    Ends (attempt r) m ok stopped ↔
      Ends r m (fun a m' => ok (.ok a) m') fun stop m' =>
        match stop with
        | .failed diagnostic => ok (.error diagnostic) m'
        | .outOfFuel => stopped .outOfFuel m' := by
  unfold Ends attempt
  cases r m with
  | ok a m' => rfl
  | error stop m' => cases stop <;> rfl

/-- Running elsewhere comes back to the present frame. -/
theorem Keeps.within {r : Run α} (h : Keeps r) (frame : FrameId) : Keeps (within frame r) := by
  constructor
  intro m
  rw [ends_within]
  exact (h.ends _).imp
    (fun _ _ hm => ⟨rfl, hm.callDepth, hm.globals, hm.resolutions, hm.host⟩)
    fun _ _ hm => ⟨rfl, hm.callDepth, hm.globals, hm.resolutions, hm.host⟩

/-- A call that has ended is no longer active. -/
theorem Keeps.asCall {r : Run α} (h : Keeps r) : Keeps (asCall r) := by
  constructor
  intro m
  rw [ends_asCall]
  exact (h.ends _).imp
    (fun _ _ hm => ⟨hm.current, rfl, hm.globals, hm.resolutions, hm.host⟩)
    fun _ _ hm => ⟨hm.current, rfl, hm.globals, hm.resolutions, hm.host⟩

end Run

namespace Eval
open Run

theorem keeps_writeVariable (target : Reference) (value : Value) :
    Keeps (writeVariable target value) := by
  constructor
  intro m
  unfold Ends writeVariable
  cases m.bindingFrame? target.id target.name.text <;> exact ⟨rfl, rfl, rfl, rfl, rfl⟩

theorem keeps_closure (name : Option String) (fn : Lambda) : Keeps (closure name fn) :=
  .bind (keeps_ask _) fun _ => .bind (keeps_onHeap _) fun _ => keeps_pure _

theorem keeps_boundMethod (found : Option FunctionId) (i : InstanceId) (name : Ident) :
    Keeps (boundMethod found i name) :=
  .bind (keeps_ask _) fun _ => .bind (keeps_stepwise.orElseFail ..) fun _ =>
    .bind (keeps_onHeap _) fun _ => .bind (keeps_onHeap _) fun _ => keeps_pure _

end Eval
end Lox
