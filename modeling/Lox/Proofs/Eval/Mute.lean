import Lox.Proofs.Eval.Stepwise

/-! # What writes nothing

Of all that evaluation does only the writing of a line reaches the sink. Every
other rule does the same whatever the sink is, and leaves it as it is. -/

namespace Lox

namespace Run

variable {α β : Type}

/-- The same ending with another sink. -/
def withSink (sink : Sink) : EStateM.Result Stop Machine α → EStateM.Result Stop Machine α
  | .ok a m => .ok a { m with sink }
  | .error stop m => .error stop { m with sink }

/-- A computation that neither writes to the sink nor looks at it. -/
structure Mute (r : Run α) : Prop where
  eq : ∀ m sink, r { m with sink } = withSink sink (r m)

/-- The sink stays as it is. -/
theorem Mute.sink {r : Run α} (h : Mute r) (m : Machine) :
    Ends r m (fun _ m' => m'.sink = m.sink) fun _ m' => m'.sink = m.sink := by
  have hm : r m = withSink m.sink (r m) := h.eq m m.sink
  unfold Ends
  cases hr : r m with
  | ok a m' =>
    rw [hr] at hm
    rw [(EStateM.Result.ok.inj hm).2]
  | error stop m' =>
    rw [hr] at hm
    rw [(EStateM.Result.error.inj hm).2]

theorem mute_exhaust : Mute (exhaust : Run α) := ⟨fun _ _ => rfl⟩

theorem mute_onHeap (f : Heap → α × Heap) : Mute (onHeap f) := ⟨fun _ _ => rfl⟩

/-- A function of the host sees the heap and the time, and not the sink. -/
theorem mute_callNative (id : NativeId) (args : List Value) (paren : Span) :
    Mute (callNative id args paren) := by
  constructor
  intro m sink
  unfold callNative
  dsimp only
  cases m.host[id.index]? with
  | none => rfl
  | some code =>
    dsimp only
    cases code ⟨m.heap, m.clock.reading m.clock.reads⟩ args <;> rfl

theorem Mute.bind {r : Run α} {k : α → Run β} (h : Mute r) (hk : ∀ a, Mute (k a)) :
    Mute (r >>= k) := by
  constructor
  intro m sink
  have hm := h.eq m sink
  cases hr : r m with
  | ok a m' =>
    rw [hr] at hm
    rw [bind_of_ok hm, bind_of_ok hr]
    exact (hk a).eq m' sink
  | error stop m' =>
    rw [hr] at hm
    rw [bind_of_error hm, bind_of_error hr]
    rfl

theorem mute_stepwise : Stepwise fun _ r => Mute r where
  pure _ := ⟨fun _ _ => rfl⟩
  fail _ _ := ⟨fun _ _ => rfl⟩
  ask {_ f} hf := by
    constructor
    intro m sink
    unfold ask withSink
    rw [hf m sink]
  onHeap {_ f} _ := mute_onHeap f
  define _ _ := ⟨fun _ _ => rfl⟩
  bind := .bind

end Run

namespace Eval
open Run

theorem mute_writeVariable (target : Reference) (value : Value) :
    Mute (writeVariable target value) := by
  constructor
  intro m sink
  have hframe : { m with sink }.bindingFrame? target.id target.name.text =
    m.bindingFrame? target.id target.name.text := rfl
  unfold writeVariable
  rw [hframe]
  cases m.bindingFrame? target.id target.name.text <;> rfl

theorem mute_closure (name : Option String) (fn : Lambda) : Mute (closure name fn) :=
  mute_stepwise.bind (mute_stepwise.ask fun _ _ => rfl) fun _ =>
    mute_stepwise.bind (mute_onHeap _) fun _ => mute_stepwise.pure _

theorem mute_boundMethod (found : Option FunctionId) (i : InstanceId) (name : Ident) :
    Mute (boundMethod found i name) :=
  mute_stepwise.bind (mute_stepwise.ask fun _ _ => rfl) fun _ =>
    mute_stepwise.bind (mute_stepwise.orElseFail ..) fun _ =>
      mute_stepwise.bind (mute_onHeap _) fun _ =>
        mute_stepwise.bind (mute_onHeap _) fun _ => mute_stepwise.pure _

theorem mute_declareClass (name : Ident) (superclass : Option Reference) (methods : List Method) :
    Mute (declareClass name superclass methods) :=
  mute_stepwise.declareClass name superclass fun _ => mute_onHeap _

end Eval
end Lox
