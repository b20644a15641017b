import Lox.Eval.Basic
import Lox.Proofs.Outcome

/-! # What holds step by step

The rules that look variables up, find methods and check calls are sequences of a
few kinds of steps. A property of computations that these steps have, and that
sequences keep, holds of all such rules. -/

namespace Lox

namespace Run

/-- The steps have a property, and what is done in sequence has it if its parts do. What a step
asks for does not depend on the sink, and what it does on the heap makes no functions. -/
structure Stepwise (P : (α : Type) → Run α → Prop) : Prop where
  pure {α : Type} (a : α) : P α (pure a)
  fail {α : Type} (error : RuntimeError) (span : Span) : P α (fail error span)
  ask {α : Type} {f : Machine → α} (hf : ∀ m sink, f { m with sink } = f m) : P α (ask f)
  onHeap {α : Type} {f : Heap → α × Heap} (hf : ∀ h, (f h).2.functions = h.functions) :
    P α (onHeap f)
  define (name : String) (value : Value) : P Unit (define name value)
  bind {α β : Type} {r : Run α} {k : α → Run β} (hr : P α r) (hk : ∀ a, P β (k a)) : P β (r >>= k)

namespace Stepwise

variable {P : (α : Type) → Run α → Prop} {α : Type}

theorem orFail (h : Stepwise P) (result : Except RuntimeError α) (span : Span) :
    P α (orFail result span) := by
  cases result with
  | ok a => exact h.pure a
  | error error => exact h.fail error span

theorem orElseFail (h : Stepwise P) (result : Option α) (error : RuntimeError) (span : Span) :
    P α (orElseFail result error span) := by
  cases result with
  | some a => exact h.pure a
  | none => exact h.fail error span

theorem readVariable (h : Stepwise P) (id : Nat) (name : String) (span : Span) :
    P Value (Eval.readVariable id name span) :=
  h.bind (h.ask fun _ _ => rfl) fun _ => h.orElseFail ..

theorem fieldOwner (h : Stepwise P) (object : Value) (name : Ident) :
    P InstanceId (Eval.fieldOwner object name) := by
  cases object with
  | instance_ i => exact h.pure i
  | _ => exact h.fail .fieldOfNonInstance name.span

theorem superClass (h : Stepwise P) (hops : Nat) (keyword : Span) :
    P ClassId (Eval.superClass hops keyword) := by
  refine h.bind (h.ask fun _ _ => rfl) fun found => ?_
  split
  · exact h.pure _
  · exact h.fail ..

theorem superInstance (h : Stepwise P) (hops : Nat) (keyword : Span) :
    P InstanceId (Eval.superInstance hops keyword) := by
  refine h.bind (h.ask fun _ _ => rfl) fun found => ?_
  split
  · exact h.pure _
  · exact h.fail ..

theorem checkCall (h : Stepwise P) (callee : Value) (count : Nat) (paren : Span) :
    P Unit (Eval.checkCall callee count paren) := by
  refine h.bind (h.ask fun _ _ => rfl) fun _ => h.bind (h.orElseFail ..) fun arity => ?_
  split
  · exact h.fail ..
  · refine h.bind (h.ask fun _ _ => rfl) fun depth => ?_
    split
    · exact h.fail ..
    · exact h.pure ()

theorem superclassOf (h : Stepwise P) (superclass : Option Reference) :
    P (Option ClassId) (Eval.superclassOf superclass) := by
  cases superclass with
  | none => exact h.pure none
  | some target =>
    refine h.bind (h.readVariable ..) fun v => ?_
    cases v with
    | class_ c => exact h.pure (some c)
    | _ => exact h.fail .superclassNotClass target.name.span

theorem methodFrame (h : Stepwise P) (parent : Option ClassId) :
    P FrameId (Eval.methodFrame parent) := by
  refine h.bind (h.ask fun _ _ => rfl) fun frame => ?_
  cases parent with
  | some c => exact h.onHeap fun _ => rfl
  | none => exact h.pure frame

theorem callResult (h : Stepwise P) (f : FunctionObject) (flow : Flow) :
    P Value (Eval.callResult f flow) := by
  unfold Eval.callResult
  split
  · exact h.bind (h.ask fun _ _ => rfl) fun _ => h.orElseFail ..
  · cases flow with
    | return_ value => exact h.pure value
    | normal | break_ => exact h.pure Value.nil

/-! The rules below make functions. -/

theorem property (h : Stepwise P)
    (hbound : ∀ found i name, P Value (Eval.boundMethod found i name)) (object : Value)
    (name : Ident) : P Value (Eval.property object name) := by
  cases object with
  | instance_ i =>
    refine h.bind (h.ask fun _ _ => rfl) fun field => ?_
    cases field with
    | some value => exact h.pure value
    | none => exact h.bind (h.ask fun _ _ => rfl) fun _ => hbound ..
  | _ => exact h.fail .propertyOfNonInstance name.span

theorem superMethod (h : Stepwise P)
    (hbound : ∀ found i name, P Value (Eval.boundMethod found i name)) (id : Nat) (keyword : Span)
    (method : Ident) : P Value (Eval.superMethod id keyword method) :=
  h.bind (h.ask fun _ _ => rfl) fun _ => h.bind (h.orElseFail ..) fun hops =>
    h.bind (h.superClass hops keyword) fun _ => h.bind (h.superInstance hops keyword) fun i =>
      h.bind (h.ask fun _ _ => rfl) fun _ => hbound _ i method

theorem declareClass (h : Stepwise P) (name : Ident) (superclass : Option Reference)
    {methods : List Method}
    (hmethods : ∀ frame, P _ (Run.onHeap (Eval.methodTable frame methods .empty))) :
    P Unit (Eval.declareClass name superclass methods) :=
  h.bind (h.superclassOf superclass) fun parent => h.bind (h.define ..) fun _ =>
    h.bind (h.methodFrame parent) fun frame => h.bind (hmethods frame) fun _ =>
      h.bind (h.onHeap fun _ => rfl) fun _ => h.define ..

end Stepwise
end Run
end Lox
