import Lox.Proofs.Ledger.Classes

/-! # Evaluation stays anchored

Blocks, calls and methods that are bound get frames inside frames that exist, and
evaluation comes back from them to the present frame. So every evaluation, whether it
ends in a result or stops, goes from one anchored machine to another one, and tells
in its ledger where the classes of the second one come from. -/

namespace Lox.Ledger

variable {t u v : Book} {α β : Type}

/-- A ledger has been kept from one book to another, and the machines are anchored. -/
structure Book.Descends (t u : Book) : Prop where
  anchored : u.machine.Anchored
  descent : ∃ entries, u.entries = t.entries ++ entries ∧ Descent t.machine entries u.machine

theorem Book.Descends.refl (ht : t.machine.Anchored) : t.Descends t :=
  ⟨ht, [], (List.append_nil _).symm, .rest _⟩

theorem Book.Descends.trans (h : t.Descends u) (h' : u.Descends v) : t.Descends v := by
  obtain ⟨-, entries, hentries, hdescent⟩ := h
  obtain ⟨hv, entries', hentries', hdescent'⟩ := h'
  exact ⟨hv, entries ++ entries', by rw [hentries', hentries, List.append_assoc],
    hdescent.append hdescent'⟩

theorem Book.Descends.grows (h : t.Descends u) (ht : t.machine.Anchored) :
    t.machine.heap.Grows u.machine.heap := by
  obtain ⟨-, entries, -, hdescent⟩ := h
  exact (hdescent.later ht).grows

/-- From a moment that is booked to where no class has been made. -/
theorem Book.Descends.moment {m : Machine} (honward : t.machine.Onward m) :
    t.Descends ⟨m, t.entries ++ [.moment t.machine]⟩ :=
  ⟨honward.anchored, [.moment t.machine], rfl, .moment (.onward honward (.rest _))⟩

/-- From one machine to another one, and on from there, without a class having been made. -/
theorem Book.Descends.excursion {m m' : Machine} (h : Book.Descends ⟨m, t.entries⟩ u)
    (hm : t.machine.Onward m) (hm' : u.machine.Onward m') : t.Descends ⟨m', u.entries⟩ := by
  obtain ⟨-, entries, hentries, hdescent⟩ := h
  refine ⟨hm'.anchored, entries, hentries, ?_⟩
  have hback := hdescent.append (.onward hm' (.rest _))
  rw [List.append_nil] at hback
  exact .onward hm hback

/-- A computation that goes from an anchored machine to others, and tells where their classes come
from. Given frames that exist, it ends with others that do. -/
structure Grounds (w : Booked α) (given : List FrameId) (out : α → List FrameId) : Prop where
  ends : ∀ t : Book, t.machine.Anchored → t.machine.heap.HasFrames given →
    Ends w t (fun a u => t.Descends u ∧ u.machine.heap.HasFrames (out a)) fun _ u => t.Descends u

variable {w : Booked α} {given : List FrameId} {out : α → List FrameId}

theorem grounds_pure {a : α} : Grounds (pure a) given fun _ => [] :=
  ⟨fun _ ht _ => ⟨.refl ht, Heap.hasFrames_nil _⟩⟩

theorem grounds_lift {r : Run α} (hr : Founded r given out) : Grounds (lift r) given out := by
  constructor
  intro t ht hgiven
  rw [ends_lift]
  exact (hr.ends t.machine ht hgiven).imp (fun a m hend => ⟨.moment hend.1, hend.2⟩)
    fun stop m hend => .moment hend

theorem Grounds.bind {k : α → Booked β} {out' : β → List FrameId} (hw : Grounds w given out)
    (hk : ∀ a, Grounds (k a) (out a ++ given) out') : Grounds (w >>= k) given out' := by
  constructor
  intro t ht hgiven
  rw [ends_bind]
  refine (hw.ends t ht hgiven).imp (fun a u hend => ?_) fun _ _ hend => hend
  obtain ⟨hdescends, hout⟩ := hend
  have hthere := hout.append (hgiven.mono (hdescends.grows ht))
  refine ((hk a).ends u hdescends.anchored hthere).imp ?_ ?_
  · exact fun b v hend => ⟨hdescends.trans hend.1, hend.2⟩
  · exact fun _ v hend => hdescends.trans hend

theorem Grounds.map (hw : Grounds w given fun _ => []) (f : α → β) :
    Grounds (f <$> w) given fun _ => [] := by
  rw [map_eq_pure_bind]
  exact hw.bind fun a => grounds_pure

/-- A frame that evaluation enters exists, and so does the one that it comes back to. -/
theorem Grounds.within (hw : Grounds w given fun _ => []) {frame : FrameId}
    (hframe : frame ∈ given) : Grounds (within frame w) given fun _ => [] := by
  constructor
  intro t ht hgiven
  rw [ends_within]
  have hinside : t.machine.Onward { t.machine with current := frame } :=
    ⟨⟨ht.heap, hgiven frame hframe⟩, .refl _, rfl, rfl⟩
  have hback (u : Book) (hu : Book.Descends ⟨{ t.machine with current := frame }, t.entries⟩ u) :
      t.Descends { u with machine := { u.machine with current := t.machine.current } } := by
    -- No frame goes away, so there is the one to come back to.
    have hcurrent := Nat.lt_of_lt_of_le ht.current (hu.grows hinside.anchored).frames
    exact hu.excursion hinside ⟨⟨hu.anchored.heap, hcurrent⟩, .refl _, rfl, rfl⟩
  let inside : Book := { t with machine := { t.machine with current := frame } }
  exact (hw.ends inside hinside.anchored hgiven).imp (fun a u hend => ⟨hback u hend.1, Heap.hasFrames_nil _⟩) fun _ => hback

theorem Grounds.asCall (hw : Grounds w given fun _ => []) :
    Grounds (asCall w) given fun _ => [] := by
  constructor
  intro t ht hgiven
  rw [ends_asCall]
  let depth := t.machine.callDepth + 1
  have hinside : t.machine.Onward { t.machine with callDepth := depth } :=
    ⟨⟨ht.heap, ht.current⟩, .refl _, rfl, rfl⟩
  have hback (u : Book) (hu : Book.Descends ⟨{ t.machine with callDepth := depth }, t.entries⟩ u) :
      t.Descends { u with machine := { u.machine with callDepth := t.machine.callDepth } } :=
    hu.excursion hinside ⟨⟨hu.anchored.heap, hu.anchored.current⟩, .refl _, rfl, rfl⟩
  let inside : Book := { t with machine := { t.machine with callDepth := depth } }
  exact (hw.ends inside hinside.anchored hgiven).imp (fun a u hend => ⟨hback u hend.1, Heap.hasFrames_nil _⟩) fun _ => hback

theorem Grounds.attempt (hw : Grounds w given out) : Grounds (attempt w) given fun _ => [] := by
  constructor
  intro t ht hgiven
  rw [ends_attempt]
  refine (hw.ends t ht hgiven).imp (fun a u hend => ⟨hend.1, Heap.hasFrames_nil _⟩) ?_
  intro stop u hend
  cases stop with
  | failed d => exact ⟨hend, Heap.hasFrames_nil _⟩
  | outOfFuel => exact hend

theorem grounds_mark (hw : Grounds w given out) : Grounds (mark >>= fun _ => w) given out := by
  constructor
  intro t ht hgiven
  have hmarked : t.Descends ⟨t.machine, t.entries ++ [.moment t.machine]⟩ := .moment (.refl ht)
  have hends := hw.ends ⟨t.machine, t.entries ++ [.moment t.machine]⟩ ht hgiven
  exact hends.imp (fun a u hend => ⟨hmarked.trans hend.1, hend.2⟩) fun _ u hend =>
    hmarked.trans hend

theorem grounds_setField (i : InstanceId) (name : String) (v : Value) :
    Grounds (setField i name v) given fun _ => [] := by
  have hbook : Grounds (book (.set i name v)) given fun _ => [] := ⟨fun t ht _ =>
    ⟨⟨ht, [.set i name v], rfl, .set i name v (.rest _)⟩, Heap.hasFrames_nil _⟩⟩
  exact (grounds_lift (founded_setField i name v)).bind fun _ => hbook

/-- A class statement makes a class at the moment that is booked for it. -/
theorem grounds_declareClass (name : Ident) (superclass : Option Reference)
    (methods : List Method) : Grounds (lift (Eval.declareClass name superclass methods)) given fun _ => [] := by
  constructor
  intro t ht _
  rw [ends_lift]
  have hends := ends_declareClass ht name superclass methods
  unfold Ends at hends ⊢
  cases hrun : Eval.declareClass name superclass methods t.machine with
  | error stop m =>
    rw [hrun] at hends
    exact .moment hends
  | ok a m =>
    rw [hrun] at hends
    exact ⟨⟨hends.later.anchored, [.moment t.machine], rfl, .declared hrun (.rest _)⟩,
      Heap.hasFrames_nil _⟩

/-! ## Evaluation -/

/-- Within a bound on steps, evaluation stays anchored. -/
structure GroundsWithin (fuel : Nat) : Prop where
  expr : ∀ {given} e, Grounds (Ledger.expr fuel e) given fun _ => []
  exprs : ∀ {given} es, Grounds (Ledger.exprs fuel es) given fun _ => []
  call : ∀ {given} callee args paren, Grounds (Ledger.call fuel callee args paren) given fun _ => []
  construct : ∀ {given} c args, Grounds (Ledger.construct fuel c args) given fun _ => []
  callFunction : ∀ {given} f args, f.closure ∈ given →
    Grounds (Ledger.callFunction fuel f args) given fun _ => []
  stmt : ∀ {given} s, Grounds (Ledger.stmt fuel s) given fun _ => []
  stmts : ∀ {given} ss, Grounds (Ledger.stmts fuel ss) given fun _ => []

variable {fuel : Nat}

theorem grounds_expr_step (ih : GroundsWithin fuel) (e : Expr) :
    Grounds (Ledger.expr (fuel + 1) e) given fun _ => [] := by
  rw [Ledger.expr.eq_def]
  dsimp only
  cases e with
  | literal value _ => exact grounds_pure
  | grouping inner _ => exact ih.expr inner
  | unary op opSpan operand => exact (ih.expr operand).bind fun v => grounds_lift founded_orFail
  | binary left op opSpan right =>
    exact (ih.expr left).bind fun a => (ih.expr right).bind fun b => grounds_lift founded_orFail
  | logical left op _ right =>
    refine (ih.expr left).bind fun a => ?_
    split
    · exact grounds_pure
    · exact ih.expr right
  | var target => exact grounds_lift (founded_readVariable ..)
  | assign target value =>
    refine (ih.expr value).bind fun v => ?_
    exact (grounds_lift (founded_writeVariable target v)).bind fun _ => grounds_pure
  | call callee paren arguments =>
    refine (ih.expr callee).bind fun f => (ih.exprs arguments).bind fun args => ?_
    exact (grounds_lift (founded_checkCall ..)).bind fun _ => .asCall (ih.call f args paren)
  | get object name =>
    exact (ih.expr object).bind fun o => grounds_lift (founded_property o name)
  | set object name value =>
    refine grounds_mark ((ih.expr object).bind fun o => ?_)
    refine (grounds_lift (founded_fieldOwner o name)).bind fun i => (ih.expr value).bind fun v => ?_
    exact (grounds_setField i name.text v).bind fun _ => grounds_pure
  | this id span => exact grounds_lift (founded_readVariable ..)
  | super id keyword method => exact grounds_lift (founded_superMethod ..)
  | lambda fn => exact grounds_lift (founded_closure ..)

theorem grounds_exprs_step (ih : GroundsWithin fuel) (es : List Expr) :
    Grounds (Ledger.exprs (fuel + 1) es) given fun _ => [] := by
  cases es with
  | nil => exact grounds_pure
  | cons e es => exact (ih.expr e).bind fun v => (ih.exprs es).bind fun vs => grounds_pure

theorem grounds_call_step (ih : GroundsWithin fuel) (callee : Value) (args : List Value)
    (paren : Span) : Grounds (Ledger.call (fuel + 1) callee args paren) given fun _ => [] := by
  rw [Ledger.call.eq_def]
  cases callee with
  | native n => exact grounds_lift (founded_callNative n args paren)
  | function f =>
    refine (grounds_lift (founded_askFunction (f := fun _ => some f))).bind fun object? => ?_
    refine (grounds_lift (founded_needFunction ..)).bind fun object => ?_
    exact ih.callFunction object args List.mem_cons_self
  | class_ c => exact ih.construct c args
  | _ => exact grounds_lift founded_stop

theorem grounds_construct_step (ih : GroundsWithin fuel) (c : ClassId) (args : List Value) :
    Grounds (Ledger.construct (fuel + 1) c args) given fun _ => [] := by
  rw [Ledger.construct]
  refine (grounds_lift (founded_newInstance c)).bind fun i => ?_
  refine (grounds_lift founded_askFunction).bind fun method? => ?_
  cases method? with
  | none => exact grounds_pure
  | some method =>
    refine (grounds_lift (founded_bind List.mem_cons_self i)).bind fun bound => ?_
    exact (ih.callFunction bound args List.mem_cons_self).bind fun _ => grounds_pure

theorem grounds_callFunction_step (ih : GroundsWithin fuel) (f : FunctionObject)
    (args : List Value) (hf : f.closure ∈ given) :
    Grounds (Ledger.callFunction (fuel + 1) f args) given fun _ => [] := by
  rw [Ledger.callFunction]
  refine (grounds_lift (founded_newFrame hf _)).bind fun frame => ?_
  refine ((ih.stmts f.fn.body).within List.mem_cons_self).bind fun flow => ?_
  exact grounds_lift (founded_callResult f flow)

theorem grounds_stmt_step (ih : GroundsWithin fuel) (s : Stmt) :
    Grounds (Ledger.stmt (fuel + 1) s) given fun _ => [] := by
  rw [Ledger.stmt.eq_def]
  dsimp only
  cases s with
  | expression value => exact (ih.expr value).bind fun _ => grounds_pure
  | print value =>
    refine (ih.expr value).bind fun v => ?_
    exact (grounds_lift (founded_print v)).bind fun _ => grounds_pure
  | var name initializer =>
    cases initializer with
    | none => exact (grounds_lift (founded_define ..)).bind fun _ => grounds_pure
    | some initializer =>
      refine (ih.expr initializer).bind fun v => ?_
      exact (grounds_lift (founded_define ..)).bind fun _ => grounds_pure
  | block body =>
    refine (grounds_lift founded_current).bind fun outer => ?_
    refine (grounds_lift (founded_newFrame List.mem_cons_self _)).bind fun frame => ?_
    exact (ih.stmts body).within List.mem_cons_self
  | ifElse condition thenBranch elseBranch =>
    refine (ih.expr condition).bind fun v => ?_
    split
    · exact ih.stmt thenBranch
    · cases elseBranch with
      | some branch => exact ih.stmt branch
      | none => exact grounds_pure
  | while_ condition body =>
    refine (ih.expr condition).bind fun v => ?_
    split
    · refine (ih.stmt body).bind fun flow => ?_
      cases flow with
      | normal => exact ih.stmt (.while_ condition body)
      | break_ | return_ => exact grounds_pure
    · exact grounds_pure
  | break_ keyword => exact grounds_pure
  | return_ keyword value =>
    cases value with
    | none => exact grounds_pure
    | some value => exact (ih.expr value).bind fun v => grounds_pure
  | function name fn =>
    refine (grounds_lift (founded_closure ..)).bind fun v => ?_
    exact (grounds_lift (founded_define ..)).bind fun _ => grounds_pure
  | class_ name superclass methods =>
    exact (grounds_declareClass name superclass methods).bind fun _ => grounds_pure

theorem grounds_stmts_step (ih : GroundsWithin fuel) (ss : List Stmt) :
    Grounds (Ledger.stmts (fuel + 1) ss) given fun _ => [] := by
  cases ss with
  | nil => exact grounds_pure
  | cons s rest =>
    refine (ih.stmt s).bind fun flow => ?_
    cases flow with
    | normal => exact ih.stmts rest
    | break_ | return_ => exact grounds_pure

/-- Evaluation stays anchored. -/
theorem groundsWithin (fuel : Nat) : GroundsWithin fuel := by
  induction fuel with
  | zero =>
    constructor <;> intros
    · rw [Ledger.expr]; exact grounds_lift founded_stop
    · rw [Ledger.exprs]; exact grounds_lift founded_stop
    · rw [Ledger.call]; exact grounds_lift founded_stop
    · rw [Ledger.construct]; exact grounds_lift founded_stop
    · rw [Ledger.callFunction]; exact grounds_lift founded_stop
    · rw [Ledger.stmt]; exact grounds_lift founded_stop
    · rw [Ledger.stmts]; exact grounds_lift founded_stop
  | succ fuel ih =>
    exact ⟨grounds_expr_step ih, grounds_exprs_step ih, grounds_call_step ih,
      grounds_construct_step ih, grounds_callFunction_step ih, grounds_stmt_step ih,
      grounds_stmts_step ih⟩

/-! ## Inputs -/

theorem grounds_program (fuel : Nat) (ss : List Stmt) (flows : Array Flow) :
    Grounds (program fuel flows ss) given fun _ => [] := by
  induction ss generalizing flows given with
  | nil => exact grounds_pure
  | cons s rest ih =>
    refine ((groundsWithin fuel).stmt s).attempt.bind fun outcome => ?_
    cases outcome with
    | ok flow => exact ih (flows.push flow)
    | error diagnostic => exact grounds_pure

theorem grounds_echo (fuel : Nat) (e : Expr) : Grounds (echo fuel e) given fun _ => [] :=
  ((groundsWithin fuel).expr e).bind fun v => grounds_lift (founded_print v)

theorem grounds_execute (fuel : Nat) (ss : List Stmt) :
    Grounds (execute fuel ss) given fun _ => [] := by
  have hstatements : Grounds (program fuel #[] ss >>= fun completion => pure completion.error)
      given fun _ => [] :=
    (grounds_program fuel ss #[]).bind fun completion => grounds_pure
  rcases ss with _ | ⟨s, _ | ⟨s', rest⟩⟩
  · exact hstatements
  · cases s with
    | expression e =>
      refine (grounds_echo fuel e).attempt.bind fun outcome => ?_
      cases outcome <;> exact grounds_pure
    | _ => exact hstatements
  · cases s <;> exact hstatements

/-- Whatever is done with an input stays anchored. -/
theorem grounds_task (fuel : Nat) (input : Input) (first : Nat) :
    Grounds (task fuel input first) given fun _ => [] := by
  cases input with
  | program source => exact (grounds_execute fuel _).map _
  | expression source =>
    unfold task
    dsimp only
    cases (readExpression source first).value with
    | none => exact grounds_lift founded_stop
    | some e => exact ((groundsWithin fuel).expr e).attempt.map _

end Lox.Ledger
