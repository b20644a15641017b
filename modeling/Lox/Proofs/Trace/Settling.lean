import Lox.Proofs.Trace.Signals

/-! # Every signal is taken up

What one rule of evaluation does to a trace, and from it what a whole evaluation
does: when an expression has ended, in whatever way, every entry is right. A
statement may have raised a signal with its last entry; then the spot at which
it is executed is in the loop, or in the call, that is to take the signal up. -/

namespace Lox.Trace

open Run Eval

/-- The functions that there are have enclosed bodies, and all entries are right. -/
structure Sound (t : Tape) : Prop where
  made : t.machine.heap.Made Enclosed.lambda
  right : Right t.entries

/-- An evaluation has gone on, and no signal is on its way. -/
structure Onward (t u : Tape) : Prop where
  sound : Sound u
  grows : Grows t.entries u.entries

theorem Onward.refl {t : Tape} (ht : Sound t) : Onward t t := ⟨ht, .refl _⟩

theorem Onward.trans {t u v : Tape} (h : Onward t u) (h' : Onward u v) : Onward t v :=
  ⟨h'.sound, h.grows.trans h'.grows⟩

/-! ## Computations that leave no signal -/

/-- A computation that leaves no signal on its way, whatever its ending. -/
structure Keeps {α : Type} (w : Traced α) : Prop where
  ends : ∀ t, Sound t → Ends w t (fun _ u => Onward t u) fun _ u => Onward t u

variable {α β : Type} {w : Traced α} {t : Tape}

theorem keeps_pure (a : α) : Keeps (pure a) := ⟨fun _ ht => .refl ht⟩

theorem keeps_lift {r : Run α} (h : Makes Enclosed.lambda r) : Keeps (lift r) := by
  constructor
  intro t ht
  rw [ends_lift]
  exact (h.ends t.machine ht.made).imp (fun _ _ hm => ⟨⟨hm, ht.right⟩, .refl _⟩)
    fun _ _ hm => ⟨⟨hm, ht.right⟩, .refl _⟩

/-- The kinds of steps that rules are made of. -/
theorem steps : Stepwise fun _ r => Makes Enclosed.lambda r := makes_stepwise Enclosed.lambda

theorem Keeps.bind {k : α → Traced β} (h : Keeps w) (hk : ∀ a, Keeps (k a)) : Keeps (w >>= k) := by
  constructor
  intro t ht
  rw [ends_bind]
  refine (h.ends t ht).imp (fun a u hu => ?_) fun _ _ hu => hu
  exact ((hk a).ends u hu.sound).imp (fun _ _ hv => hu.trans hv) fun _ _ hv => hu.trans hv

theorem Keeps.asCall (h : Keeps w) : Keeps (asCall w) := by
  constructor
  intro t ht
  rw [ends_asCall]
  have hends := h.ends { t with machine := { t.machine with callDepth := t.machine.callDepth + 1 } }
    ⟨ht.made, ht.right⟩
  exact hends.imp (fun _ _ hu => ⟨⟨hu.sound.made, hu.sound.right⟩, hu.grows⟩)
    fun _ _ hu => ⟨⟨hu.sound.made, hu.sound.right⟩, hu.grows⟩

theorem Keeps.attempt (h : Keeps w) : Keeps (attempt w) := by
  constructor
  intro t ht
  rw [ends_attempt]
  refine (h.ends t ht).imp (fun _ _ hu => hu) fun stop _ hu => ?_
  cases stop <;> exact hu

theorem Sound.push (entry : Entry) (ht : Sound t)
    (hentry : entry.Right (t.entries.push entry) t.entries.size) :
    Onward t { t with entries := t.entries.push entry } :=
  ⟨⟨ht.made, ht.right.push hentry⟩, grows_push t.entries entry⟩

theorem keeps_writeValue (v : Value) : Keeps (writeValue v) := by
  constructor
  intro t ht
  rw [ends_writeValue]
  have hnoted := ht.push (.write (t.machine.heap.describe v) t.machine.heap t.machine.clock) trivial
  have hline := keeps_lift (makes_writeLine (t.machine.heap.describe v))
  exact (hline.ends _ hnoted.sound).imp (fun _ _ hu => hnoted.trans hu) fun _ _ hu => hnoted.trans hu

/-! ## Statements -/

/-- How a statement at a spot has finished. The loop around it is to take up a `break`, and the
call around it a `return`, which may have come out of loops. -/
def Finished (here : Spot) (t : Tape) : Signal → Tape → Prop
  | .normal, u => Onward t u
  | .break_ raised, u => u.machine.heap.Made Enclosed.lambda ∧ Grows t.entries u.entries ∧
    ∃ keyword entered, Pending u.entries raised (.break_ keyword) here ∧
      InRound u.entries here (.break_ keyword) entered
  | .return_ raised _, u => u.machine.heap.Made Enclosed.lambda ∧ Grows t.entries u.entries ∧
    ∃ keyword value inner called, inner.call = here.call ∧
      Pending u.entries raised (.return_ keyword value) inner ∧
      InCall u.entries inner (.return_ keyword value) called

variable {here : Spot}

theorem Finished.rounds_ne {u : Tape} {raised : Nat} (h : Finished here t (.break_ raised) u) :
    here.rounds ≠ [] := by
  obtain ⟨-, -, keyword, entered, -, outer, condition, body, hrounds, -⟩ := h
  simp [hrounds]

theorem Finished.call_ne {u : Tape} {raised : Nat} {value : Value}
    (h : Finished here t (.return_ raised value) u) : here.call ≠ none := by
  obtain ⟨-, -, keyword, value?, inner, called, hsame, -, hcall, -⟩ := h
  simp [← hsame, hcall]

theorem Onward.finished {u v : Tape} {signal : Signal} (h : Onward t u)
    (hv : Finished here u signal v) : Finished here t signal v := by
  cases signal with
  | normal => exact h.trans hv
  | break_ raised => exact ⟨hv.1, h.grows.trans hv.2.1, hv.2.2⟩
  | return_ raised value => exact ⟨hv.1, h.grows.trans hv.2.1, hv.2.2⟩

/-- A computation at a spot that finishes as a statement does there. -/
def Settles (here : Spot) (w : Traced Signal) (t : Tape) : Prop :=
  Ends w t (Finished here t) fun _ u => Onward t u

theorem settles_normal (ht : Sound t) : Settles here (pure .normal) t := Onward.refl ht

theorem Onward.settles {u : Tape} {w : Traced Signal} (h : Onward t u) (hw : Settles here w u) :
    Ends w u (Finished here t) fun _ v => Onward t v :=
  hw.imp (fun _ _ hv => h.finished hv) fun _ _ hv => h.trans hv

/-- What comes before leaves no signal. -/
theorem Keeps.settles {k : α → Traced Signal} (h : Keeps w) (ht : Sound t)
    (hk : ∀ a u, Onward t u → Settles here (k a) u) : Settles here (w >>= k) t := by
  unfold Settles
  rw [ends_bind]
  exact (h.ends t ht).imp (fun a u hu => hu.settles (hk a u hu)) fun _ _ hu => hu

/-- A statement comes back from the frame in which it is executed. -/
theorem Settles.within {w : Traced Signal} {frame : FrameId}
    (h : Settles here w { t with machine := { t.machine with current := frame } }) :
    Settles here (within frame w) t := by
  unfold Settles
  rw [ends_within]
  refine Ends.imp h (fun signal u hu => ?_) fun _ u hu =>
    ⟨⟨hu.sound.made, hu.sound.right⟩, hu.grows⟩
  cases signal with
  | normal => exact ⟨⟨hu.sound.made, hu.sound.right⟩, hu.grows⟩
  | break_ raised => exact hu
  | return_ raised value => exact hu

/-! ## One step -/

/-- Within a bound on steps no signal is lost. -/
structure SettlesWithin (fuel : Nat) : Prop where
  expr : ∀ {e}, Enclosed.expr e → Keeps (Trace.expr fuel e)
  exprs : ∀ {es}, Enclosed.exprs es → Keeps (Trace.exprs fuel es)
  call : ∀ f args paren, Keeps (Trace.call fuel f args paren)
  construct : ∀ c args, Keeps (Trace.construct fuel c args)
  callFunction : ∀ {f : FunctionObject} args, Enclosed.lambda f.fn →
    Keeps (Trace.callFunction fuel f args)
  stmt : ∀ {here s t}, Sound t → Site t.entries here s → Settles here (Trace.stmt fuel here s) t
  stmts : ∀ {here ss t}, Sound t → (∀ s ∈ ss, Site t.entries here s) →
    Settles here (Trace.stmts fuel here ss) t

variable {fuel : Nat}

theorem settles_expr_step (ih : SettlesWithin fuel) {e : Expr} (he : Enclosed.expr e) :
    Keeps (Trace.expr (fuel + 1) e) := by
  rw [Trace.expr.eq_def]
  dsimp only
  cases e with
  | literal value _ => exact keeps_pure value.value
  | grouping inner _ => exact ih.expr he
  | unary op opSpan operand => exact .bind (ih.expr he) fun _ => keeps_lift (steps.orFail ..)
  | binary left op opSpan right =>
    exact .bind (ih.expr he.1) fun _ => .bind (ih.expr he.2) fun _ => keeps_lift (steps.orFail ..)
  | logical left op _ right =>
    refine .bind (ih.expr he.1) fun a => ?_
    split
    · exact keeps_pure a
    · exact ih.expr he.2
  | var target => exact keeps_lift (steps.readVariable ..)
  | assign target value =>
    refine .bind (ih.expr he) fun v => ?_
    exact .bind (keeps_lift (makes_writeVariable target v)) fun _ => keeps_pure v
  | call callee paren arguments =>
    refine .bind (ih.expr he.1) fun f => .bind (ih.exprs he.2) fun args => ?_
    exact .bind (keeps_lift (steps.checkCall ..)) fun _ => .asCall (ih.call f args paren)
  | get object name => exact .bind (ih.expr he) fun o => keeps_lift (steps.property makes_boundMethod o name)
  | set object name value =>
    refine .bind (ih.expr he.1) fun o => .bind (keeps_lift (steps.fieldOwner o name)) fun i => ?_
    refine .bind (ih.expr he.2) fun v => ?_
    exact .bind (keeps_lift (makes_onHeap fun _ hh => hh)) fun _ => keeps_pure v
  | this id span => exact keeps_lift (steps.readVariable ..)
  | super id keyword method => exact keeps_lift (steps.superMethod makes_boundMethod ..)
  | lambda fn => exact keeps_lift (makes_closure none he)

theorem settles_exprs_step (ih : SettlesWithin fuel) {es : List Expr} (hes : Enclosed.exprs es) :
    Keeps (Trace.exprs (fuel + 1) es) := by
  cases es with
  | nil => exact keeps_pure []
  | cons e es =>
    exact .bind (ih.expr hes.1) fun v => .bind (ih.exprs hes.2) fun vs => keeps_pure (v :: vs)

/-- A function that is called stands in the heap. -/
theorem settles_call_step (ih : SettlesWithin fuel) (callee : Value) (args : List Value)
    (paren : Span) : Keeps (Trace.call (fuel + 1) callee args paren) := by
  rw [Trace.call.eq_def]
  cases callee with
  | native n => exact keeps_lift (makes_callNative n args paren)
  | function f =>
    constructor
    intro t ht
    show Ends (lift (orElseFail (t.machine.heap.function? f) .notCallable paren) >>=
      fun object => Trace.callFunction fuel object args) t _ _
    cases hf : t.machine.heap.function? f with
    | none => exact Onward.refl ht
    | some object => exact (ih.callFunction args (ht.made.function hf)).ends t ht
  | class_ c => exact ih.construct c args
  | _ => exact keeps_lift (steps.fail ..)

theorem settles_construct_step (ih : SettlesWithin fuel) (c : ClassId) (args : List Value) :
    Keeps (Trace.construct (fuel + 1) c args) := by
  rw [Trace.construct]
  refine .bind (keeps_lift (makes_onHeap fun _ hh => hh)) fun i => ?_
  constructor
  intro t ht
  rw [ends_ask]
  cases hmethod : (t.machine.heap.findMethod? c initializerName).bind t.machine.heap.function? with
  | none => exact Onward.refl ht
  | some method =>
    obtain ⟨f, -, hf⟩ := Option.bind_eq_some_iff.mp hmethod
    have hfn : Enclosed.lambda method.fn := ht.made.function hf
    have hrun := (ih.callFunction (f := (t.machine.heap.bind method i).1) args hfn).bind fun _ =>
      keeps_pure (Value.instance_ i)
    have hends := hrun.ends
      { t with machine := { t.machine with heap := (t.machine.heap.bind method i).2 } }
      ⟨ht.made, ht.right⟩
    exact hends.imp (fun _ _ hu => ⟨hu.sound, hu.grows⟩) fun _ _ hu => ⟨hu.sound, hu.grows⟩

/-- The body of a function finishes normally or with a `return` that stands in it. -/
theorem settles_callFunction_step (ih : SettlesWithin fuel) {f : FunctionObject} (args : List Value)
    (hf : Enclosed.lambda f.fn) : Keeps (Trace.callFunction (fuel + 1) f args) := by
  rw [Trace.callFunction]
  refine .bind (keeps_lift (makes_onHeap fun _ hh => hh)) fun frame => ?_
  constructor
  intro t ht
  have hcalled := ht.push (.call f.fn) trivial
  have hbody : Settles ⟨some t.entries.size, []⟩
      (within frame (Trace.stmts fuel ⟨some t.entries.size, []⟩ f.fn.body))
      { t with entries := t.entries.push (.call f.fn) } :=
    .within (ih.stmts ⟨hcalled.sound.made, hcalled.sound.right⟩ (site_body hf))
  rw [ends_bind, ends_note, ends_bind]
  refine Ends.imp hbody (fun signal u hu => ?_) fun _ _ hu => hcalled.trans hu
  -- the entry that ends the call takes up its `return`
  have hfinished : Onward t { u with entries := u.entries.push (.finish t.entries.size signal) } := by
    cases signal with
    | normal => exact hcalled.trans (hu.trans (hu.sound.push _ trivial))
    | break_ raised => exact absurd rfl hu.rounds_ne
    | return_ raised value =>
      obtain ⟨hmade, hgrows, keyword, value?, inner, called, hcall, hpending, hin⟩ := hu
      have hsame : called = t.entries.size := Option.some.inj (hin.1.symm.trans hcall)
      subst hsame
      exact ⟨⟨hmade, hpending.finish value hin⟩, hcalled.grows.trans (hgrows.trans (grows_push _ _))⟩
  have hresult := keeps_lift (steps.callResult f signal.flow)
  rw [ends_bind, ends_note]
  exact (hresult.ends _ hfinished.sound).imp (fun _ _ hv => hfinished.trans hv)
    fun _ _ hv => hfinished.trans hv

/-- The body of a loop is executed in a new round, which takes up its `break`. -/
theorem settles_loop (ih : SettlesWithin fuel) {condition : Expr} {body : Stmt} (ht : Sound t)
    (hsite : Site t.entries here (.while_ condition body)) :
    Settles here (do
      let round ← note (.round condition body here)
      match ← Trace.stmt fuel { here with rounds := round :: here.rounds } body with
      | .normal => Trace.stmt fuel here (.while_ condition body)
      | .break_ raised => do
        let _ ← note (.leave round raised)
        pure .normal
      | .return_ raised value => pure (.return_ raised value)) t := by
  have hround := ht.push (.round condition body here) trivial
  have hbody := ih.stmt hround.sound hsite.body
  unfold Settles
  rw [ends_bind, ends_note, ends_bind]
  refine Ends.imp hbody (fun signal u hu => ?_) fun _ _ hu => hround.trans hu
  cases signal with
  | normal =>
    have honward := hround.trans hu
    exact honward.settles (ih.stmt honward.sound (hsite.grows honward.grows))
  | break_ raised =>
    obtain ⟨hmade, hgrows, keyword, entered, hpending, hin⟩ := hu
    have hsame : t.entries.size = entered := by
      obtain ⟨outer, -, -, hrounds, -⟩ := hin
      exact (List.cons.inj hrounds).1
    subst hsame
    exact ⟨⟨hmade, hpending.leave hin⟩, hround.grows.trans (hgrows.trans (grows_push _ _))⟩
  | return_ raised value =>
    obtain ⟨hmade, hgrows, hreturn⟩ := hu
    exact ⟨hmade, hround.grows.trans hgrows, hreturn⟩

theorem settles_stmt_step (ih : SettlesWithin fuel) {s : Stmt} (ht : Sound t)
    (hsite : Site t.entries here s) : Settles here (Trace.stmt (fuel + 1) here s) t := by
  have hs := hsite.enclosed
  rw [Trace.stmt.eq_def]
  dsimp only
  cases s with
  | expression value =>
    exact (ih.expr hs).settles ht fun _ _ hu => settles_normal hu.sound
  | print value =>
    refine (ih.expr hs).settles ht fun v _ hu => ?_
    exact (keeps_writeValue v).settles hu.sound fun _ _ hv => settles_normal hv.sound
  | var name initializer =>
    cases initializer with
    | none =>
      exact (keeps_lift (steps.define ..)).settles ht fun _ _ hu => settles_normal hu.sound
    | some value =>
      refine (ih.expr hs).settles ht fun v _ hu => ?_
      exact (keeps_lift (steps.define ..)).settles hu.sound fun _ _ hv => settles_normal hv.sound
  | block body =>
    refine (keeps_lift (steps.ask fun _ _ => rfl)).settles ht fun outer u hu => ?_
    refine (keeps_lift (makes_onHeap fun _ hh => hh)).settles hu.sound fun frame v hv => ?_
    have hgrows := (hu.trans hv).grows
    exact .within (ih.stmts ⟨hv.sound.made, hv.sound.right⟩ fun s hs =>
      (hsite.block s hs).grows hgrows)
  | ifElse condition thenBranch elseBranch =>
    have hcondition : Enclosed.expr condition := by
      cases elseBranch with
      | none => exact hs.1
      | some branch => exact hs.1
    refine (ih.expr hcondition).settles ht fun v u hu => ?_
    split
    · exact ih.stmt hu.sound (hsite.thenBranch.grows hu.grows)
    · cases elseBranch with
      | some branch => exact ih.stmt hu.sound (hsite.elseBranch.grows hu.grows)
      | none => exact settles_normal hu.sound
  | while_ condition body =>
    refine (ih.expr hs.1).settles ht fun v u hu => ?_
    split
    · exact settles_loop ih hu.sound (hsite.grows hu.grows)
    · exact settles_normal hu.sound
  | break_ keyword =>
    obtain ⟨entered, hround⟩ := hsite.round hs
    have hgrows := grows_push t.entries (.raise (.break_ keyword) here)
    exact ⟨ht.made, hgrows, keyword, entered, ht.right.raise _ _, hround.grows hgrows⟩
  | return_ keyword value =>
    cases value with
    | none =>
      obtain ⟨called, hcall⟩ := hsite.call hs
      have hgrows := grows_push t.entries (.raise (.return_ keyword none) here)
      exact ⟨ht.made, hgrows, keyword, none, here, called, rfl, ht.right.raise _ _,
        hcall.grows hgrows⟩
    | some value =>
      refine (ih.expr hs.2).settles ht fun v u hu => ?_
      obtain ⟨called, hcall⟩ := hsite.call hs.1
      have hgrows := grows_push u.entries (.raise (.return_ keyword (some value)) here)
      exact ⟨hu.sound.made, hgrows, keyword, some value, here, called, rfl,
        hu.sound.right.raise _ _, hcall.grows (hu.grows.trans hgrows)⟩
  | function name fn =>
    refine (keeps_lift (makes_closure _ hs)).settles ht fun v _ hu => ?_
    exact (keeps_lift (steps.define ..)).settles hu.sound fun _ _ hv => settles_normal hv.sound
  | class_ name superclass methods =>
    have hmethods := Enclosed.methods_iff.mp hs
    exact (keeps_lift (makes_declareClass name superclass hmethods)).settles ht fun _ _ hu =>
      settles_normal hu.sound

theorem settles_stmts_step (ih : SettlesWithin fuel) {ss : List Stmt} (ht : Sound t)
    (hsites : ∀ s ∈ ss, Site t.entries here s) :
    Settles here (Trace.stmts (fuel + 1) here ss) t := by
  cases ss with
  | nil => exact settles_normal ht
  | cons s rest =>
    simp only [List.forall_mem_cons] at hsites
    rw [Trace.stmts]
    unfold Settles
    rw [ends_bind]
    refine Ends.imp (ih.stmt ht hsites.1) (fun signal u hu => ?_) fun _ _ hu => hu
    cases signal with
    | normal => exact hu.settles (ih.stmts hu.sound fun s hs => (hsites.2 s hs).grows hu.grows)
    | break_ raised => exact hu
    | return_ raised value => exact hu

/-! ## A whole run -/

theorem settlesWithin (fuel : Nat) : SettlesWithin fuel := by
  induction fuel with
  | zero =>
    constructor <;> intros
    case stmt ht _ | stmts ht _ => exact Onward.refl ht
    all_goals exact keeps_lift makes_exhaust
  | succ fuel ih =>
    exact ⟨settles_expr_step ih, settles_exprs_step ih, settles_call_step ih,
      settles_construct_step ih, settles_callFunction_step ih, settles_stmt_step ih,
      settles_stmts_step ih⟩

/-- The statements of a program finish normally, or with an error. -/
theorem keeps_program (fuel : Nat) {ss : List Stmt} (hss : Enclosed.stmts False False ss)
    (flows : Array Flow) : Keeps (program fuel flows ss) := by
  induction ss generalizing flows with
  | nil => exact keeps_pure _
  | cons s rest ih =>
    constructor
    intro t ht
    rw [program, ends_bind, ends_attempt]
    have hstmt := (settlesWithin fuel).stmt ht (site_top hss.1)
    refine Ends.imp hstmt (fun signal u hu => ?_) fun stop u hu => ?_
    · cases signal with
      | normal =>
        have hdone := hu.trans (hu.sound.push (.done .normal) rfl)
        have hrest := (ih hss.2 (flows.push .normal)).ends _ hdone.sound
        exact hrest.imp (fun _ _ hv => hdone.trans hv) fun _ _ hv => hdone.trans hv
      | break_ raised => exact absurd rfl hu.rounds_ne
      | return_ raised value => exact absurd rfl hu.call_ne
    · cases stop <;> exact hu

theorem keeps_echo (fuel : Nat) {e : Expr} (he : Enclosed.expr e) : Keeps (echo fuel e) :=
  .bind ((settlesWithin fuel).expr he) fun v => keeps_writeValue v

theorem keeps_execute (fuel : Nat) {ss : List Stmt} (hss : Enclosed.stmts False False ss) :
    Keeps (execute fuel ss) := by
  have hstatements : Keeps (program fuel #[] ss >>= fun completion => pure completion.error) :=
    (keeps_program fuel hss #[]).bind fun _ => keeps_pure _
  rw [execute.eq_def]
  split
  · refine (keeps_echo fuel hss.1).attempt.bind fun outcome => ?_
    cases outcome <;> exact keeps_pure _
  · exact hstatements

end Lox.Trace
