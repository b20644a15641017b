import Lox.Proofs.Eval.Data
import Lox.Proofs.Twin.Parts
import Lox.Session

/-! # Evaluation side by side

Kindred trees are evaluated side by side: step for step the two machines go
together, and they end in the same way. The proof is by induction on the bound
on steps, with one lemma for each use of evaluation inside evaluation. -/

namespace Lox.Twin

open Eval Run

variable {S : Setting} {fuel : Nat}

/-- Evaluation within a bound on steps runs side by side. -/
structure SimWithin (S : Setting) (fuel : Nat) : Prop where
  expr : ∀ {w : World S.Place} {f f' p e e'}, w.sites f f' p → KinExpr S.toKinship p e e' →
    Sim S w f f' (Eval.expr fuel e) (Eval.expr fuel e') (Same World.Fine)
  exprs : ∀ {w : World S.Place} {f f' p es es'}, w.sites f f' p → KinExprs S.toKinship p es es' →
    Sim S w f f' (Eval.exprs fuel es) (Eval.exprs fuel es') (Same fun w vs => ∀ v ∈ vs, w.Fine v)
  call : ∀ {w : World S.Place} {f f' p callee args paren paren'}, w.Fine callee →
    (∀ v ∈ args, w.Fine v) → S.span p paren paren' →
    Sim S w f f' (Eval.call fuel callee args paren) (Eval.call fuel callee args paren')
      (Same World.Fine)
  construct : ∀ {w : World S.Place} {f f' c args}, (∀ v ∈ args, w.Fine v) →
    Sim S w f f' (Eval.construct fuel c args) (Eval.construct fuel c args) (Same World.Fine)
  callFunction : ∀ {w : World S.Place} {f f' o o' args}, S.Closed w.sites o o' →
    (∀ v ∈ args, w.Fine v) →
    Sim S w f f' (Eval.callFunction fuel o args) (Eval.callFunction fuel o' args) (Same World.Fine)
  stmt : ∀ {w : World S.Place} {f f' p s s'}, w.sites f f' p → KinStmt S.toKinship p s s' →
    Sim S w f f' (Eval.stmt fuel s) (Eval.stmt fuel s') (Same Finished)
  stmts : ∀ {w : World S.Place} {f f' p ss ss'}, w.sites f f' p → KinStmts S.toKinship p ss ss' →
    Sim S w f f' (Eval.stmts fuel ss) (Eval.stmts fuel ss') (Same Finished)

variable {w : World S.Place} {f f' : FrameId} {p : S.Place}

/-- Data is no function. -/
theorem fine_of_isData {v : Value} (h : v.IsData) : w.Fine v := World.fine_of_ne h.ne_function

theorem sim_expr_step (ih : SimWithin S fuel) {e e' : Expr} (hf : w.sites f f' p)
    (hkin : KinExpr S.toKinship p e e') :
    Sim S w f f' (Eval.expr (fuel + 1) e) (Eval.expr (fuel + 1) e') (Same World.Fine) := by
  cases hkin with
  | @literal _ value => exact sim_pure ⟨rfl, fine_of_isData (Literal.value_isData value)⟩
  | grouping hkin => exact ih.expr hf hkin
  | unary hspan hkin =>
    refine (ih.expr hf hkin).bindSame fun w₁ v _ _ => ?_
    exact sim_orFail hspan fun a ha => fine_of_isData (UnaryOp.apply_isData ha)
  | binary hleft hspan hright =>
    refine (ih.expr hf hleft).bindSame fun w₁ a hgrows₁ _ => ?_
    refine (ih.expr (hgrows₁.sites f f' p hf) hright).bindSame fun w₂ b _ _ => ?_
    exact sim_orFail hspan fun c hc => fine_of_isData (BinaryOp.apply_isData hc)
  | @logical _ _ _ op _ _ _ _ hleft hspan hright =>
    refine (ih.expr hf hleft).bindSame fun w₁ a hgrows₁ hfine => ?_
    by_cases hsettled : op.settledBy a = true
    · rw [if_pos hsettled, if_pos hsettled]
      exact sim_pure ⟨rfl, hfine⟩
    · rw [if_neg hsettled, if_neg hsettled]
      exact ih.expr (hgrows₁.sites f f' p hf) hright
  | @var _ target target' huse =>
    exact sim_readVariable hf huse.text huse.span
  | assign huse hkin =>
    refine (ih.expr hf hkin).bindSame fun w₁ v hgrows₁ hfine => ?_
    refine (sim_writeVariable (hgrows₁.sites f f' p hf) huse hfine).bind fun w₂ _ _ hgrows₂ _ => ?_
    exact sim_pure ⟨rfl, hfine.mono hgrows₂⟩
  | call hcallee hspan harguments =>
    refine (ih.expr hf hcallee).bindSame fun w₁ callee hgrows₁ hcallee => ?_
    refine (ih.exprs (hgrows₁.sites f f' p hf) harguments).bindSame fun w₂ args hgrows₂ hargs => ?_
    refine (sim_checkCall callee args.length hspan).bindSame fun w₃ _ hgrows₃ _ => ?_
    exact (ih.call (hcallee.mono (hgrows₂.trans hgrows₃)) (fun v hv => (hargs v hv).mono hgrows₃)
      hspan).asCall
  | get hobject hname =>
    exact (ih.expr hf hobject).bindSame fun w₁ o _ _ => sim_property hname
  | @set _ _ _ name name' _ _ hobject hname hvalue =>
    refine (ih.expr hf hobject).bindSame fun w₁ o hgrows₁ _ => ?_
    refine (sim_fieldOwner hname).bindSame fun w₂ i hgrows₂ _ => ?_
    refine (ih.expr ((hgrows₁.trans hgrows₂).sites f f' p hf) hvalue).bindSame
      fun w₃ v _ hfine => ?_
    rw [hname.text]
    refine (sim_setField i name.text hfine).bind fun w₄ _ _ hgrows₄ _ => ?_
    exact sim_pure ⟨rfl, hfine.mono hgrows₄⟩
  | this huse hspan => exact sim_readVariable hf huse hspan
  | super huse hspan hmethod => exact sim_superMethod hf huse hspan hmethod
  | lambda hkin => exact sim_closure none hf hkin

theorem sim_exprs_step (ih : SimWithin S fuel) {es es' : List Expr} (hf : w.sites f f' p)
    (hkin : KinExprs S.toKinship p es es') :
    Sim S w f f' (Eval.exprs (fuel + 1) es) (Eval.exprs (fuel + 1) es')
      (Same fun w vs => ∀ v ∈ vs, w.Fine v) := by
  cases hkin with
  | nil => exact sim_pure ⟨rfl, fun _ h => by cases h⟩
  | cons hhead htail =>
    refine (ih.expr hf hhead).bindSame fun w₁ v hgrows₁ hfine => ?_
    refine (ih.exprs (hgrows₁.sites f f' p hf) htail).bindSame fun w₂ vs hgrows₂ hfines => ?_
    exact sim_pure ⟨rfl, List.forall_mem_cons.mpr ⟨hfine.mono hgrows₂, hfines⟩⟩

theorem sim_call_step (ih : SimWithin S fuel) {callee : Value} {args : List Value}
    {paren paren' : Span} (hcallee : w.Fine callee) (hargs : ∀ v ∈ args, w.Fine v)
    (hspan : S.span p paren paren') :
    Sim S w f f' (Eval.call (fuel + 1) callee args paren) (Eval.call (fuel + 1) callee args paren')
      (Same World.Fine) := by
  cases callee with
  | native n => exact sim_callNative n hargs hspan
  | class_ c => exact ih.construct hargs
  | function g =>
    refine (sim_ask (Q := fun w a a' => (a = none → a' = none) ∧
      ∀ o, a = some o → ∃ o', a' = some o' ∧ S.Closed w.sites o o') fun m m' hm =>
        ⟨fun hnone => hm.heaps.alike.function_none hnone, fun o ho =>
          hm.heaps.function (hcallee g rfl) ho⟩).bind fun w₁ a a' hgrows₁ hobject => ?_
    refine (sim_orElseFail (Q := fun w o o' => S.Closed w.sites o o') _ hspan hobject.1
      hobject.2).bind fun w₂ o o' hgrows₂ hclosed => ?_
    exact ih.callFunction hclosed fun v hv => (hargs v hv).mono (hgrows₁.trans hgrows₂)
  | _ => exact sim_fail .notCallable hspan

theorem sim_construct_step (ih : SimWithin S fuel) {c : ClassId} {args : List Value}
    (hargs : ∀ v ∈ args, w.Fine v) :
    Sim S w f f' (Eval.construct (fuel + 1) c args) (Eval.construct (fuel + 1) c args)
      (Same World.Fine) := by
  have hinstance {w : World S.Place} (i : InstanceId) : w.Fine (.instance_ i) :=
    World.fine_of_ne fun _ h => by cases h
  refine (sim_onHeap (Q := Same fun _ _ => True) fun m m' hm => ⟨w, .refl w,
    hm.heaps.newInstance c, ?_, trivial⟩).bindSame fun w₁ i hgrows₁ _ => ?_
  · exact congrArg (fun instances => InstanceId.mk (Array.size instances)) hm.heaps.alike.instances
  refine (sim_ask (Q := fun w a a' => (a = none → a' = none) ∧
    ∀ o, a = some o → ∃ o', a' = some o' ∧ S.Unbound w.sites o o') fun m m' hm => ?_).bind
      fun w₂ a a' hgrows₂ hmethod => ?_
  · rw [hm.heaps.alike.findMethod]
    cases hfound : m.heap.findMethod? c initializerName with
    | none => exact ⟨fun _ => rfl, fun _ ho => by cases ho⟩
    | some g =>
      exact ⟨fun hnone => hm.heaps.alike.function_none hnone,
        fun o ho => hm.heaps.method (hm.heaps.methods_of_findMethod hfound) ho⟩
  cases a with
  | none =>
    obtain rfl := hmethod.1 rfl
    exact sim_pure ⟨rfl, hinstance i⟩
  | some o =>
    obtain ⟨o', rfl, hunbound⟩ := hmethod.2 o rfl
    refine (sim_bind hunbound i).bind fun w₃ b b' hgrows₃ hclosed => ?_
    refine (ih.callFunction hclosed fun v hv =>
      (hargs v hv).mono (hgrows₁.trans (hgrows₂.trans hgrows₃))).bind fun _ _ _ _ _ => ?_
    exact sim_pure ⟨rfl, hinstance i⟩

theorem sim_callFunction_step (ih : SimWithin S fuel) {o o' : FunctionObject} {args : List Value}
    (ho : S.Closed w.sites o o') (hargs : ∀ v ∈ args, w.Fine v) :
    Sim S w f f' (Eval.callFunction (fuel + 1) o args) (Eval.callFunction (fuel + 1) o' args)
      (Same World.Fine) := by
  obtain ⟨p, hp, hkin, -⟩ := ho.text
  unfold Eval.callFunction
  generalize o.fn = fn at hkin ⊢
  generalize o'.fn = fn' at hkin ⊢
  cases hkin with
  | @mk _ q params params' body body' _ _ hinside hparams hbody _ =>
    refine (sim_onHeap (Q := fun w g g' => w.sites g g' q) fun m m' hm =>
      ⟨w.withFrame ⟨m.heap.frames.size⟩ ⟨m'.heap.frames.size⟩ q, w.grows_withFrame .., ?_,
        .inr ⟨rfl, rfl, rfl⟩⟩).bind fun w₁ g g' hgrows₁ hg => ?_
    · exact hm.heaps.newFrame hp hinside (paired_bindParams hparams args)
        fun name v hv => hargs v (mem_of_bindParams hv)
    refine (ih.stmts hg hbody).within.bindSame fun w₂ flow hgrows₂ hflow => ?_
    exact sim_callResult (ho.mono (hgrows₁.trans hgrows₂).sites) hflow

theorem sim_stmt_step (ih : SimWithin S fuel) {s s' : Stmt} (hf : w.sites f f' p)
    (hkin : KinStmt S.toKinship p s s') :
    Sim S w f f' (Eval.stmt (fuel + 1) s) (Eval.stmt (fuel + 1) s') (Same Finished) := by
  have hnormal {w : World S.Place} : Sim S w f f' (pure Flow.normal) (pure Flow.normal)
    (Same Finished) := sim_pure ⟨rfl, trivial⟩
  cases hkin with
  | expression hkin => exact (ih.expr hf hkin).bindSame fun _ _ _ _ => hnormal
  | print hkin =>
    refine (ih.expr hf hkin).bindSame fun w₁ v _ _ => ?_
    refine (sim_ask (Q := Same fun _ _ => True) fun m m' hm =>
      ⟨hm.heaps.alike.describe v, trivial⟩).bindSame fun w₂ text _ _ => ?_
    exact (sim_writeLine text).bind fun _ _ _ _ _ => hnormal
  | declaration hname =>
    have hnil : w.Fine .nil := fine_of_isData trivial
    exact (sim_define hf hname.text hnil).bind fun _ _ _ _ _ => hnormal
  | definition hname hkin =>
    refine (ih.expr hf hkin).bindSame fun w₁ v hgrows₁ hfine => ?_
    exact (sim_define (hgrows₁.sites f f' p hf) hname.text hfine).bind fun _ _ _ _ _ => hnormal
  | block hinside hkin =>
    exact sim_inside hf hinside fun _ _ _ _ hg => ih.stmts hg hkin
  | ifThen hcondition hbody =>
    refine (ih.expr hf hcondition).bindSame fun w₁ v hgrows₁ _ => ?_
    by_cases htruthy : v.truthy = true
    · rw [if_pos htruthy, if_pos htruthy]
      exact ih.stmt (hgrows₁.sites f f' p hf) hbody
    · rw [if_neg htruthy, if_neg htruthy]
      exact hnormal
  | ifElse hcondition hbody hother =>
    refine (ih.expr hf hcondition).bindSame fun w₁ v hgrows₁ _ => ?_
    by_cases htruthy : v.truthy = true
    · rw [if_pos htruthy, if_pos htruthy]
      exact ih.stmt (hgrows₁.sites f f' p hf) hbody
    · rw [if_neg htruthy, if_neg htruthy]
      exact ih.stmt (hgrows₁.sites f f' p hf) hother
  | while_ hcondition hbody =>
    refine (ih.expr hf hcondition).bindSame fun w₁ v hgrows₁ _ => ?_
    by_cases htruthy : v.truthy = true
    · rw [if_pos htruthy, if_pos htruthy]
      refine (ih.stmt (hgrows₁.sites f f' p hf) hbody).bindSame fun w₂ flow hgrows₂ hflow => ?_
      cases flow with
      | normal => exact ih.stmt ((hgrows₁.trans hgrows₂).sites f f' p hf) (.while_ hcondition hbody)
      | break_ => exact hnormal
      | return_ v => exact sim_pure ⟨rfl, hflow⟩
    · rw [if_neg htruthy, if_neg htruthy]
      exact hnormal
  | break_ => exact sim_pure ⟨rfl, trivial⟩
  | returnNil => exact sim_pure ⟨rfl, fine_of_isData trivial⟩
  | return_ _ hkin =>
    exact (ih.expr hf hkin).bindSame fun w₁ v _ hfine => sim_pure ⟨rfl, hfine⟩
  | @function _ name name' _ _ hdeclares htext hkin =>
    unfold Eval.stmt
    dsimp only
    rw [htext]
    have hdeclare := hdeclares.text
    rw [htext] at hdeclare
    refine (sim_closure (some name.text) hf hkin).bindSame fun w₁ v hgrows₁ hfine => ?_
    exact (sim_define (hgrows₁.sites f f' p hf) hdeclare hfine).bind fun _ _ _ _ _ => hnormal
  | class_ hdeclares htext hmethods =>
    exact (sim_declared none hf hdeclares htext rfl hmethods).bind fun _ _ _ _ _ => hnormal
  | subclass hdeclares htext huse hinside hmethods =>
    refine Sim.bind (Q := fun _ _ _ => True) ?_ fun _ _ _ _ _ => hnormal
    refine (sim_superclassOf hf huse).bindSame fun w₁ parent hgrows₁ hparent => ?_
    exact sim_declared parent (hgrows₁.sites f f' p hf) hdeclares htext
      (by rw [if_pos hparent]; exact hinside) hmethods

theorem sim_stmts_step (ih : SimWithin S fuel) {ss ss' : List Stmt} (hf : w.sites f f' p)
    (hkin : KinStmts S.toKinship p ss ss') :
    Sim S w f f' (Eval.stmts (fuel + 1) ss) (Eval.stmts (fuel + 1) ss') (Same Finished) := by
  cases hkin with
  | nil => exact sim_pure ⟨rfl, trivial⟩
  | cons hhead htail =>
    refine (ih.stmt hf hhead).bindSame fun w₁ flow hgrows₁ hflow => ?_
    cases flow with
    | normal => exact ih.stmts (hgrows₁.sites f f' p hf) htail
    | break_ => exact sim_pure ⟨rfl, trivial⟩
    | return_ v => exact sim_pure ⟨rfl, hflow⟩

/-- Kindred trees are evaluated side by side. -/
theorem simWithin (S : Setting) (fuel : Nat) : SimWithin S fuel := by
  induction fuel with
  | zero => constructor <;> intros <;> exact sim_exhaust
  | succ fuel ih =>
    exact ⟨sim_expr_step ih, sim_exprs_step ih, sim_call_step ih, sim_construct_step ih,
      sim_callFunction_step ih, sim_stmt_step ih, sim_stmts_step ih⟩

end Lox.Twin

/-! # Programs side by side

An error becomes a result at the end of a statement of a program. Kindred
programs that are executed on machines that go together finish their statements
in the same ways, and end with errors that go together. -/

namespace Lox.Twin

open Run

variable {S : Setting} {α α' : Type} {w : World S.Place} {f f' : FrameId} {p : S.Place}
  {Q : World S.Place → α → α' → Prop}

/-- Outcomes that go together: results that do, or errors that do. -/
inductive Tried (S : Setting) (Q : World S.Place → α → α' → Prop) (w : World S.Place) :
    Except Diagnostic α → Except Diagnostic α' → Prop
  | ok {a : α} {a' : α'} (h : Q w a a') : Tried S Q w (.ok a) (.ok a')
  | error {d d' : Diagnostic} (h : S.Blames d d') : Tried S Q w (.error d) (.error d')

theorem Sim.attempt {r : Run α} {r' : Run α'} (h : Sim S w f f' r r' Q) :
    Sim S w f f' (Run.attempt r) (Run.attempt r') (Tried S Q) := by
  constructor
  intro m m' hm
  rw [ends_attempt]
  refine (h.ends m m' hm).imp ?_ ?_
  · intro a t hresult
    obtain ⟨w', a', t', hgrows, hside, hr', hq⟩ := hresult
    exact ⟨w', .ok a', t', hgrows, hside, by simp only [Run.attempt, hr'], .ok hq⟩
  · intro stop t hstop
    obtain ⟨w', stop', t', hgrows, hside, hr', hhalts⟩ := hstop
    cases hhalts with
    | @failed d d' hblames =>
      exact ⟨w', .error d', t', hgrows, hside, by simp only [Run.attempt, hr'], .error hblames⟩
    | outOfFuel =>
      exact ⟨w', .outOfFuel, t', hgrows, hside, by simp only [Run.attempt, hr'], .outOfFuel⟩

/-- Programs that finished their statements in the same ways, with errors that go together. -/
structure Setting.Completed (S : Setting) (c c' : Eval.Completion) : Prop where
  flows : c'.flows = c.flows
  error : Option.Rel S.Blames c.error c'.error

theorem sim_program (fuel : Nat) (flows : Array Flow) {ss ss' : List Stmt} (hf : w.sites f f' p)
    (hkin : KinStmts S.toKinship p ss ss') :
    Sim S w f f' (Eval.program fuel flows ss) (Eval.program fuel flows ss')
      fun _ c c' => S.Completed c c' := by
  induction ss generalizing ss' flows w with
  | nil =>
    cases hkin
    exact sim_pure ⟨rfl, .none⟩
  | cons s ss ih =>
    cases hkin with
    | cons hhead htail =>
      refine ((simWithin S fuel).stmt hf hhead).attempt.bind fun w' a a' hgrows htried => ?_
      cases htried with
      | ok hflow =>
        obtain ⟨rfl, -⟩ := hflow
        exact ih (flows.push _) (hgrows.sites f f' p hf) htail
      | error hblames => exact sim_pure ⟨rfl, .some hblames⟩

theorem sim_echo (fuel : Nat) {e e' : Expr} (hf : w.sites f f' p)
    (hkin : KinExpr S.toKinship p e e') :
    Sim S w f f' (Session.echo fuel e) (Session.echo fuel e') fun _ _ _ => True := by
  refine ((simWithin S fuel).expr hf hkin).bindSame fun w₁ v _ _ => ?_
  refine (sim_ask (Q := Same fun _ _ => True) fun m m' hm =>
    ⟨hm.heaps.alike.describe v, trivial⟩).bindSame fun w₂ text _ _ => ?_
  exact sim_writeLine text

/-- Kindred programs are executed side by side. -/
theorem sim_execute (fuel : Nat) {ss ss' : List Stmt} (hf : w.sites f f' p)
    (hkin : KinStmts S.toKinship p ss ss') :
    Sim S w f f' (Session.execute fuel ss) (Session.execute fuel ss')
      fun _ e e' => Option.Rel S.Blames e e' := by
  have hprogram : Sim S w f f' (Eval.program fuel #[] ss >>= fun c => pure c.error)
      (Eval.program fuel #[] ss' >>= fun c => pure c.error)
      fun _ e e' => Option.Rel S.Blames e e' :=
    (sim_program fuel #[] hf hkin).bind fun w' c c' _ hcompleted => sim_pure hcompleted.error
  cases hkin with
  | nil => exact hprogram
  | cons hhead htail =>
    cases htail with
    | cons => cases hhead <;> exact hprogram
    | nil =>
      cases hhead with
      | expression hkin =>
        refine (sim_echo fuel hf hkin).attempt.bind fun w' a a' _ htried => ?_
        cases htried with
        | ok => exact sim_pure .none
        | error hblames => exact sim_pure (.some hblames)
      | _ => exact hprogram

end Lox.Twin
