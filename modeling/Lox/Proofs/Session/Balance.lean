import Lox.Proofs.Session.Inputs
import Lox.Proofs.Watch.Depth
import Lox.Proofs.Watch.Erasure

/-! # Evaluation is balanced

Every exit of an evaluation, be it a value, a `break`, a `return` or an error,
gives the present frame and the number of active calls back as they were, so
that between two inputs of a session the present frame is that of the global
names and no call is active. -/

namespace Lox

/-- A computation that gives the steady parts of a machine back on every exit. -/
def Run.Returns {α : Type} (r : Run α) (m : Machine) : Prop :=
  Ends r m (fun _ m' => m.Steady m') fun _ m' => m.Steady m'

namespace Watch

/-- A watch that begins with nothing written down. -/
def Record.start (m : Machine) : Record := ⟨m, #[], [], #[]⟩

/-- Outside every scope, while nothing is being called. -/
def Scene.outermost : Scene := ⟨[], []⟩

/-- The points that a watched computation passes. -/
def pointsOf {α : Type} (w : Watched α) (t : Record) : Array Point :=
  match w t with
  | .ok _ u => u.points
  | .error _ u => u.points

variable {α : Type}

/-- A computation inherits what is known about its watched form. -/
theorem Erases.ends {w : Watched α} {r : Run α} (h : Erases w r) {t : Record}
    {ok : α → Machine → Prop} {stopped : Stop → Machine → Prop}
    (hw : Ends w t (fun a u => ok a u.machine) fun e u => stopped e u.machine) :
    Ends r t.machine ok stopped := by
  have ht := h.eq t
  unfold Ends at hw ⊢
  rw [← ht]
  cases hr : w t <;> rw [hr] at hw <;> exact hw

theorem Balanced.deep {w : Watched α} {base : Nat} (h : Balanced base 0 w) {t : Record}
    (ht : t.Deep base 0) : ∀ p ∈ pointsOf w t, p.Deep base := by
  have hw := h.ends t ht
  unfold Ends at hw
  unfold pointsOf
  cases hr : w t <;> rw [hr] at hw <;> exact hw.2.points

theorem Record.start_deep {m : Machine} (hm : m.callDepth ≤ maxCallDepth) :
    (Record.start m).Deep m.callDepth 0 :=
  ⟨rfl, hm, fun _ hp => by simp [Record.start] at hp⟩

end Watch

/-- What is known about the watched form of a computation, for the computation itself. -/
theorem Watch.Balanced.steady {α : Type} {w : Watch.Watched α} {r : Run α} {m : Machine}
    (h : Watch.Balanced m.callDepth 0 w) (he : Watch.Erases w r)
    (hm : m.callDepth ≤ maxCallDepth) : r.Returns m := by
  refine he.ends (t := Watch.Record.start m) ?_
  exact (h.ends _ (Watch.Record.start_deep hm)).imp (fun _ _ hu => hu.1) fun _ _ hu => hu.1

theorem Run.Returns.attempt {α : Type} {r : Run α} {m : Machine} (h : r.Returns m) :
    (attempt r).Returns m := by
  unfold Run.Returns
  rw [ends_attempt]
  refine h.imp (fun _ _ hm => hm) fun stop _ hm => ?_
  cases stop <;> exact hm

namespace Eval
open Watch

variable {m : Machine}

theorem expr_returns (hm : m.callDepth ≤ maxCallDepth) (fuel : Nat) (e : Expr) :
    (expr fuel e).Returns m :=
  ((balancedWithin m.callDepth fuel).expr .outermost e).steady ((erasesWithin fuel).expr _ e) hm

theorem stmt_returns (hm : m.callDepth ≤ maxCallDepth) (fuel : Nat) (s : Stmt) :
    (stmt fuel s).Returns m :=
  ((balancedWithin m.callDepth fuel).stmt .outermost s).steady ((erasesWithin fuel).stmt _ s) hm

theorem exprs_returns (hm : m.callDepth ≤ maxCallDepth) (fuel : Nat) (es : List Expr) :
    (exprs fuel es).Returns m :=
  ((balancedWithin m.callDepth fuel).exprs .outermost es).steady ((erasesWithin fuel).exprs _ es)
    hm

theorem block_returns (hm : m.callDepth ≤ maxCallDepth) (fuel : Nat) (frame : FrameId)
    (ss : List Stmt) : (Run.within frame (stmts fuel ss)).Returns m :=
  (((balancedWithin m.callDepth fuel).stmts .outermost ss).within frame).steady
    (((erasesWithin fuel).stmts _ ss).within frame) hm

theorem program_returns (fuel : Nat) (ss : List Stmt) (flows : Array Flow) (m : Machine)
    (hm : m.callDepth ≤ maxCallDepth) : (program fuel flows ss).Returns m := by
  induction ss generalizing flows m with
  | nil => exact .refl m
  | cons s rest ih =>
    unfold Run.Returns
    rw [program, ends_bind]
    refine (stmt_returns hm fuel s).attempt.imp (fun outcome m' hm' => ?_) fun _ _ h => h
    cases outcome with
    | ok flow =>
      exact (ih (flows.push flow) m' (hm'.callDepth ▸ hm)).imp (fun _ _ h => hm'.trans h)
        fun _ _ h => hm'.trans h
    | error diagnostic => exact hm'

end Eval

namespace Session

theorem echo_returns {m : Machine} (hm : m.callDepth ≤ maxCallDepth) (fuel : Nat) (e : Expr) :
    (echo fuel e).Returns m := by
  unfold Run.Returns echo
  rw [ends_bind]
  refine (Eval.expr_returns hm fuel e).imp (fun v m' hv => ?_) fun _ _ h => h
  have hline := (Run.Keeps.bind (Run.keeps_ask fun m => m.heap.describe v) fun text =>
    Run.keeps_writeLine text).ends m'
  exact hline.imp (fun _ _ h => hv.trans h) fun _ _ h => hv.trans h

theorem execute_returns {m : Machine} (hm : m.callDepth ≤ maxCallDepth) (fuel : Nat)
    (ss : List Stmt) : (execute fuel ss).Returns m := by
  unfold Run.Returns
  rw [execute.eq_def]
  split
  · next e =>
    rw [ends_bind]
    refine (echo_returns hm fuel e).attempt.imp (fun outcome _ h => ?_) fun _ _ h => h
    cases outcome <;> exact h
  · rw [ends_bind]
    exact (Eval.program_returns fuel _ #[] m hm).imp (fun _ _ h => h) fun _ _ h => h

/-- Nothing is being executed: the present frame is that of the global names, and no call is
active. -/
structure Idle (s : Session) : Prop where
  current : s.machine.current = s.machine.globals
  callDepth : s.machine.callDepth = 0

theorem Idle.of_steady {s : Session} {m : Machine} (h : s.Idle) (walk : Scope.Walk)
    (hm : (recording s.machine walk).Steady m) (nextId : Nat) : Idle ⟨m, nextId⟩ :=
  ⟨hm.current.trans (h.current.trans hm.globals.symm), hm.callDepth.trans h.callDepth⟩

theorem Idle.recording {s : Session} (h : s.Idle) (walk : Scope.Walk) :
    (recording s.machine walk).callDepth ≤ maxCallDepth := by
  show s.machine.callDepth ≤ maxCallDepth
  rw [h.callDepth]
  exact Nat.zero_le _

theorem idle_run {fuel : Nat} {source : String} {s s' : Session} {report : Report}
    (h : run fuel source s = some (report, s')) (hs : s.Idle) : s'.Idle := by
  unfold run at h
  dsimp only at h
  split at h
  · obtain ⟨-, rfl⟩ := Prod.mk.inj (Option.some.inj h)
    exact ⟨hs.current, hs.callDepth⟩
  · split at h
    · obtain ⟨-, rfl⟩ := Prod.mk.inj (Option.some.inj h)
      exact ⟨hs.current, hs.callDepth⟩
    · have hrun := execute_returns (hs.recording (Scope.program (readProgram source s.nextId).value))
        fuel (readProgram source s.nextId).value
      split at h
      · next machine he =>
        obtain ⟨-, rfl⟩ := Prod.mk.inj (Option.some.inj h)
        exact hs.of_steady _ (hrun.of_ok he) _
      · next machine he =>
        obtain ⟨-, rfl⟩ := Prod.mk.inj (Option.some.inj h)
        exact hs.of_steady _ (hrun.of_ok he) _
      · cases h

theorem idle_evaluate {fuel : Nat} {source : String} {s s' : Session}
    {result : Except Report Value} (h : evaluate fuel source s = some (result, s'))
    (hs : s.Idle) : s'.Idle := by
  unfold evaluate at h
  dsimp only at h
  split at h
  · obtain ⟨-, rfl⟩ := Prod.mk.inj (Option.some.inj h)
    exact ⟨hs.current, hs.callDepth⟩
  · next e _ =>
    split at h
    · obtain ⟨-, rfl⟩ := Prod.mk.inj (Option.some.inj h)
      exact ⟨hs.current, hs.callDepth⟩
    · split at h
      · obtain ⟨-, rfl⟩ := Prod.mk.inj (Option.some.inj h)
        exact ⟨hs.current, hs.callDepth⟩
      · have hrun := (Eval.expr_returns (hs.recording (Scope.wholeExpression e)) fuel e).attempt
        split at h
        · next machine he =>
          obtain ⟨-, rfl⟩ := Prod.mk.inj (Option.some.inj h)
          exact hs.of_steady _ (hrun.of_ok he) _
        · next machine he =>
          obtain ⟨-, rfl⟩ := Prod.mk.inj (Option.some.inj h)
          exact hs.of_steady _ (hrun.of_ok he) _
        · cases h

theorem idle_answer {fuel : Nat} {input : Input} {s s' : Session} {a : Answer}
    (h : answer fuel input s = some (a, s')) (hs : s.Idle) : s'.Idle := by
  cases input with
  | program source =>
    obtain ⟨⟨report, t⟩, hrun, he⟩ := Option.map_eq_some_iff.mp h
    obtain ⟨-, rfl⟩ := Prod.mk.inj he
    exact idle_run hrun hs
  | expression source =>
    obtain ⟨⟨result, t⟩, hrun, he⟩ := Option.map_eq_some_iff.mp h
    obtain ⟨-, rfl⟩ := Prod.mk.inj he
    exact idle_evaluate hrun hs

theorem idle_withNatives (natives : List Native) {s : Session} (hs : s.Idle) :
    (s.withNatives natives).Idle := by
  unfold withNatives
  induction natives generalizing s with
  | nil => exact hs
  | cons n rest ih => exact ih ⟨hs.current, hs.callDepth⟩

theorem idle_start (sink : Sink) (reading : Nat → Float) : (start sink reading).Idle := ⟨rfl, rfl⟩

end Session

/-! ## The main statement -/

/-- A call whose callee and number of arguments are right is refused exactly when no more call
can be active; otherwise it is run, one call deeper. -/
theorem Eval.call_at_depth {m m₁ m₂ : Machine} (hm : m.callDepth ≤ maxCallDepth) {fuel : Nat}
    {callee : Expr} {arguments : List Expr} {f : Value} {args : List Value} (paren : Span)
    (hcallee : expr fuel callee m = .ok f m₁) (hargs : exprs fuel arguments m₁ = .ok args m₂)
    (harity : m₂.heap.arity? f = some args.length) :
    expr (fuel + 1) (.call callee paren arguments) m =
      if m.callDepth = maxCallDepth then Run.fail .stackOverflow paren m₂
      else Run.asCall (call fuel f args paren) m₂ := by
  have h₁ := (expr_returns hm fuel callee).of_ok hcallee
  have h₂ := (exprs_returns (h₁.callDepth ▸ hm) fuel arguments).of_ok hargs
  have hdepth : m₂.callDepth = m.callDepth := h₂.callDepth.trans h₁.callDepth
  rw [expr.eq_def]
  dsimp only
  rw [bind_of_ok hcallee, bind_of_ok hargs]
  have hcheck := checkCall_eq f args.length paren m₂
  rw [harity] at hcheck
  simp only [ne_eq, not_true_eq_false, if_false] at hcheck
  by_cases hfull : m.callDepth = maxCallDepth
  · rw [if_pos (by omega)] at hcheck
    rw [if_pos hfull]
    exact bind_of_error hcheck
  · rw [if_neg (by omega)] at hcheck
    rw [if_neg hfull, bind_of_ok hcheck]

open Watch in
/-- **Evaluation is balanced on every exit path.** From every machine whose call depth is within
its limit, whatever its resolutions are: every exit gives the present frame and the call depth
back; at every point passed on the way the call depth is what it was plus the number of call
expressions whose callee is being run, and within its limit; a call is refused with a stack
overflow exactly at the limit. So a session is idle after any inputs. -/
theorem evaluation_balanced :
    (∀ (m : Machine), m.callDepth ≤ maxCallDepth → ∀ (fuel : Nat),
      (∀ s, (Eval.stmt fuel s).Returns m) ∧
      (∀ frame ss, (Run.within frame (Eval.stmts fuel ss)).Returns m) ∧
      (∀ e, (Eval.expr fuel e).Returns m) ∧
      (∀ ribs,
        (∀ s, Erases (Watch.stmt fuel ⟨ribs, []⟩ s) (Eval.stmt fuel s) ∧
          ∀ p ∈ pointsOf (Watch.stmt fuel ⟨ribs, []⟩ s) (.start m), p.Deep m.callDepth) ∧
        (∀ frame ss, Erases (Watch.within frame (Watch.stmts fuel ⟨ribs, []⟩ ss))
            (Run.within frame (Eval.stmts fuel ss)) ∧
          ∀ p ∈ pointsOf (Watch.within frame (Watch.stmts fuel ⟨ribs, []⟩ ss)) (.start m),
            p.Deep m.callDepth) ∧
        ∀ e, Erases (Watch.expr fuel ⟨ribs, []⟩ e) (Eval.expr fuel e) ∧
          ∀ p ∈ pointsOf (Watch.expr fuel ⟨ribs, []⟩ e) (.start m), p.Deep m.callDepth) ∧
      ∀ callee arguments paren f args m₁ m₂, Eval.expr fuel callee m = .ok f m₁ →
        Eval.exprs fuel arguments m₁ = .ok args m₂ → m₂.heap.arity? f = some args.length →
        Eval.expr (fuel + 1) (.call callee paren arguments) m =
          if m.callDepth = maxCallDepth then Run.fail .stackOverflow paren m₂
          else Run.asCall (Eval.call fuel f args paren) m₂) ∧
    ∀ sink reading natives inputs as s,
      Session.answers inputs ((Session.start sink reading).withNatives natives) = some (as, s) →
      s.machine.current = s.machine.globals ∧ s.machine.callDepth = 0 := by
  refine ⟨fun m hm fuel => ?_, fun sink reading natives inputs as s h => ?_⟩
  · have hb := balancedWithin m.callDepth fuel
    have he := erasesWithin fuel
    have hdeep := Record.start_deep hm
    refine ⟨Eval.stmt_returns hm fuel, Eval.block_returns hm fuel, Eval.expr_returns hm fuel,
      fun ribs => ⟨fun s => ?_, fun frame ss => ?_, fun e => ?_⟩, ?_⟩
    · exact ⟨he.stmt _ s, (hb.stmt ⟨ribs, []⟩ s).deep hdeep⟩
    · exact ⟨(he.stmts _ ss).within frame, ((hb.stmts ⟨ribs, []⟩ ss).within frame).deep hdeep⟩
    · exact ⟨he.expr _ e, (hb.expr ⟨ribs, []⟩ e).deep hdeep⟩
    · intro callee arguments paren f args m₁ m₂ hcallee hargs harity
      exact Eval.call_at_depth hm paren hcallee hargs harity
  · have hstart := Session.idle_withNatives natives (Session.idle_start sink reading)
    have hidle := Session.answers_induction (fun _ _ _ _ _ ha => Session.idle_answer ha) inputs h
      hstart
    exact ⟨hidle.current, hidle.callDepth⟩

/-- At the limit even the clock cannot be called, and a program that fails in a block leaves
its session idle. -/
theorem evaluation_balanced_clock :
    let m : Machine := { (Session.start .reliable fun _ => 0).machine with
      callDepth := maxCallDepth }
    let clock : Expr := .var ⟨0, ⟨"clock", .point 0⟩⟩
    m.callDepth ≤ maxCallDepth ∧
      Eval.expr 2 (.call clock (.point 5) []) m = Run.fail .stackOverflow (.point 5) m ∧
      ∃ as s, Session.answers [(30, .program "{nil();}")] (.start .reliable fun _ => 0) =
          some (as, s) ∧
        s.machine.current = s.machine.globals ∧ s.machine.callDepth = 0 := by
  intro m clock
  refine ⟨Nat.le_refl _, ?_, ?_⟩
  · exact (evaluation_balanced.1 m (Nat.le_refl _) 1).2.2.2.2 clock [] (.point 5) (.native ⟨0⟩) []
      m m rfl rfl rfl
  · have hsome : (Session.answers [(30, .program "{nil();}")]
        (.start .reliable fun _ => 0)).isSome = true := by decide +kernel
    obtain ⟨⟨as, s⟩, h⟩ := Option.isSome_iff_exists.mp hsome
    exact ⟨as, s, h, evaluation_balanced.2 .reliable (fun _ => 0) [] _ as s h⟩

end Lox
