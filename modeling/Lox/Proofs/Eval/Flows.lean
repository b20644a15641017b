import Lox.Proofs.Eval.Fuel

/-! # How statements finish

Outside of functions and loops, a statement that was parsed and walked without
errors holds no `break` and no `return`, so that it finishes normally or not at
all. Such statements do the same one by one, as those of a program, and in
sequence, as those of a block. -/

namespace Lox

namespace Finishing

mutual

/-- A statement that may finish with a `break` only if `breaks`, and with a `return` only if
`returns`. -/
def stmt (breaks returns : Prop) : Stmt → Prop
  | .break_ _ => breaks
  | .return_ .. => returns
  | .block body => stmts breaks returns body
  | .ifElse _ thenBranch none => stmt breaks returns thenBranch
  | .ifElse _ thenBranch (some elseBranch) =>
    stmt breaks returns thenBranch ∧ stmt breaks returns elseBranch
  | .while_ _ body => stmt True returns body
  | .expression _ | .print _ | .var .. | .function .. | .class_ .. => True

/-- Statements of which each may finish in these ways only. -/
def stmts (breaks returns : Prop) : List Stmt → Prop
  | [] => True
  | s :: ss => stmt breaks returns s ∧ stmts breaks returns ss

end

/-- A flow that is allowed. -/
def Allowed (breaks returns : Prop) : Flow → Prop
  | .normal => True
  | .break_ => breaks
  | .return_ _ => returns

variable {breaks returns : Prop}

mutual

theorem stmt_both : ∀ (s : Stmt) {breaks : Prop}, stmt breaks True s → stmt True returns s →
    stmt breaks returns s
  | .break_ _, _, h, _ => h
  | .return_ .., _, _, h => h
  | .block body, _, h, h' => stmts_both body h h'
  | .ifElse _ thenBranch none, _, h, h' => stmt_both thenBranch h h'
  | .ifElse _ thenBranch (some elseBranch), _, h, h' =>
    ⟨stmt_both thenBranch h.1 h'.1, stmt_both elseBranch h.2 h'.2⟩
  | .while_ _ body, _, h, h' => stmt_both body h h'
  | .expression _, _, _, _ => trivial
  | .print _, _, _, _ => trivial
  | .var .., _, _, _ => trivial
  | .function .., _, _, _ => trivial
  | .class_ .., _, _, _ => trivial

theorem stmts_both : ∀ (ss : List Stmt) {breaks : Prop}, stmts breaks True ss →
    stmts True returns ss → stmts breaks returns ss
  | [], _, _, _ => trivial
  | s :: ss, _, h, h' => ⟨stmt_both s h.1 h'.1, stmts_both ss h.2 h'.2⟩

end

end Finishing

/-! ## Evaluation -/

namespace Eval

open Run Finishing

/-- Statements finish in the ways that they may finish in. -/
structure Finishes (fuel : Nat) : Prop where
  stmt : ∀ {breaks returns : Prop} {s : Stmt} {m : Machine}, Finishing.stmt breaks returns s →
    Ends (Eval.stmt fuel s) m (fun flow _ => Allowed breaks returns flow) fun _ _ => True
  stmts : ∀ {breaks returns : Prop} {ss : List Stmt} {m : Machine},
    Finishing.stmts breaks returns ss →
      Ends (Eval.stmts fuel ss) m (fun flow _ => Allowed breaks returns flow) fun _ _ => True

/-- Whatever comes before, the last step decides how a statement finishes. -/
theorem ends_last {α : Type} {r : Run α} {k : α → Run Flow} {m : Machine} {ok : Flow → Prop}
    (h : ∀ a t, Ends (k a) t (fun flow _ => ok flow) fun _ _ => True) :
    Ends (r >>= k) m (fun flow _ => ok flow) fun _ _ => True := by
  rw [ends_bind]
  unfold Ends
  cases r m with
  | ok a t => exact h a t
  | error stop t => exact trivial

theorem finishes_stmt_step {fuel : Nat} (ih : Finishes fuel) {breaks returns : Prop} {s : Stmt}
    {m : Machine} (hs : Finishing.stmt breaks returns s) :
    Ends (Eval.stmt (fuel + 1) s) m (fun flow _ => Allowed breaks returns flow)
      fun _ _ => True := by
  have hnormal {m : Machine} : Ends (pure Flow.normal : Run Flow) m
    (fun flow _ => Allowed breaks returns flow) fun _ _ => True := trivial
  cases s with
  | expression | class_ => exact ends_last fun _ _ => hnormal
  | function => exact ends_last fun _ _ => ends_last fun _ _ => hnormal
  | print => exact ends_last fun _ _ => ends_last fun _ _ => ends_last fun _ _ => hnormal
  | var name initializer =>
    cases initializer with
    | none => exact ends_last fun _ _ => hnormal
    | some value => exact ends_last fun _ _ => ends_last fun _ _ => hnormal
  | block body =>
    refine ends_last fun outer _ => ends_last fun frame t => ?_
    rw [ends_within]
    exact ih.stmts hs
  | ifElse condition thenBranch elseBranch =>
    refine ends_last fun v t => ?_
    by_cases htruthy : v.truthy = true
    · rw [if_pos htruthy]
      cases elseBranch with
      | none => exact ih.stmt hs
      | some branch => exact ih.stmt hs.1
    · rw [if_neg htruthy]
      cases elseBranch with
      | none => exact hnormal
      | some branch => exact ih.stmt hs.2
  | while_ condition body =>
    refine ends_last fun v t => ?_
    by_cases htruthy : v.truthy = true
    · rw [if_pos htruthy, ends_bind]
      have hbody : Finishing.stmt True returns body := hs
      refine (ih.stmt hbody).imp (fun flow u hflow => ?_) fun _ _ _ => trivial
      cases flow with
      | normal => exact ih.stmt (s := .while_ condition body) hs
      | break_ => exact hnormal
      | return_ v => exact hflow
    · rw [if_neg htruthy]
      exact hnormal
  | break_ => exact hs
  | return_ keyword value =>
    cases value with
    | none => exact hs
    | some value => exact ends_last fun _ _ => hs

theorem finishes_stmts_step {fuel : Nat} (ih : Finishes fuel) {breaks returns : Prop}
    {ss : List Stmt} {m : Machine} (hss : Finishing.stmts breaks returns ss) :
    Ends (Eval.stmts (fuel + 1) ss) m (fun flow _ => Allowed breaks returns flow)
      fun _ _ => True := by
  cases ss with
  | nil => exact trivial
  | cons s ss =>
    refine ends_bind.mpr ((ih.stmt hss.1).imp (fun flow t hflow => ?_) fun _ _ _ => trivial)
    cases flow with
    | normal => exact ih.stmts hss.2
    | break_ => exact hflow
    | return_ v => exact hflow

theorem finishes (fuel : Nat) : Finishes fuel := by
  induction fuel with
  | zero => constructor <;> intros <;> exact trivial
  | succ fuel ih => exact ⟨finishes_stmt_step ih, finishes_stmts_step ih⟩

/-- A statement that may finish with neither finishes normally. -/
theorem normal_of_ok {fuel : Nat} {s : Stmt} {m t : Machine} {flow : Flow}
    (hs : Finishing.stmt False False s) (h : Eval.stmt fuel s m = .ok flow t) : flow = .normal := by
  have hflow := ((finishes fuel).stmt (m := m) hs).of_ok h
  cases flow with
  | normal => rfl
  | break_ => exact hflow.elim
  | return_ v => exact hflow.elim

/-! ## One by one and in sequence -/

/-- The end of statements that finish normally or with an error. -/
def ending (error : Option Diagnostic) (t : Machine) : EStateM.Result Stop Machine Flow :=
  error.elim (.ok .normal t) fun d => .error (.failed d) t

theorem ending_ne_outOfFuel (error : Option Diagnostic) (t u : Machine) :
    ending error t ≠ .error .outOfFuel u := by
  cases error <;> exact fun h => by cases h

theorem error_of_ending {error : Option Diagnostic} {t u : Machine} {stop : Stop}
    (h : .error stop u = ending error t) : ∃ d, error = some d ∧ stop = .failed d ∧ u = t := by
  cases error with
  | none => cases h
  | some d =>
    cases h
    exact ⟨d, rfl, rfl, rfl⟩

variable {fuel : Nat} {ss : List Stmt} {m t : Machine} {error : Option Diagnostic}

theorem prolongs_ending {fuel' : Nat} (hle : fuel ≤ fuel') (h : stmts fuel ss m = ending error t) :
    stmts fuel' ss m = ending error t := by
  have hprolongs := prolongs_of_le (fun fuel => (prolonged fuel).stmts ss) hle
  cases error with
  | none => exact (hprolongs.ends m).of_ok h
  | some d => exact (hprolongs.ends m).of_error h fun heq => by cases heq

/-- What is executed in sequence is executed one by one. -/
theorem program_of_stmts (hss : Finishing.stmts False False ss)
    (h : stmts fuel ss m = ending error t) (flows : Array Flow) :
    ∃ c, program fuel flows ss m = .ok c t ∧ c.error = error := by
  induction ss generalizing fuel m flows with
  | nil =>
    cases fuel with
    | zero => exact absurd h.symm (ending_ne_outOfFuel error t m)
    | succ fuel =>
      cases error with
      | none =>
        cases h
        exact ⟨⟨flows, none⟩, rfl, rfl⟩
      | some d => cases h
  | cons s ss ih =>
    cases fuel with
    | zero => exact absurd h.symm (ending_ne_outOfFuel error t m)
    | succ fuel =>
      have hs := (prolonged fuel).stmt s
      cases hr : stmt fuel s m with
      | ok flow u =>
        obtain rfl := normal_of_ok hss.1 hr
        have hrest : stmts fuel ss u = ending error t := (bind_of_ok hr).symm.trans h
        obtain ⟨c, hc, herror⟩ := ih hss.2 hrest (flows.push .normal)
        refine ⟨c, ?_, herror⟩
        refine (bind_of_ok (attempt_of_ok ((hs.ends m).of_ok hr))).trans ?_
        exact ((prolongs_program ss _).ends u).of_ok hc
      | error stop u =>
        obtain ⟨d, rfl, rfl, rfl⟩ := error_of_ending ((bind_of_error hr).symm.trans h)
        refine ⟨⟨flows, some d⟩, ?_, rfl⟩
        exact bind_of_ok (attempt_of_failed ((hs.ends m).of_error hr fun heq => by cases heq))

/-- What is executed one by one is executed in sequence. -/
theorem stmts_of_program (hss : Finishing.stmts False False ss) {flows : Array Flow}
    {c : Completion} (h : program fuel flows ss m = .ok c t) :
    ∃ fuel', stmts fuel' ss m = ending c.error t := by
  induction ss generalizing m flows with
  | nil =>
    cases h
    exact ⟨1, rfl⟩
  | cons s ss ih =>
    cases hr : stmt fuel s m with
    | ok flow u =>
      obtain rfl := normal_of_ok hss.1 hr
      have hrest : program fuel (flows.push .normal) ss u = .ok c t :=
        (bind_of_ok (attempt_of_ok hr)).symm.trans h
      obtain ⟨fuel', hfuel'⟩ := ih hss.2 hrest
      refine ⟨max fuel fuel' + 1, ?_⟩
      have hs := prolongs_of_le (fun fuel => (prolonged fuel).stmt s) (Nat.le_max_left fuel fuel')
      refine (bind_of_ok ((hs.ends m).of_ok hr)).trans ?_
      exact prolongs_ending (Nat.le_max_right fuel fuel') hfuel'
    | error stop u =>
      cases stop with
      | failed d =>
        have hc := (bind_of_ok (attempt_of_failed hr)).symm.trans h
        cases hc
        exact ⟨fuel + 1, bind_of_error hr⟩
      | outOfFuel =>
        have hattempt : attempt (stmt fuel s) m = .error .outOfFuel u := by
          simp only [attempt, hr]
        cases (bind_of_error hattempt).symm.trans h

/-- The machine in the frame of a block. -/
def entering (m : Machine) : Machine :=
  { m with
    heap := (m.heap.newFrame (some m.current) .empty).2
    current := (m.heap.newFrame (some m.current) .empty).1 }

/-- A block ends as its statements do in a frame of their own. -/
theorem stmts_block (hss : Finishing.stmts False False ss) :
    (∃ fuel, stmts fuel [.block ss] m = ending error t) ↔
      ∃ fuel u, stmts fuel ss (entering m) = ending error u ∧
        t = { u with current := m.current } := by
  have hstep (fuel : Nat) : stmt (fuel + 1) (.block ss) m =
      within (entering m).current (stmts fuel ss)
        { m with heap := (m.heap.newFrame (some m.current) .empty).2 } := rfl
  constructor
  · rintro ⟨fuel, h⟩
    rcases fuel with _ | _ | fuel
    · exact absurd h.symm (ending_ne_outOfFuel error t m)
    · exact absurd h.symm (ending_ne_outOfFuel error t m)
    · refine ⟨fuel, ?_⟩
      cases hr : stmts fuel ss (entering m) with
      | ok flow u =>
        have hblock := (hstep fuel).trans (within_of_ok hr)
        obtain rfl := normal_of_ok (s := .block ss) hss hblock
        have hend := (bind_of_ok hblock).symm.trans h
        cases error with
        | none =>
          cases hend
          exact ⟨u, rfl, rfl⟩
        | some d => cases hend
      | error stop u =>
        have hblock := (hstep fuel).trans (within_of_error hr)
        obtain ⟨d, rfl, rfl, rfl⟩ := error_of_ending ((bind_of_error hblock).symm.trans h)
        exact ⟨u, rfl, rfl⟩
  · rintro ⟨fuel, u, h, rfl⟩
    refine ⟨fuel + 2, ?_⟩
    cases error with
    | none => exact bind_of_ok ((hstep fuel).trans (within_of_ok h))
    | some d => exact bind_of_error ((hstep fuel).trans (within_of_error h))

end Eval

/-! ## Bodies that return no value

In the body of an initializer a `return` has no value. What such a body finishes
with carries nothing that the initializer, which returns its instance, would
have to drop. -/

/-- Nothing but `nil` is returned. -/
def Flow.Valueless (flow : Flow) : Prop := ∀ v, flow = .return_ v → v = .nil

theorem Flow.valueless_normal : Flow.normal.Valueless := fun _ h => by cases h

namespace Valueless

mutual

/-- A statement in which no `return` has a value, but for those in functions in it. -/
def stmt : Stmt → Prop
  | .return_ _ value => value = none
  | .block body => stmts body
  | .ifElse _ thenBranch none => stmt thenBranch
  | .ifElse _ thenBranch (some elseBranch) => stmt thenBranch ∧ stmt elseBranch
  | .while_ _ body => stmt body
  | .expression _ | .print _ | .var .. | .break_ _ | .function .. | .class_ .. => True

/-- Statements in which no `return` has a value, but for those in functions in them. -/
def stmts : List Stmt → Prop
  | [] => True
  | s :: ss => stmt s ∧ stmts ss

end

end Valueless

namespace Eval

/-- Where no `return` has a value none is returned. -/
structure Concludes (fuel : Nat) : Prop where
  stmt : ∀ {s : Stmt} {m : Machine}, Valueless.stmt s →
    Ends (Eval.stmt fuel s) m (fun flow _ => flow.Valueless) fun _ _ => True
  stmts : ∀ {ss : List Stmt} {m : Machine}, Valueless.stmts ss →
    Ends (Eval.stmts fuel ss) m (fun flow _ => flow.Valueless) fun _ _ => True

variable {fuel : Nat} {m : Machine}

theorem concludes_stmt_step (ih : Concludes fuel) {s : Stmt} (hs : Valueless.stmt s) :
    Ends (Eval.stmt (fuel + 1) s) m (fun flow _ => flow.Valueless) fun _ _ => True := by
  have hnormal {m : Machine} : Ends (pure Flow.normal : Run Flow) m
    (fun flow _ => flow.Valueless) fun _ _ => True := Flow.valueless_normal
  have hbreak {m : Machine} : Ends (pure Flow.break_ : Run Flow) m
    (fun flow _ => flow.Valueless) fun _ _ => True := fun _ h => by cases h
  cases s with
  | expression | class_ => exact ends_last fun _ _ => hnormal
  | function => exact ends_last fun _ _ => ends_last fun _ _ => hnormal
  | print => exact ends_last fun _ _ => ends_last fun _ _ => ends_last fun _ _ => hnormal
  | var name initializer =>
    cases initializer with
    | none => exact ends_last fun _ _ => hnormal
    | some value => exact ends_last fun _ _ => ends_last fun _ _ => hnormal
  | block body =>
    refine ends_last fun outer _ => ends_last fun frame t => ?_
    rw [Run.ends_within]
    exact ih.stmts hs
  | ifElse condition thenBranch elseBranch =>
    refine ends_last fun v t => ?_
    by_cases htruthy : v.truthy = true
    · rw [if_pos htruthy]
      cases elseBranch with
      | none => exact ih.stmt hs
      | some branch => exact ih.stmt hs.1
    · rw [if_neg htruthy]
      cases elseBranch with
      | none => exact hnormal
      | some branch => exact ih.stmt hs.2
  | while_ condition body =>
    refine ends_last fun v t => ?_
    by_cases htruthy : v.truthy = true
    · rw [if_pos htruthy, ends_bind]
      have hbody : Valueless.stmt body := hs
      refine (ih.stmt hbody).imp (fun flow u hflow => ?_) fun _ _ _ => trivial
      cases flow with
      | normal => exact ih.stmt (s := .while_ condition body) hs
      | break_ => exact hnormal
      | return_ v => exact hflow
    · rw [if_neg htruthy]
      exact hnormal
  | break_ => exact hbreak
  | return_ keyword value =>
    obtain rfl : value = none := hs
    exact fun v hv => (Flow.return_.inj hv).symm

theorem concludes_stmts_step (ih : Concludes fuel) {ss : List Stmt} (hss : Valueless.stmts ss) :
    Ends (Eval.stmts (fuel + 1) ss) m (fun flow _ => flow.Valueless) fun _ _ => True := by
  cases ss with
  | nil => exact Flow.valueless_normal
  | cons s ss =>
    refine ends_bind.mpr ((ih.stmt hss.1).imp (fun flow t hflow => ?_) fun _ _ _ => trivial)
    cases flow with
    | normal => exact ih.stmts hss.2
    | break_ => exact hflow
    | return_ v => exact hflow

theorem concludes (fuel : Nat) : Concludes fuel := by
  induction fuel with
  | zero => constructor <;> intros <;> exact trivial
  | succ fuel ih => exact ⟨concludes_stmt_step ih, concludes_stmts_step ih⟩

end Eval
end Lox
