import Lox.Proofs.Eval.Fuel
import Lox.Proofs.Loops.Rounds

/-! # The steps of a loop

The tree of a loop is evaluated as the loop runs in the scopes of the tree. Only
the bound on steps is used up at another rate: what ends within a bound on one
side ends in the same way on the other side, within a bound that is a little
greater. -/

namespace Lox.Loops

open Eval Run ForLoop

variable {fuel : Nat} {l : ForLoop}

theorem pure_prolongs_stmts_nil : Prolongs (pure Flow.normal) (stmts (fuel + 1) []) := .refl _

theorem stmts_nil_prolongs_pure : Prolongs (stmts fuel []) (pure Flow.normal) := by
  cases fuel with
  | zero => exact prolongs_exhaust _
  | succ fuel => exact .refl _

/-- The last statement of several ones. -/
theorem stmts_prolongs_stmt (s : Stmt) : Prolongs (stmts fuel [s]) (stmt fuel s) := by
  cases fuel with
  | zero => exact prolongs_exhaust _
  | succ fuel =>
    rw [← bind_pure (stmt (fuel + 1) s)]
    refine ((prolonged fuel).stmt s).bind fun flow => ?_
    cases flow with
    | normal => exact stmts_nil_prolongs_pure
    | break_ => exact .refl _
    | return_ v => exact .refl _

theorem stmt_prolongs_stmts (s : Stmt) : Prolongs (stmt fuel s) (stmts (fuel + 2) [s]) := by
  rw [← bind_pure (stmt fuel s)]
  refine ((prolonged fuel).stmt s).bind fun flow => ?_
  cases flow with
  | normal => exact pure_prolongs_stmts_nil
  | break_ => exact .refl _
  | return_ v => exact .refl _

/-- A scope in which statements are executed. -/
theorem block_eq_inScope (body : List Stmt) :
    stmt (fuel + 1) (.block body) = inScope (stmts fuel body) := by
  unfold stmt inScope
  rfl

theorem prolongs_inScope {r r' : Run Flow} (h : Prolongs r r') :
    Prolongs (inScope r) (inScope r') :=
  (Prolongs.refl _).bind fun _ => (Prolongs.refl _).bind fun frame => h.within frame

/-! ## Rounds -/

/-- The condition is looked at, and what is seen decides. -/
theorem holds_bind {k : Bool → Run Flow} {condition : Expr} (h : l.condition = some condition) :
    (l.holds fuel >>= k) = (do let v ← expr fuel condition; k v.truthy) := by
  unfold ForLoop.holds
  rw [h]
  dsimp only
  rw [bind_assoc]
  rfl

theorem holds_of_none (h : l.condition = none) : l.holds fuel = pure true := by
  unfold ForLoop.holds
  rw [h]

theorem condition_prolongs_holds {k k' : Bool → Run Flow} (hk : ∀ b, Prolongs (k b) (k' b)) :
    Prolongs (do let v ← expr fuel l.treeCondition; k v.truthy)
      (l.holds fuel >>= k') := by
  unfold treeCondition
  cases hcondition : l.condition with
  | some condition =>
    rw [holds_bind hcondition]
    exact (Prolongs.refl _).bind fun v => hk v.truthy
  | none =>
    rw [holds_of_none hcondition]
    cases fuel with
    | zero => exact prolongs_exhaust _
    | succ fuel => exact hk true

theorem holds_prolongs_condition {k k' : Bool → Run Flow} {fuel' : Nat} (hle : fuel ≤ fuel')
    (hk : ∀ b, Prolongs (k b) (k' b)) :
    Prolongs (l.holds fuel >>= k)
      (do let v ← expr (fuel' + 1) l.treeCondition; k' v.truthy) := by
  unfold treeCondition
  cases hcondition : l.condition with
  | some condition =>
    rw [holds_bind hcondition]
    refine Prolongs.bind ?_ fun v => hk v.truthy
    exact prolongs_of_le (fun n => (prolonged n).expr condition) (Nat.le_succ_of_le hle)
  | none =>
    rw [holds_of_none hcondition]
    exact hk true

/-- After the body comes the increment. -/
theorem round_eq {step : Expr} (h : l.increment = some step) : l.round fuel = (do
    match ← stmt fuel l.body with
    | .normal => do
      let _ ← expr fuel step
      pure .normal
    | flow => pure flow) := by
  unfold ForLoop.round ForLoop.advance
  rw [h]
  refine bind_congr fun flow => ?_
  cases flow with
  | normal => exact bind_assoc ..
  | break_ => rfl
  | return_ v => rfl

theorem round_eq_of_none (h : l.increment = none) : l.round fuel = stmt fuel l.body := by
  unfold ForLoop.round ForLoop.advance
  rw [h]
  refine (bind_congr fun flow => ?_).trans (bind_pure _)
  cases flow with
  | normal => rfl
  | break_ => rfl
  | return_ v => rfl

theorem treeBody_prolongs_treeRound : Prolongs (stmt fuel l.treeBody) (l.treeRound fuel) := by
  unfold treeBody treeRound
  cases hincrement : l.increment with
  | none =>
    dsimp only
    rw [round_eq_of_none hincrement]
    exact .refl _
  | some step =>
    dsimp only
    rw [round_eq hincrement]
    cases fuel with
    | zero => exact prolongs_exhaust _
    | succ fuel =>
      rw [block_eq_inScope]
      refine prolongs_inScope ?_
      cases fuel with
      | zero => exact prolongs_exhaust _
      | succ fuel =>
        refine (prolongs_of_le (fun n => (prolonged n).stmt l.body) (by omega)).bind fun flow => ?_
        cases flow with
        | normal =>
          refine (stmts_prolongs_stmt _).trans ?_
          cases fuel with
          | zero => exact prolongs_exhaust _
          | succ fuel =>
            refine Prolongs.bind ?_ fun _ => .refl _
            exact prolongs_of_le (fun n => (prolonged n).expr step) (by omega)
        | break_ => exact .refl _
        | return_ v => exact .refl _

theorem treeRound_prolongs_treeBody :
    Prolongs (l.treeRound fuel) (stmt (fuel + 5) l.treeBody) := by
  unfold treeBody treeRound
  cases hincrement : l.increment with
  | none =>
    dsimp only
    rw [round_eq_of_none hincrement]
    exact prolongs_of_le (fun n => (prolonged n).stmt l.body) (by omega)
  | some step =>
    dsimp only
    rw [round_eq hincrement, block_eq_inScope]
    refine prolongs_inScope ?_
    refine (prolongs_of_le (fun n => (prolonged n).stmt l.body) (by omega)).bind fun flow => ?_
    cases flow with
    | normal =>
      have hstep : Prolongs (stmt (fuel + 1) (.expression step))
        (stmts (fuel + 3) [.expression step]) := stmt_prolongs_stmts _
      exact hstep
    | break_ => exact .refl _
    | return_ v => exact .refl _

/-! ## The loop -/

/-- A round, when there is to be one, and what comes after it. -/
def further (round rest : Run Flow) (holds : Bool) : Run Flow := do
  if holds then
    match ← round with
    | .normal => rest
    | .break_ => pure .normal
    | .return_ value => pure (.return_ value)
  else pure .normal

theorem prolongs_further {round round' rest rest' : Run Flow} (hround : Prolongs round round')
    (hrest : Prolongs rest rest') (holds : Bool) :
    Prolongs (further round rest holds) (further round' rest' holds) := by
  cases holds with
  | false => exact .refl _
  | true =>
    refine hround.bind fun flow => ?_
    cases flow with
    | normal => exact hrest
    | break_ => exact .refl _
    | return_ v => exact .refl _

theorem while_succ (condition : Expr) (body : Stmt) :
    stmt (fuel + 1) (.while_ condition body) = (do
      let v ← expr fuel condition
      further (stmt fuel body) (stmt fuel (.while_ condition body)) v.truthy) := by
  rw [stmt]
  rfl

theorem repeated_succ (holds : Nat → Run Bool) (round : Nat → Run Flow) :
    repeated holds round (fuel + 1) =
      holds fuel >>= further (round fuel) (repeated holds round fuel) := rfl

theorem while_prolongs_repeated :
    Prolongs (stmt fuel (.while_ l.treeCondition l.treeBody))
      (repeated l.holds l.treeRound fuel) := by
  induction fuel with
  | zero => exact prolongs_exhaust _
  | succ fuel ih =>
    rw [while_succ, repeated_succ]
    exact condition_prolongs_holds (prolongs_further treeBody_prolongs_treeRound ih)

theorem repeated_prolongs_while :
    Prolongs (repeated l.holds l.treeRound fuel)
      (stmt (fuel + 6) (.while_ l.treeCondition l.treeBody)) := by
  induction fuel with
  | zero => exact prolongs_exhaust _
  | succ fuel ih =>
    rw [while_succ, repeated_succ]
    refine holds_prolongs_condition (Nat.le_add_right fuel 5) (prolongs_further ?_ ih)
    exact treeRound_prolongs_treeBody.trans ((prolonged (fuel + 5)).stmt l.treeBody)

/-- What is done first always finishes normally. -/
theorem start_bind {s : Stmt} (hs : FirstClause s) (h : l.initializer = some s)
    (k : Flow → Run Flow) : (do l.start fuel; k .normal) = stmt fuel s >>= k := by
  have hstart : l.start fuel = (do let _ ← stmt fuel s; pure ()) := by
    unfold ForLoop.start
    rw [h]
  rw [hstart]
  cases fuel with
  | zero => rfl
  | succ fuel =>
    cases hs <;> simp only [stmt, bind_assoc] <;> rfl

/-- What comes after a statement that finished normally. -/
def next (rest : Run Flow) : Flow → Run Flow
  | .normal => rest
  | flow => pure flow

theorem prolongs_next {rest rest' : Run Flow} (h : Prolongs rest rest') (flow : Flow) :
    Prolongs (next rest flow) (next rest' flow) := by
  cases flow with
  | normal => exact h
  | break_ => exact .refl _
  | return_ v => exact .refl _

theorem stmts_succ (s : Stmt) (rest : List Stmt) :
    stmts (fuel + 1) (s :: rest) = stmt fuel s >>= next (stmts fuel rest) := by
  rw [stmts]
  refine bind_congr fun flow => ?_
  cases flow <;> rfl

theorem tree_prolongs_treeRun (hl : l.Formed) (fuel : Nat) :
    Prolongs (stmt fuel l.tree) (l.treeRun fuel) := by
  rw [tree_eq]
  unfold treeRun
  cases hinitializer : l.initializer with
  | none => exact while_prolongs_repeated
  | some s =>
    have hfirst := hl.initializer s hinitializer
    obtain _ | _ | fuel := fuel
    · exact prolongs_exhaust _
    · exact (Prolongs.refl _).bind fun _ => (Prolongs.refl _).bind fun frame =>
        (prolongs_exhaust _).within frame
    dsimp only
    rw [block_eq_inScope, stmts_succ]
    refine prolongs_inScope ?_
    show Prolongs _ (do l.start (fuel + 2); next (repeated l.holds l.treeRound (fuel + 2)) .normal)
    rw [start_bind hfirst hinitializer]
    refine (prolongs_of_le (fun n => (prolonged n).stmt s) (by omega)).bind (prolongs_next ?_)
    refine (stmts_prolongs_stmt _).trans (Prolongs.trans ?_ while_prolongs_repeated)
    exact prolongs_of_le (fun n => (prolonged n).stmt _) (by omega)

theorem treeRun_prolongs_tree (hl : l.Formed) (fuel : Nat) :
    Prolongs (l.treeRun fuel) (stmt (fuel + 10) l.tree) := by
  rw [tree_eq]
  unfold treeRun
  cases hinitializer : l.initializer with
  | none =>
    exact repeated_prolongs_while.trans (prolongs_of_le (fun n => (prolonged n).stmt _) (by omega))
  | some s =>
    have hfirst := hl.initializer s hinitializer
    dsimp only
    rw [block_eq_inScope, stmts_succ]
    refine prolongs_inScope ?_
    show Prolongs (do l.start fuel; next (repeated l.holds l.treeRound fuel) .normal) _
    rw [start_bind hfirst hinitializer]
    refine (prolongs_of_le (fun n => (prolonged n).stmt s) (by omega)).bind (prolongs_next ?_)
    exact repeated_prolongs_while.trans (stmt_prolongs_stmts _)

end Lox.Loops
