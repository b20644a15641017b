import Lox.Proofs.Loops.Kin
import Lox.Proofs.Loops.Rounds
import Lox.Proofs.Loops.Rules
import Lox.Proofs.Renumber.Walk
import Lox.Proofs.Scope.Initializers

/-! # What is recorded about a loop

The tree of a loop is walked where the loop stands, and so are its clauses in one
scope. With what the two walks find the two loops are kindred. -/

namespace Lox

namespace Resolutions

/-- Drops what is recorded for some nodes. -/
def without (R : Resolutions) (ids : List Nat) : Resolutions :=
  ⟨R.table.mapIdx fun id hops => if id ∈ ids then none else hops⟩

theorem find?_without (R : Resolutions) (ids : List Nat) (id : Nat) :
    (R.without ids).find? id = if id ∈ ids then none else R.find? id := by
  unfold without find?
  dsimp only
  rw [Array.getElem?_mapIdx]
  cases R.table[id]? with
  | none => exact (ite_self none).symm
  | some hops => rfl

/-- What is recorded in the same way is found alike where the same was known. -/
theorem find?_recordAll_congr {R R' : Resolutions} {id : Nat} (h : R'.find? id = R.find? id)
    (found : Array (Nat × Nat)) : (R'.recordAll found).find? id = (R.recordAll found).find? id := by
  rw [recordAll_eq_foldl, recordAll_eq_foldl]
  induction found.toList generalizing R R' with
  | nil => exact h
  | cons entry rest ih =>
    refine ih ?_
    rw [find?_record, find?_record, h]

end Resolutions

namespace Scope

/-- A walk that comes to a statement at `place` finds no error, and what it finds is what the
records tell of the nodes of the statement. These are numbered below `next`. -/
structure Recorded (R : Resolutions) (next : Nat) (place : Walk) (s : Stmt) : Prop where
  clean : (stmt s place).errors = #[]
  nodup : (Nodes.stmt [] s).Nodup
  bound : ∀ id ∈ Nodes.stmt [] s, id < next
  found : ∀ id ∈ Nodes.stmt [] s,
    R.find? id = (Resolutions.empty.recordAll (stmt s place).found).find? id

/-- A place at which a statement can stand, where nothing has been found yet. `super` is declared
around methods only. -/
structure Standing (around : Enclosures) (place : Walk) : Prop where
  fits : Fits around none place
  found : place.found = #[]
  ordinary : "super" ∉ around.declared

variable {R : Resolutions} {next : Nat} {place : Walk} {s : Stmt} {Γ : List (List String)}
  {around : Enclosures}

/-- What a walk has found that had found nothing. -/
theorem mem_nodes_of_found (hfound : place.found = #[]) {entry : Nat × Nat}
    (h : entry ∈ (stmt s place).found) : entry.1 ∈ Nodes.stmt [] s := by
  rcases (walked_stmt s place).new entry h with hmem | hmem
  · rw [hfound] at hmem
    exact absurd hmem (Array.not_mem_empty entry)
  · exact hmem

/-- What is found for a statement, where nothing was known of its nodes. -/
theorem pass_of_found (hfound : place.found = #[]) (hclean : (stmt s place).errors = #[])
    (hnodup : (Nodes.stmt [] s).Nodup)
    (hnew : ∀ id ∈ Nodes.stmt [] s, id < next ∧ R.find? id = none) :
    Pass R (stmt s place).found next (Nodes.stmt [] s) place.found (stmt s place).found
      (stmt s place).errors where
  nodup := hnodup
  new := hnew
  fresh id _ hops hmem := by
    rw [hfound] at hmem
    exact absurd hmem (Array.not_mem_empty _)
  final _ _ _ := Iff.rfl
  clean := by
    rw [hclean]
    rfl

/-- Recording what was found once more changes nothing. -/
theorem Recorded.find?_again (h : Recorded R next place s) (hfound : place.found = #[]) (id : Nat) :
    ((R.without (Nodes.stmt [] s)).recordAll (stmt s place).found).find? id = R.find? id := by
  by_cases hid : id ∈ Nodes.stmt [] s
  · rw [h.found id hid]
    refine Resolutions.find?_recordAll_congr ?_ _
    rw [Resolutions.find?_without, if_pos hid, Resolutions.find?_empty]
  · rw [Resolutions.find?_recordAll_of_absent, Resolutions.find?_without, if_neg hid]
    rintro entry hentry rfl
    exact hid (mem_nodes_of_found hfound hentry)

/-- What a walk finds is recorded when it is recorded for nodes of which nothing was known. -/
theorem recorded_of_walk (hclean : (stmt s place).errors = #[]) (hnodup : (Nodes.stmt [] s).Nodup)
    (hnew : ∀ id ∈ Nodes.stmt [] s, id < next ∧ R.find? id = none) :
    Recorded (R.recordAll (stmt s place).found) next place s where
  clean := hclean
  nodup := hnodup
  bound id hid := (hnew id hid).1
  found id hid := Resolutions.find?_recordAll_congr
    ((hnew id hid).2.trans (Resolutions.find?_empty id).symm) _

/-- The uses in a statement are addressed by what is recorded about it. -/
theorem Recorded.addressed (h : Recorded R next place s) (hfound : place.found = #[])
    (hplain : Plain.stmt s) (hm : Matches place Γ) : Addressed.stmt ⟨R, next⟩ Γ s := by
  have hpass : Pass (R.without (Nodes.stmt [] s)) (stmt s place).found next (Nodes.stmt [] s)
      place.found (stmt s place).found (stmt s place).errors := by
    refine pass_of_found hfound h.clean h.nodup fun id hid => ⟨h.bound id hid, ?_⟩
    rw [Resolutions.find?_without, if_pos hid]
  have hextends : (Known.mk ((R.without (Nodes.stmt [] s)).recordAll (stmt s place).found)
      next).Extends ⟨R, next⟩ := ⟨Nat.le_refl next, fun id _ => (h.find?_again hfound id).symm⟩
  exact Addressed.stmt_mono hextends s Γ (addressed_stmt s hplain hm hpass)

/-- `super` is not found directly around a place at which a statement stands. -/
theorem Standing.super (h : Standing around place) (hm : Matches place Γ) :
    ∀ names ∈ Γ.head?, "super" ∉ names := by
  intro names hnames
  obtain ⟨Γ, rfl⟩ := List.head?_eq_some_iff.mp hnames
  unfold Matches at hm
  cases h.fits.scopes with
  | global _ hscopes =>
    rw [hscopes] at hm
    cases hm
  | scope scope outer _ hscopes hget =>
    rw [hscopes] at hm
    obtain _ | ⟨hscope, -⟩ := hm
    have hnone : scope.contains "super" = false := by
      unfold Bindings.contains
      rw [hget "super", if_neg h.ordinary]
      rfl
    rw [hscope] at hnone
    simpa using hnone

end Scope

theorem FirstClause.super {s : Stmt} {Γ : List (List String)} (h : FirstClause s) :
    ∀ names ∈ (Scope.after ([] :: Γ) s).head?, "super" ∉ names := by
  intro names hnames
  cases h with
  | declaration hname | definition hname =>
    cases hnames
    simpa using Ne.symm hname
  | expression =>
    cases hnames
    exact List.not_mem_nil

namespace Loops

open Scope Twin

variable {R R' known : Resolutions} {next next' : Nat} {ρ : Nat → Nat} {l : ForLoop}
  {Γ Γ' Γ₁ Γ₂ Γ₁' Γ₂' : List (List String)} {K : Known} {outer inner : Levels}

/-- The uses in the clauses behind the initializer, and in the body, are addressed. -/
structure AddressedClauses (K : Known) (Γ₁ Γ₂ : List (List String)) (l : ForLoop) : Prop where
  condition : ∀ e ∈ l.condition, Addressed.expr K Γ₁ e
  body : Addressed.stmt K Γ₂ l.body
  increment : ∀ e ∈ l.increment, Addressed.expr K Γ₂ e

/-- The scopes around the body of a loop in the tree. -/
def aroundBody (l : ForLoop) (Γ : List (List String)) : List (List String) :=
  match l.increment with
  | some _ => [] :: Γ
  | none => Γ

theorem after_of_none {s : Stmt} (h : Watch.declared? s = none) : after Γ s = Γ := by
  unfold after
  rw [h]

theorem addressedClauses_of_tree (hl : l.Formed)
    (h : Addressed.stmt K Γ (.while_ l.treeCondition l.treeBody)) :
    AddressedClauses K Γ (aroundBody l Γ) l := by
  obtain ⟨hcondition, hbody⟩ := h
  unfold aroundBody
  refine ⟨fun e he => ?_, ?_, fun e he => ?_⟩
  · rw [ForLoop.treeCondition, he] at hcondition
    exact hcondition
  · unfold ForLoop.treeBody at hbody
    cases hincrement : l.increment with
    | none =>
      rw [hincrement] at hbody
      exact hbody
    | some step =>
      rw [hincrement] at hbody
      exact hbody.1
  · rw [ForLoop.treeBody, he] at hbody
    rw [he]
    have hstep := hbody.2.1
    rw [after_of_none hl.body.1] at hstep
    exact hstep

theorem addressedClauses_of_scope (hl : l.Formed)
    (h : Addressed.stmts K Γ (l.condition.toList.map .expression ++ l.body ::
      l.increment.toList.map .expression)) : AddressedClauses K Γ Γ l := by
  have hrest : Addressed.stmts K Γ (l.body :: l.increment.toList.map .expression) ∧
      ∀ e ∈ l.condition, Addressed.expr K Γ e := by
    cases hcondition : l.condition with
    | none =>
      rw [hcondition] at h
      exact ⟨h, fun e he => by cases he⟩
    | some condition =>
      rw [hcondition] at h
      refine ⟨h.2, fun e he => ?_⟩
      cases he
      exact h.1
  obtain ⟨⟨hbody, hincrement⟩, hcondition⟩ := hrest
  refine ⟨hcondition, hbody, fun e he => ?_⟩
  rw [he, after_of_none hl.body.1] at hincrement
  exact hincrement.1

/-- Clauses that stand beside each other are kindred. -/
theorem kin_clauses (hk : Renames ρ known R') (hl : l.Formed)
    (h : AddressedClauses ⟨R, next⟩ Γ₁ Γ₂ l) (h' : AddressedClauses ⟨known, next'⟩ Γ₁' Γ₂' l)
    (houter : Beside outer Γ₁ Γ₁') (hinner : Beside inner Γ₂ Γ₂')
    (hinitializer : Option.Rel (KinStmt (kinship R R') outer) l.initializer
      (l.renumber ρ).initializer) :
    KinLoop (kinship R R') outer inner l (l.renumber ρ) where
  initializer := hinitializer
  condition := by
    unfold ForLoop.renumber
    cases hcondition : l.condition with
    | none => exact .none
    | some e => exact .some (kin_expr hk e houter (hl.condition e hcondition)
        (h.condition e hcondition) (h'.condition e hcondition))
  increment := by
    unfold ForLoop.renumber
    cases hincrement : l.increment with
    | none => exact .none
    | some e => exact .some (kin_expr hk e hinner (hl.increment e hincrement)
        (h.increment e hincrement) (h'.increment e hincrement))
  body := kin_stmt hk l.body hinner (.inl hl.body.1) hl.body.2 h.body h'.body

/-- Where the body stands on both sides, when the condition stands there. -/
theorem Beside.body (h : Beside outer Γ Γ') (hsuper : ∀ names ∈ Γ.head?, "super" ∉ names) :
    Beside (inside l outer) (aroundBody l Γ) Γ' := by
  unfold inside aroundBody
  cases l.increment with
  | none => exact h
  | some _ => exact .first h hsuper

/-- The loop in its tree and the loop in one scope are kindred. -/
theorem kin_loop (hk : Renames ρ known R') (hl : l.Formed)
    (hsuper : ∀ names ∈ Γ.head?, "super" ∉ names)
    (h : Addressed.stmt ⟨R, next⟩ Γ l.tree) (h' : Addressed.stmt ⟨known, next'⟩ Γ l.scope) :
    KinLoop (kinship R R') (outside l []) (inside l (outside l [])) l (l.renumber ρ) := by
  rw [ForLoop.tree_eq] at h
  unfold ForLoop.scope at h'
  unfold outside
  cases hinitializer : l.initializer with
  | none =>
    rw [hinitializer] at h h'
    have hbeside : Beside [.second] Γ ([] :: Γ) := .second .outside hsuper
    refine kin_clauses hk hl (addressedClauses_of_tree hl h) (addressedClauses_of_scope hl h')
      hbeside (hbeside.body hsuper) ?_
    rw [ForLoop.renumber, hinitializer]
    exact .none
  | some s =>
    rw [hinitializer] at h h'
    have hfirst := hl.initializer s hinitializer
    have hopen : Beside [.shared] ([] :: Γ) ([] :: Γ) := .shared [] .outside
    have hbeside := hopen.after (.inr opened_shared) (s := s)
    refine kin_clauses hk hl (addressedClauses_of_tree hl h.2.1)
      (addressedClauses_of_scope hl h'.2) hbeside (hbeside.body hfirst.super) ?_
    rw [ForLoop.renumber, hinitializer]
    exact .some (kin_stmt hk s hopen (.inr opened_shared) hfirst.plain h.1 h'.1)

/-! ## The two walks -/

theorem nodes_scope (l : ForLoop) : Nodes.stmt [] l.scope = Nodes.stmt [] l.tree := by
  obtain ⟨keyword, initializer, condition, increment, body⟩ := l
  cases initializer <;> cases condition <;> cases increment <;> rfl

theorem renumber_scope (l : ForLoop) :
    (l.renumber ρ).scope = Renumber.stmt ρ l.scope := by
  obtain ⟨keyword, initializer, condition, increment, body⟩ := l
  cases initializer <;> cases condition <;> cases increment <;> rfl

variable {around : Enclosures} {place : Walk}

/-- What is found in one scope breaks no rule, as nothing in the tree does. -/
theorem clean_scope (hl : l.Formed) (hplace : Standing around place)
    (h : (Scope.stmt l.tree place).errors = #[]) : (Scope.stmt l.scope place).errors = #[] := by
  have htree := (reports_stmt l.tree hplace.fits).1
  have hscope := (reports_stmt l.scope hplace.fits).1
  unfold Reports at htree hscope
  rw [h, eq_comm, Array.append_eq_empty_iff, ← lawful_iff_reports] at htree
  rw [hscope, Array.append_eq_empty_iff, ← lawful_iff_reports]
  exact ⟨htree.1, lawful_scope hl htree.2⟩

/-- Under new numbers the walk over the loop in one scope finds the same. -/
theorem walk_renumber (hplace : place.found = #[]) (ρ : Nat → Nat) :
    Scope.stmt (l.renumber ρ).scope place = Renumber.walk ρ (Scope.stmt l.scope place) := by
  have hwalk : Renumber.walk ρ place = place := by
    unfold Renumber.walk
    rw [hplace, Array.map_empty, ← hplace]
  rw [renumber_scope, ← Renumber.walk_stmt, hwalk]

/-- Under new numbers it finds no error either. -/
theorem clean_renumber (hl : l.Formed) (hplace : Standing around place)
    (h : (Scope.stmt l.tree place).errors = #[]) (ρ : Nat → Nat) :
    (Scope.stmt (l.renumber ρ).scope place).errors = #[] := by
  rw [walk_renumber hplace.found]
  exact clean_scope hl hplace h

/-- What is known when the loop in one scope has been walked under new numbers. -/
def recordScope (R : Resolutions) (l : ForLoop) (place : Walk) : Resolutions :=
  R.recordAll (Scope.stmt l.scope place).found

theorem renames_recordScope (hplace : place.found = #[]) {k : Nat}
    (hnew : ∀ id, k ≤ id → R.find? id = none) :
    Renames (· + k) (recordScope .empty l place) (recordScope R (l.renumber (· + k)) place) := by
  intro id
  unfold recordScope
  rw [walk_renumber hplace]
  have hinjective : Function.Injective (· + k) := fun _ _ => Nat.add_right_cancel
  refine Resolutions.find?_recordAll_map hinjective (fun id => ?_) _ id
  rw [Resolutions.find?_empty]
  exact hnew _ (Nat.le_add_left k id)

/-! ## Kindred loops -/

theorem plain_tree (hl : l.Formed) : Plain.stmt l.tree :=
  (Grammar.plain_desugarFor l.keyword (fun s hs => (hl.initializer s hs).plain) hl.condition
    hl.increment hl.body).2

theorem plain_scope (hl : l.Formed) : Plain.stmt l.scope := by
  have hstmts (ss ss' : List Stmt) (h : Plain.stmts ss) (h' : Plain.stmts ss') :
      Plain.stmts (ss ++ ss') := by
    induction ss with
    | nil => exact h'
    | cons s ss ih => exact ⟨h.1, ih h.2⟩
  have hclause (e? : Option Expr) (h : ∀ e ∈ e?, Plain.expr e) :
      Plain.stmts (e?.toList.map .expression) := by
    cases e? with
    | none => exact trivial
    | some e => exact ⟨h e rfl, trivial⟩
  refine hstmts _ _ (hstmts _ _ ?_ (hclause _ hl.condition)) ⟨hl.body.2, hclause _ hl.increment⟩
  cases hinitializer : l.initializer with
  | none => exact trivial
  | some s => exact ⟨(hl.initializer s hinitializer).plain, trivial⟩

/-- What is found in one scope addresses the loop there. -/
theorem addressed_scope (hl : l.Formed) (hplace : Standing around place)
    (h : Recorded R next place l.tree) (hm : Matches place Γ) :
    Addressed.stmt ⟨recordScope .empty l place, next⟩ Γ l.scope := by
  have hnodup := h.nodup
  have hbound := h.bound
  rw [← nodes_scope] at hnodup hbound
  have hpass := pass_of_found hplace.found (clean_scope hl hplace h.clean) hnodup fun id hid =>
    ⟨hbound id hid, Resolutions.find?_empty id⟩
  exact addressed_stmt l.scope (plain_scope hl) hm hpass

/-- A loop for which records are there is kindred to the one that is walked in one scope, under
numbers that are new. -/
theorem kin_recorded (hl : l.Formed) (hplace : Standing around place)
    (h : Recorded R next place l.tree) (hnew : ∀ id, next ≤ id → R.find? id = none) :
    KinLoop (kinship R (recordScope R (l.renumber (· + next)) place)) (outside l [])
      (inside l (outside l [])) l (l.renumber (· + next)) := by
  obtain ⟨Γ, hm⟩ := exists_matches place
  exact kin_loop (renames_recordScope hplace.found hnew) hl (hplace.super hm)
    (h.addressed hplace.found (plain_tree hl) hm) (addressed_scope hl hplace h hm)

/-- What was known before is known still. -/
theorem find?_recordScope (hplace : place.found = #[]) {id : Nat} (hid : id < next) :
    (recordScope R (l.renumber (· + next)) place).find? id = R.find? id := by
  refine Resolutions.find?_recordAll_of_absent ?_
  rw [walk_renumber hplace]
  intro entry hentry
  obtain ⟨before, -, rfl⟩ := Array.mem_map.mp hentry
  exact Nat.ne_of_gt (Nat.lt_of_lt_of_le hid (Nat.le_add_left _ _))

end Loops
end Lox
