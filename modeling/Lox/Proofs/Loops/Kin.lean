import Lox.Proofs.Loops.Setting
import Lox.Proofs.Renumber.Syntax
import Lox.Proofs.Scope.Resolved

/-! # The same text in other scopes

A text is addressed twice, under different numbers of its nodes, in scopes that
differ only in that some of them are missing here or there. No name is declared
in such a scope, so the two texts are kindred. -/

namespace Lox.Loops

open Scope Twin

/-- The scopes around two places, of which some are only around one of them. The scope of `super`
is never directly around such a scope. -/
inductive Beside : Levels → List (List String) → List (List String) → Prop
  | outside {Γ : List (List String)} : Beside [] Γ Γ
  | shared {p : Levels} {Γ Γ' : List (List String)} (names : List String) (h : Beside p Γ Γ') :
    Beside (.shared :: p) (names :: Γ) (names :: Γ')
  | first {p : Levels} {Γ Γ' : List (List String)} (h : Beside p Γ Γ')
    (hsuper : ∀ names ∈ Γ.head?, "super" ∉ names) : Beside (.first :: p) ([] :: Γ) Γ'
  | second {p : Levels} {Γ Γ' : List (List String)} (h : Beside p Γ Γ')
    (hsuper : ∀ names ∈ Γ'.head?, "super" ∉ names) : Beside (.second :: p) Γ ([] :: Γ')

/-- The innermost scope is around both places. -/
def Opened (p : Levels) : Prop := ∃ q, p = .shared :: q

variable {R R' known : Resolutions} {next next' : Nat} {ρ : Nat → Nat} {p : Levels}
  {Γ Γ' : List (List String)} {name : String}

theorem opened_shared : Opened (.shared :: p) := ⟨p, rfl⟩

theorem Opened.holding (h : Opened p) : Holding p := by
  obtain ⟨q, rfl⟩ := h
  trivial

theorem level_cons (names : List String) (Γ : List (List String)) (name : String) :
    level (names :: Γ) name = if names.contains name then some 0 else (level Γ name).map (· + 1) :=
  List.findIdx?_cons ..

/-- A scope without names is passed by. -/
theorem level_nil_cons (Γ : List (List String)) (name : String) :
    level ([] :: Γ) name = (level Γ name).map (· + 1) := by
  rw [level_cons]
  exact if_neg (by simp)

theorem level_ne_zero (h : ∀ names ∈ Γ.head?, name ∉ names) : level Γ name ≠ some 0 := by
  intro hzero
  cases Γ with
  | nil => cases hzero
  | cons names Γ =>
    rw [level_cons, if_neg (by simpa using h names rfl)] at hzero
    obtain ⟨hops, -, hops_eq⟩ := Option.map_eq_some_iff.mp hzero
    cases hops_eq

/-- A name is found in the same scope from both places; and so is `super`, of which the scope just
inside is around both. -/
theorem Beside.found (h : Beside p Γ Γ') (name : String) :
    Option.Rel (Leads p name) (level Γ name) (level Γ' name) := by
  induction h with
  | @outside Γ =>
    cases level Γ name with
    | none => exact .none
    | some hops =>
      refine .some ⟨.outside, fun _ => ?_⟩
      cases hops with
      | zero => exact .none
      | succ hops => exact .some .outside
  | @shared p Γ Γ' names _ ih =>
    rw [level_cons, level_cons]
    by_cases hname : names.contains name = true
    · rw [if_pos hname, if_pos hname]
      exact .some ⟨.here, fun _ => .none⟩
    · rw [if_neg hname, if_neg hname]
      generalize level Γ name = hops at ih ⊢
      generalize level Γ' name = hops' at ih ⊢
      cases ih with
      | none => exact .none
      | some hleads =>
        refine .some ⟨.shared hleads.meets, fun hsuper => .some ?_⟩
        cases hleads.within hsuper with
        | none => exact .here
        | some hwithin => exact .shared hwithin
  | @first p Γ Γ' _ hsuper ih =>
    have hzero : name = "super" → level Γ name ≠ some 0 := fun hname => by
      subst hname
      exact level_ne_zero hsuper
    rw [level_nil_cons]
    generalize level Γ name = hops at ih hzero ⊢
    generalize level Γ' name = hops' at ih ⊢
    cases ih with
    | none => exact .none
    | some hleads =>
      refine .some ⟨.first hleads.meets, fun hname => ?_⟩
      cases hleads.within hname with
      | none => exact absurd rfl (hzero hname)
      | some hwithin => exact .some (.first hwithin)
  | @second p Γ Γ' _ hsuper ih =>
    have hzero : name = "super" → level Γ' name ≠ some 0 := fun hname => by
      subst hname
      exact level_ne_zero hsuper
    rw [level_nil_cons]
    generalize level Γ name = hops at ih ⊢
    generalize level Γ' name = hops' at ih hzero ⊢
    cases ih with
    | none => exact .none
    | some hleads =>
      refine .some ⟨.second hleads.meets, fun hname => ?_⟩
      cases hleads.within hname with
      | none => exact absurd rfl (hzero hname)
      | some hwithin => exact .some (.second hwithin)

theorem Beside.declareIn (h : Beside p Γ Γ') (hp : Opened p) (name : String) :
    Beside p (declareIn name Γ) (declareIn name Γ') := by
  obtain ⟨q, rfl⟩ := hp
  cases h with
  | shared names h => exact .shared (name :: names) h

theorem Beside.after (h : Beside p Γ Γ') {s : Stmt} (hs : Watch.declared? s = none ∨ Opened p) :
    Beside p (after Γ s) (after Γ' s) := by
  unfold Scope.after
  cases hdeclared : Watch.declared? s with
  | none => exact h
  | some name =>
    refine h.declareIn (hs.resolve_left fun hnone => ?_) name
    rw [hdeclared] at hnone
    cases hnone

/-! ## Kindred texts

The second text is the first one with other numbers. What is recorded for its nodes is told by what
is known of those of the first text where the second one stands. -/

theorem named_same (name : Ident) : (kinship R R').Named p name name := ⟨rfl, rfl⟩

theorem declares_same (hp : Holding p) (name : Ident) : (kinship R R').Declares p name name :=
  ⟨⟨rfl, hp⟩, rfl⟩

theorem inside_shared (p : Levels) : (kinship R R').inside p (Level.shared :: p) := rfl

theorem opened_of_declared {s : Stmt} (hs : Watch.declared? s = none ∨ Opened p)
    (hname : Watch.declared? s = some name) : Opened p := by
  refine hs.resolve_left fun hnone => ?_
  rw [hname] at hnone
  cases hnone

/-- For the nodes of a text the same is known as for the same nodes under other numbers. -/
def Renames (ρ : Nat → Nat) (known R' : Resolutions) : Prop :=
  ∀ id, R'.find? (ρ id) = known.find? id

/-- A use, addressed at both places. -/
theorem Beside.leads (hk : Renames ρ known R') (h : Beside p Γ Γ') {id : Nat}
    (ha : (Known.mk R next).Leads Γ id name)
    (ha' : (Known.mk known next').Leads Γ' id name) :
    (kinship R R').use p id (ρ id) name name := by
  have hfound : R.find? id = level Γ name := ha.found
  have hfound' : known.find? id = level Γ' name := ha'.found
  refine ⟨rfl, ?_⟩
  rw [hfound, hk id, hfound']
  exact h.found name

theorem uses_same (hk : Renames ρ known R') (h : Beside p Γ Γ') {target : Reference}
    (ha : (Known.mk R next).Leads Γ target.id target.name.text)
    (ha' : (Known.mk known next').Leads Γ' target.id target.name.text) :
    (kinship R R').Uses p target (Renumber.reference ρ target) :=
  ⟨Beside.leads hk h ha ha', rfl⟩

mutual

theorem kin_expr (hk : Renames ρ known R') : ∀ (e : Expr) {p : Levels}
    {Γ Γ' : List (List String)}, Beside p Γ Γ' →
    Plain.expr e → Addressed.expr ⟨R, next⟩ Γ e →
    Addressed.expr ⟨known, next'⟩ Γ' e →
    KinExpr (kinship R R') p e (Renumber.expr ρ e)
  | .literal .., _, _, _, _, _, _, _ => .literal rfl
  | .grouping inner _, _, _, _, h, hp, ha, ha' => .grouping (kin_expr hk inner h hp ha ha') rfl
  | .unary _ _ operand, _, _, _, h, hp, ha, ha' => .unary rfl (kin_expr hk operand h hp ha ha')
  | .binary left _ _ right, _, _, _, h, hp, ha, ha' =>
    .binary (kin_expr hk left h hp.1 ha.1 ha'.1) rfl (kin_expr hk right h hp.2 ha.2 ha'.2)
  | .logical left _ _ right, _, _, _, h, hp, ha, ha' =>
    .logical (kin_expr hk left h hp.1 ha.1 ha'.1) rfl (kin_expr hk right h hp.2 ha.2 ha'.2)
  | .var _, _, _, _, h, _, ha, ha' => .var (uses_same hk h ha ha')
  | .assign _ value, _, _, _, h, hp, ha, ha' =>
    .assign (uses_same hk h ha.1 ha'.1) (kin_expr hk value h hp ha.2 ha'.2)
  | .call callee _ arguments, _, _, _, h, hp, ha, ha' =>
    .call (kin_expr hk callee h hp.1 ha.1 ha'.1) rfl (kin_exprs hk arguments h hp.2 ha.2 ha'.2)
  | .get object name, _, _, _, h, hp, ha, ha' =>
    .get (kin_expr hk object h hp ha ha') (named_same name)
  | .set object name value, _, _, _, h, hp, ha, ha' =>
    .set (kin_expr hk object h hp.1 ha.1 ha'.1) (named_same name)
      (kin_expr hk value h hp.2 ha.2 ha'.2)
  | .this .., _, _, _, h, _, ha, ha' => .this (Beside.leads hk h ha ha') rfl
  | .super _ _ method, _, _, _, h, _, ha, ha' =>
    .super (Beside.leads hk h ha ha') rfl (named_same method)
  | .lambda fn, _, _, _, h, hp, ha, ha' => .lambda (kin_function hk fn h hp ha ha')

theorem kin_exprs (hk : Renames ρ known R') : ∀ (es : List Expr) {p : Levels}
    {Γ Γ' : List (List String)}, Beside p Γ Γ' →
    Plain.exprs es → Addressed.exprs ⟨R, next⟩ Γ es →
    Addressed.exprs ⟨known, next'⟩ Γ' es →
    KinExprs (kinship R R') p es (Renumber.exprs ρ es)
  | [], _, _, _, _, _, _, _ => .nil
  | e :: es, _, _, _, h, hp, ha, ha' =>
    .cons (kin_expr hk e h hp.1 ha.1 ha'.1) (kin_exprs hk es h hp.2 ha.2 ha'.2)

theorem kin_function (hk : Renames ρ known R') : ∀ (fn : Lambda) {p : Levels}
    {Γ Γ' : List (List String)}, Beside p Γ Γ' →
    Plain.lambda fn → Addressed.function ⟨R, next⟩ Γ fn →
    Addressed.function ⟨known, next'⟩ Γ' fn →
    KinLambda (kinship R R') p fn (Renumber.lambda ρ fn)
  | ⟨params, body, _⟩, p, _, _, h, hp, ha, ha' =>
    .mk (inside_shared p)
      (List.forall₂_same.mpr fun name _ => declares_same (p := .shared :: p) trivial name)
      (kin_stmts hk body (.shared (params.map Ident.text) h) opened_shared hp ha ha') rfl

/-- A statement declares names only in a scope that is around both places. -/
theorem kin_stmt (hk : Renames ρ known R') : ∀ (s : Stmt) {p : Levels}
    {Γ Γ' : List (List String)}, Beside p Γ Γ' →
    Watch.declared? s = none ∨ Opened p → Plain.stmt s → Addressed.stmt ⟨R, next⟩ Γ s →
    Addressed.stmt ⟨known, next'⟩ Γ' s →
    KinStmt (kinship R R') p s (Renumber.stmt ρ s)
  | .expression value, _, _, _, h, _, hp, ha, ha' => .expression (kin_expr hk value h hp ha ha')
  | .print value, _, _, _, h, _, hp, ha, ha' => .print (kin_expr hk value h hp ha ha')
  | .var name none, _, _, _, _, hd, _, _, _ =>
    .declaration (declares_same (opened_of_declared hd rfl).holding name)
  | .var name (some value), _, _, _, h, hd, hp, ha, ha' =>
    have ho := opened_of_declared hd rfl
    .definition (declares_same ho.holding name) (kin_expr hk value (h.declareIn ho _) hp ha ha')
  | .block body, p, _, _, h, _, hp, ha, ha' =>
    .block (inside_shared p) (kin_stmts hk body (.shared [] h) opened_shared hp ha ha')
  | .ifElse condition thenBranch none, _, _, _, h, _, hp, ha, ha' =>
    .ifThen (kin_expr hk condition h hp.1 ha.1 ha'.1)
      (kin_stmt hk thenBranch h (.inl hp.2.1) hp.2.2 ha.2 ha'.2)
  | .ifElse condition thenBranch (some elseBranch), _, _, _, h, _, hp, ha, ha' =>
    .ifElse (kin_expr hk condition h hp.1 ha.1 ha'.1)
      (kin_stmt hk thenBranch h (.inl hp.2.1.1) hp.2.1.2 ha.2.1 ha'.2.1)
      (kin_stmt hk elseBranch h (.inl hp.2.2.1) hp.2.2.2 ha.2.2 ha'.2.2)
  | .while_ condition body, _, _, _, h, _, hp, ha, ha' =>
    .while_ (kin_expr hk condition h hp.1 ha.1 ha'.1)
      (kin_stmt hk body h (.inl hp.2.1) hp.2.2 ha.2 ha'.2)
  | .break_ _, _, _, _, _, _, _, _, _ => .break_ rfl
  | .return_ _ none, _, _, _, _, _, _, _, _ => .returnNil rfl
  | .return_ _ (some value), _, _, _, h, _, hp, ha, ha' =>
    .return_ rfl (kin_expr hk value h hp ha ha')
  | .function name fn, _, _, _, h, hd, hp, ha, ha' =>
    have ho := opened_of_declared hd rfl
    .function (declares_same ho.holding name) rfl (kin_function hk fn (h.declareIn ho _) hp ha ha')
  | .class_ name none declared, _, _, _, h, hd, hp, ha, ha' =>
    have ho := opened_of_declared hd rfl
    .class_ (declares_same ho.holding name) rfl
      (kin_methods hk declared ["this"] (h.declareIn ho _) hp ha ha')
  | .class_ name (some _) declared, p, _, _, h, hd, hp, ha, ha' =>
    have ho := opened_of_declared hd rfl
    have hnamed := h.declareIn ho name.text
    .subclass (declares_same ho.holding name) rfl
      (uses_same hk hnamed ha.1.1 ha'.1.1) (inside_shared p)
      (kin_methods hk declared ["this"] (.shared ["super"] hnamed) hp ha.2 ha'.2)

theorem kin_stmts (hk : Renames ρ known R') : ∀ (ss : List Stmt) {p : Levels}
    {Γ Γ' : List (List String)}, Beside p Γ Γ' →
    Opened p → Plain.stmts ss → Addressed.stmts ⟨R, next⟩ Γ ss →
    Addressed.stmts ⟨known, next'⟩ Γ' ss →
    KinStmts (kinship R R') p ss (Renumber.stmts ρ ss)
  | [], _, _, _, _, _, _, _, _ => .nil
  | s :: ss, _, _, _, h, ho, hp, ha, ha' =>
    .cons (kin_stmt hk s h (.inr ho) hp.1 ha.1 ha'.1)
      (kin_stmts hk ss (h.after (.inr ho)) ho hp.2 ha.2 ha'.2)

/-- The methods of a class, in the scope of their instance. -/
theorem kin_methods (hk : Renames ρ known R') : ∀ (ms : List Method) (names : List String)
    {p : Levels} {Γ Γ' : List (List String)}, Beside p Γ Γ' → Plain.methods ms →
    Addressed.methods ⟨R, next⟩ (names :: Γ) ms →
    Addressed.methods ⟨known, next'⟩ (names :: Γ') ms →
    KinMethods (kinship R R') p ms (Renumber.methods ρ ms)
  | [], _, _, _, _, _, _, _, _ => .nil
  | ⟨name, fn⟩ :: ms, names, p, _, _, h, hp, ha, ha' =>
    .cons (named_same name) (inside_shared p)
      (kin_function hk fn (.shared names h) hp.1 ha.1 ha'.1)
      (kin_methods hk ms names h hp.2 ha.2 ha'.2)

end

end Lox.Loops
