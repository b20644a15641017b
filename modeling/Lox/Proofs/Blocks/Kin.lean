import Lox.Proofs.Blocks.Setting
import Lox.Proofs.Scope.Resolved
import Lox.Proofs.Syntax.Parts

/-! # A program that is addressed twice

The uses in a program are addressed at the top, and in a block with one more scope
around. What is recorded for each of them is such that the program is kindred to
itself. -/

namespace Lox.Blocks

open Scope Twin

/-- Names that a program declares at its top. -/
def topNames (ss : List Stmt) : List String := ss.filterMap Watch.declared?

/-- The second scopes are the first ones and that of the block around them, which has names of
the top. No keyword is among them. -/
structure Around (top : String → Prop) (Γ Γ' : List (List String)) : Prop where
  block : ∃ names, Γ' = Γ ++ [names] ∧ ∀ name ∈ names, top name
  this : ¬ top "this"
  super : ¬ top "super"

/-- Of uses, those for which nothing is recorded have names that are not declared at the top. -/
def Unclaimed (R' : Resolutions) (top : String → Prop) (uses : List Reference) : Prop :=
  ∀ use ∈ uses, R'.find? use.id = none → ¬ top use.name.text

variable {R R' : Resolutions} {top : String → Prop} {Γ Γ' : List (List String)} {name : String}

theorem Around.cons (h : Around top Γ Γ') (names : List String) :
    Around top (names :: Γ) (names :: Γ') := by
  obtain ⟨⟨block, rfl, htop⟩, hthis, hsuper⟩ := h
  exact ⟨⟨block, rfl, htop⟩, hthis, hsuper⟩

theorem Around.declareIn (h : Around top Γ Γ') (hname : Γ = [] → top name) :
    Around top (declareIn name Γ) (declareIn name Γ') := by
  obtain ⟨⟨block, rfl, htop⟩, hthis, hsuper⟩ := h
  cases Γ with
  | nil =>
    exact ⟨⟨name :: block, rfl, List.forall_mem_cons.mpr ⟨hname rfl, htop⟩⟩, hthis, hsuper⟩
  | cons scope outer => exact ⟨⟨block, rfl, htop⟩, hthis, hsuper⟩

theorem length_declareIn (name : String) (Γ : List (List String)) :
    (declareIn name Γ).length = Γ.length := by
  cases Γ <;> rfl

theorem Around.after (h : Around top Γ Γ') {s : Stmt}
    (hs : Γ = [] → ∀ name, Watch.declared? s = some name → top name) :
    Around top (after Γ s) (after Γ' s) := by
  unfold Scope.after
  cases hdeclared : Watch.declared? s with
  | none => exact h
  | some name => exact h.declareIn fun hnil => hs hnil name hdeclared

theorem length_after (Γ : List (List String)) (s : Stmt) : (after Γ s).length = Γ.length := by
  unfold Scope.after
  cases Watch.declared? s with
  | none => rfl
  | some name => exact length_declareIn name Γ

variable {next id : Nat}

/-- What is recorded for a use that is addressed twice. -/
theorem Around.found (h : Around top Γ Γ') (hleads : (Known.mk R next).Leads Γ id name)
    (hleads' : (Known.mk R' next).Leads Γ' id name) (hnone : R'.find? id = none → ¬ top name) :
    Found R R' top Γ.length id name := by
  obtain ⟨⟨block, rfl, htop⟩, -, -⟩ := h
  have hknown : R.find? id = Γ.findIdx? (·.contains name) := hleads.found
  have hknown' : R'.find? id = (Γ ++ [block]).findIdx? (·.contains name) := hleads'.found
  rw [List.findIdx?_append] at hknown'
  cases hlevel : Γ.findIdx? (·.contains name) with
  | some hops =>
    rw [hlevel] at hknown hknown'
    obtain ⟨hlt, -, -⟩ := List.findIdx?_eq_some_iff_getElem.mp hlevel
    exact .inner hlt hknown hknown'
  | none =>
    rw [hlevel] at hknown hknown'
    rw [Option.none_or, List.findIdx?_cons] at hknown'
    by_cases hblock : block.contains name = true
    · rw [if_pos hblock, Option.map_some, Nat.zero_add] at hknown'
      exact .top (htop name (List.contains_iff_mem.mp hblock)) hknown hknown'
    · rw [if_neg hblock] at hknown'
      exact .global (hnone hknown') hknown hknown'

theorem named_same (p : Nat) (name : Ident) : (kinship R R' top).Named p name name := ⟨rfl, rfl⟩

theorem declares_same {depth : Nat} (name : Ident) (h : depth = 0 → top name.text) :
    (kinship R R' top).Declares depth name name := ⟨⟨rfl, h⟩, rfl⟩

theorem unclaimed_append {uses uses' : List Reference} :
    Unclaimed R' top (uses ++ uses') ↔ Unclaimed R' top uses ∧ Unclaimed R' top uses' :=
  List.forall_mem_append

theorem unclaimed_cons {use : Reference} {uses : List Reference} :
    Unclaimed R' top (use :: uses) ↔
      (R'.find? use.id = none → ¬ top use.name.text) ∧ Unclaimed R' top uses :=
  List.forall_mem_cons

theorem uses_found {target : Reference} (h : Around top Γ Γ')
    (hleads : (Known.mk R next).Leads Γ target.id target.name.text)
    (hleads' : (Known.mk R' next).Leads Γ' target.id target.name.text)
    (hnone : R'.find? target.id = none → ¬ top target.name.text) :
    (kinship R R' top).Uses Γ.length target target :=
  ⟨⟨rfl, rfl, h.found hleads hleads' hnone⟩, rfl⟩

mutual

theorem kin_expr : ∀ (e : Expr) {Γ Γ' : List (List String)}, Around top Γ Γ' → Plain.expr e →
    Addressed.expr ⟨R, next⟩ Γ e → Addressed.expr ⟨R', next⟩ Γ' e →
    Unclaimed R' top (Uses.expr e) → KinExpr (kinship R R' top) Γ.length e e
  | .literal .., _, _, _, _, _, _, _ => .literal rfl
  | .grouping inner _, _, _, h, hp, ha, ha', hu => .grouping (kin_expr inner h hp ha ha' hu) rfl
  | .unary _ _ operand, _, _, h, hp, ha, ha', hu => .unary rfl (kin_expr operand h hp ha ha' hu)
  | .binary left _ _ right, _, _, h, hp, ha, ha', hu => by
    obtain ⟨hleft, hright⟩ := unclaimed_append.mp hu
    exact .binary (kin_expr left h hp.1 ha.1 ha'.1 hleft) rfl
      (kin_expr right h hp.2 ha.2 ha'.2 hright)
  | .logical left _ _ right, _, _, h, hp, ha, ha', hu => by
    obtain ⟨hleft, hright⟩ := unclaimed_append.mp hu
    exact .logical (kin_expr left h hp.1 ha.1 ha'.1 hleft) rfl
      (kin_expr right h hp.2 ha.2 ha'.2 hright)
  | .var target, _, _, h, _, ha, ha', hu => .var (uses_found h ha ha' (unclaimed_cons.mp hu).1)
  | .assign target value, _, _, h, hp, ha, ha', hu => by
    obtain ⟨htarget, hvalue⟩ := unclaimed_cons.mp hu
    exact .assign (uses_found h ha.1 ha'.1 htarget) (kin_expr value h hp ha.2 ha'.2 hvalue)
  | .call callee _ arguments, _, _, h, hp, ha, ha', hu => by
    obtain ⟨hcallee, harguments⟩ := unclaimed_append.mp hu
    exact .call (kin_expr callee h hp.1 ha.1 ha'.1 hcallee) rfl
      (kin_exprs arguments h hp.2 ha.2 ha'.2 harguments)
  | .get object name, _, _, h, hp, ha, ha', hu =>
    .get (kin_expr object h hp ha ha' hu) (named_same _ name)
  | .set object name value, _, _, h, hp, ha, ha', hu => by
    obtain ⟨hobject, hvalue⟩ := unclaimed_append.mp hu
    exact .set (kin_expr object h hp.1 ha.1 ha'.1 hobject) (named_same _ name)
      (kin_expr value h hp.2 ha.2 ha'.2 hvalue)
  | .this .., _, _, h, _, ha, ha', _ => .this ⟨rfl, rfl, h.found ha ha' fun _ => h.this⟩ rfl
  | .super _ _ method, _, _, h, _, ha, ha', _ =>
    .super ⟨rfl, rfl, h.found ha ha' fun _ => h.super⟩ rfl (named_same _ method)
  | .lambda fn, _, _, h, hp, ha, ha', hu => .lambda (kin_function fn h hp ha ha' hu)

theorem kin_exprs : ∀ (es : List Expr) {Γ Γ' : List (List String)}, Around top Γ Γ' →
    Plain.exprs es → Addressed.exprs ⟨R, next⟩ Γ es → Addressed.exprs ⟨R', next⟩ Γ' es →
    Unclaimed R' top (Uses.exprs es) → KinExprs (kinship R R' top) Γ.length es es
  | [], _, _, _, _, _, _, _ => .nil
  | e :: es, _, _, h, hp, ha, ha', hu => by
    obtain ⟨hhead, htail⟩ := unclaimed_append.mp hu
    exact .cons (kin_expr e h hp.1 ha.1 ha'.1 hhead) (kin_exprs es h hp.2 ha.2 ha'.2 htail)

theorem kin_function : ∀ (fn : Lambda) {Γ Γ' : List (List String)}, Around top Γ Γ' →
    Plain.lambda fn → Addressed.function ⟨R, next⟩ Γ fn → Addressed.function ⟨R', next⟩ Γ' fn →
    Unclaimed R' top (Uses.lambda fn) → KinLambda (kinship R R' top) Γ.length fn fn
  | ⟨params, body, _⟩, Γ, _, h, hp, ha, ha', hu => by
    have hparams : List.Forall₂ ((kinship R R' top).Declares (Γ.length + 1)) params params :=
      List.forall₂_same.mpr fun name _ => declares_same name fun h => absurd h (Nat.succ_ne_zero _)
    have hbody := kin_stmts body (h.cons (params.map Ident.text)) hp ha ha' hu
      (fun hnil => absurd hnil (List.cons_ne_nil _ _))
    exact .mk (q := Γ.length + 1) rfl hparams hbody rfl

/-- Statements at the top declare names of the top. -/
theorem kin_stmt : ∀ (s : Stmt) {Γ Γ' : List (List String)}, Around top Γ Γ' →
    Plain.stmt s → Addressed.stmt ⟨R, next⟩ Γ s → Addressed.stmt ⟨R', next⟩ Γ' s →
    Unclaimed R' top (Uses.stmt s) →
    (Γ = [] → ∀ name, Watch.declared? s = some name → top name) →
    KinStmt (kinship R R' top) Γ.length s s
  | .expression value, _, _, h, hp, ha, ha', hu, _ => .expression (kin_expr value h hp ha ha' hu)
  | .print value, _, _, h, hp, ha, ha', hu, _ => .print (kin_expr value h hp ha ha' hu)
  | .var name none, _, _, _, _, _, _, _, hd =>
    .declaration (declares_same name fun h => hd (List.eq_nil_of_length_eq_zero h) _ rfl)
  | .var name (some value), Γ, _, h, hp, ha, ha', hu, hd => by
    have hname : Γ = [] → top name.text := fun hnil => hd hnil _ rfl
    have hvalue := kin_expr value (h.declareIn hname) hp ha ha' hu
    rw [length_declareIn] at hvalue
    exact .definition (declares_same name fun h => hname (List.eq_nil_of_length_eq_zero h)) hvalue
  | .block body, Γ, _, h, hp, ha, ha', hu, _ =>
    .block (q := Γ.length + 1) rfl (kin_stmts body (h.cons []) hp ha ha' hu
      fun hnil => absurd hnil (List.cons_ne_nil _ _))
  | .ifElse condition thenBranch none, _, _, h, hp, ha, ha', hu, _ => by
    obtain ⟨hcondition, hthen⟩ := unclaimed_append.mp hu
    obtain ⟨hp, hplain, hpthen⟩ := hp
    exact .ifThen (kin_expr condition h hp ha.1 ha'.1 hcondition)
      (kin_stmt thenBranch h hpthen ha.2 ha'.2 hthen fun _ _ hs => by cases hplain.symm.trans hs)
  | .ifElse condition thenBranch (some elseBranch), _, _, h, hp, ha, ha', hu, _ => by
    obtain ⟨hcondition, hbranches⟩ := unclaimed_append.mp hu
    obtain ⟨hthen, helse⟩ := unclaimed_append.mp hbranches
    obtain ⟨hp, ⟨hplain, hpthen⟩, hplain', hpelse⟩ := hp
    exact .ifElse (kin_expr condition h hp ha.1 ha'.1 hcondition)
      (kin_stmt thenBranch h hpthen ha.2.1 ha'.2.1 hthen fun _ _ hs => by
        cases hplain.symm.trans hs)
      (kin_stmt elseBranch h hpelse ha.2.2 ha'.2.2 helse fun _ _ hs => by
        cases hplain'.symm.trans hs)
  | .while_ condition body, _, _, h, hp, ha, ha', hu, _ => by
    obtain ⟨hcondition, hbody⟩ := unclaimed_append.mp hu
    obtain ⟨hp, hplain, hpbody⟩ := hp
    exact .while_ (kin_expr condition h hp ha.1 ha'.1 hcondition)
      (kin_stmt body h hpbody ha.2 ha'.2 hbody fun _ _ hs => by cases hplain.symm.trans hs)
  | .break_ _, _, _, _, _, _, _, _, _ => .break_ rfl
  | .return_ _ none, _, _, _, _, _, _, _, _ => .returnNil rfl
  | .return_ _ (some value), _, _, h, hp, ha, ha', hu, _ =>
    .return_ rfl (kin_expr value h hp ha ha' hu)
  | .function name fn, Γ, _, h, hp, ha, ha', hu, hd => by
    have hname : Γ = [] → top name.text := fun hnil => hd hnil _ rfl
    have hfn := kin_function fn (h.declareIn hname) hp ha ha' hu
    rw [length_declareIn] at hfn
    exact .function (declares_same name fun h => hname (List.eq_nil_of_length_eq_zero h)) rfl hfn
  | .class_ name none declared, Γ, _, h, hp, ha, ha', hu, hd => by
    have hname : Γ = [] → top name.text := fun hnil => hd hnil _ rfl
    have hmethods := kin_methods declared (h.declareIn hname) ["this"] hp ha ha' hu
    rw [length_declareIn] at hmethods
    exact .class_ (declares_same name fun h => hname (List.eq_nil_of_length_eq_zero h)) rfl hmethods
  | .class_ name (some parent) declared, Γ, _, h, hp, ha, ha', hu, hd => by
    have hname : Γ = [] → top name.text := fun hnil => hd hnil _ rfl
    obtain ⟨hparent, hdeclared⟩ := unclaimed_cons.mp hu
    have huse := uses_found (h.declareIn hname) ha.1.1 ha'.1.1 hparent
    have hmethods := kin_methods declared ((h.declareIn hname).cons ["super"]) ["this"] hp ha.2
      ha'.2 hdeclared
    rw [List.length_cons, length_declareIn] at hmethods
    rw [length_declareIn] at huse
    exact .subclass (q := Γ.length + 1) (declares_same name fun h =>
      hname (List.eq_nil_of_length_eq_zero h)) rfl huse rfl hmethods

theorem kin_stmts : ∀ (ss : List Stmt) {Γ Γ' : List (List String)}, Around top Γ Γ' →
    Plain.stmts ss → Addressed.stmts ⟨R, next⟩ Γ ss → Addressed.stmts ⟨R', next⟩ Γ' ss →
    Unclaimed R' top (Uses.stmts ss) → (Γ = [] → ∀ name ∈ topNames ss, top name) →
    KinStmts (kinship R R' top) Γ.length ss ss
  | [], _, _, _, _, _, _, _, _ => .nil
  | s :: ss, Γ, _, h, hp, ha, ha', hu, hd => by
    obtain ⟨hhead, htail⟩ := unclaimed_append.mp hu
    have hs : Γ = [] → ∀ name, Watch.declared? s = some name → top name := fun hnil name hname =>
      hd hnil name (List.mem_filterMap.mpr ⟨s, List.mem_cons_self, hname⟩)
    have hrest : after Γ s = [] → ∀ name ∈ topNames ss, top name := by
      intro hnil name hname
      obtain ⟨t, ht, hname⟩ := List.mem_filterMap.mp hname
      have hΓ : Γ = [] := by
        rw [← List.length_eq_zero_iff, ← length_after Γ s, hnil]
        rfl
      exact hd hΓ name (List.mem_filterMap.mpr ⟨t, List.mem_cons_of_mem s ht, hname⟩)
    have hstmts := kin_stmts ss (h.after hs) hp.2 ha.2 ha'.2 htail hrest
    rw [length_after] at hstmts
    exact .cons (kin_stmt s h hp.1 ha.1 ha'.1 hhead hs) hstmts

/-- The methods of a class, in the scope of their instance. -/
theorem kin_methods : ∀ (ms : List Method) {Γ Γ' : List (List String)}, Around top Γ Γ' →
    ∀ (names : List String), Plain.methods ms →
    Addressed.methods ⟨R, next⟩ (names :: Γ) ms → Addressed.methods ⟨R', next⟩ (names :: Γ') ms →
    Unclaimed R' top (Uses.methods ms) → KinMethods (kinship R R' top) Γ.length ms ms
  | [], _, _, _, _, _, _, _, _ => .nil
  | ⟨name, fn⟩ :: ms, Γ, _, h, names, hp, ha, ha', hu => by
    obtain ⟨hhead, htail⟩ := unclaimed_append.mp hu
    have hfn := kin_function fn (h.cons names) hp.1 ha.1 ha'.1 hhead
    exact .cons (q := Γ.length + 1) (named_same _ name) rfl hfn
      (kin_methods ms h names hp.2 ha.2 ha'.2 htail)

end

end Lox.Blocks
