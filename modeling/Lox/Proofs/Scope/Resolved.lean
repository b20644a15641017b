import Mathlib.Data.List.Forall2
import Lox.Proofs.Grammar.Plain
import Lox.Proofs.Scope.Addressed
import Lox.Proofs.Scope.Records
import Lox.Proofs.Scope.Walk

/-! # What a walk without errors records

A walk that finds no error addresses every use in its tree. Each node is walked
once, with the scopes that lie around it, so that what is found for its number in
the end is what was found then. -/

namespace Lox.Scope

/-! ## The part that a tree has in a walk -/

/-- In a whole walk that found `all`, the part over a tree with these numbers has led from
the findings `before` to the findings `found` and the errors `errors`. Its numbers are new, no
error has been found, and nothing more is found about its numbers later. -/
structure Pass (R : Resolutions) (all : Array (Nat × Nat)) (next : Nat) (ids : List Nat)
    (before found : Array (Nat × Nat)) (errors : Array Diagnostic) : Prop where
  nodup : ids.Nodup
  new : ∀ id ∈ ids, id < next ∧ R.find? id = none
  fresh : ∀ id ∈ ids, ∀ hops, (id, hops) ∉ before
  final : ∀ id ∈ ids, ∀ hops, (id, hops) ∈ all ↔ (id, hops) ∈ found
  clean : errors.size = 0

variable {R : Resolutions} {all : Array (Nat × Nat)} {next : Nat} {ids ids' : List Nat}
  {w w' w'' : Walk}

theorem Pass.split (h : Pass R all next (ids ++ ids') w.found w''.found w''.errors)
    (hfirst : Walked ids w w') (hrest : Walked ids' w' w'') :
    Pass R all next ids w.found w'.found w'.errors ∧
      Pass R all next ids' w'.found w''.found w''.errors := by
  obtain ⟨hnodup, hnodup', hdisjoint⟩ := List.nodup_append.mp h.nodup
  have hleft : ∀ id ∈ ids, id ∈ ids ++ ids' := fun _ hid => List.mem_append_left _ hid
  have hright : ∀ id ∈ ids', id ∈ ids ++ ids' := fun _ hid => List.mem_append_right _ hid
  constructor
  · refine ⟨hnodup, fun id hid => h.new id (hleft id hid),
      fun id hid => h.fresh id (hleft id hid), fun id hid hops => ?_, ?_⟩
    · rw [h.final id (hleft id hid) hops]
      constructor
      · intro hmem
        rcases hrest.new _ hmem with hmem | hmem
        · exact hmem
        · exact absurd rfl (hdisjoint id hid id hmem)
      · exact hrest.kept _
    · have herrors := hrest.errors
      have hclean := h.clean
      omega
  · refine ⟨hnodup', fun id hid => h.new id (hright id hid), fun id hid hops hmem => ?_,
      fun id hid => h.final id (hright id hid), h.clean⟩
    rcases hfirst.new _ hmem with hmem | hmem
    · exact h.fresh id (hright id hid) hops hmem
    · exact absurd rfl (hdisjoint id hmem id hid)

theorem Pass.perm {before found : Array (Nat × Nat)} {errors : Array Diagnostic}
    (h : Pass R all next ids before found errors) (hperm : ids.Perm ids') :
    Pass R all next ids' before found errors where
  nodup := hperm.nodup_iff.mp h.nodup
  new id hid := h.new id (hperm.mem_iff.mpr hid)
  fresh id hid := h.fresh id (hperm.mem_iff.mpr hid)
  final id hid := h.final id (hperm.mem_iff.mpr hid)
  clean := h.clean

theorem Pass.of_eq {before found : Array (Nat × Nat)} {errors : Array Diagnostic}
    (h : Pass R all next ids before found errors) (heq : ids = ids') :
    Pass R all next ids' before found errors := heq ▸ h

theorem Pass.after (h : Pass R all next ids w.found w''.found w''.errors)
    (hfirst : Walked [] w w') (hrest : Walked ids w' w'') :
    Pass R all next ids w'.found w''.found w''.errors :=
  (h.of_eq (List.nil_append ids).symm |>.split hfirst hrest).2

theorem Pass.until (h : Pass R all next ids w.found w''.found w''.errors)
    (hfirst : Walked ids w w') (hrest : Walked [] w' w'') :
    Pass R all next ids w.found w'.found w'.errors :=
  ((h.of_eq (List.append_nil ids).symm).split hfirst hrest).1

/-! ## The scopes of a walk -/

/-- The scopes of a walk have these names. -/
def Matches (w : Walk) (Γ : List (List String)) : Prop :=
  List.Forall₂ (fun (scope : Names) names => ∀ name, scope.contains name = names.contains name)
    w.scopes Γ

variable {Γ : List (List String)} {names : List String}

theorem Matches.of_scopes (h : Matches w Γ) (heq : w'.scopes = w.scopes) : Matches w' Γ := by
  unfold Matches
  rw [heq]
  exact h

theorem Matches.distance (h : Matches w Γ) (name : String) : w.distance? name = level Γ name := by
  unfold Walk.distance? level
  unfold Matches at h
  generalize w.scopes = scopes at h ⊢
  induction h with
  | nil => rfl
  | cons hscope _ ih => rw [List.findIdx?_cons, List.findIdx?_cons, hscope name, ih]

theorem contains_insert (scope : Names) (name other : String) (value : Bool) :
    (scope.insert name value).contains other = (other == name || scope.contains other) := by
  unfold Bindings.contains
  rw [Bindings.get?_insert]
  by_cases h : name = other
  · simp [h]
  · simp [h, Ne.symm h]

theorem matches_start : Matches .start [] := .nil

theorem Matches.openScope (h : Matches w Γ) : Matches w.openScope ([] :: Γ) :=
  .cons (fun _ => rfl) h

theorem Matches.define (h : Matches w Γ) (name : String) :
    Matches (w.define name) (declareIn name Γ) := by
  unfold Matches Walk.define declareIn at *
  cases hscopes : w.scopes with
  | nil =>
    rw [hscopes] at h
    cases h
    rw [hscopes]
    exact .nil
  | cons scope outer =>
    rw [hscopes] at h
    obtain _ | ⟨hscope, houter⟩ := h
    refine .cons (fun other => ?_) houter
    rw [contains_insert, List.contains_cons, hscope]

theorem Matches.declare (h : Matches w Γ) (name : Ident) :
    Matches (w.declare name) (declareIn name.text Γ) := by
  unfold Matches Walk.declare declareIn at *
  cases hscopes : w.scopes with
  | nil =>
    rw [hscopes] at h
    cases h
    rw [hscopes]
    exact .nil
  | cons scope outer =>
    rw [hscopes] at h
    obtain _ | ⟨hscope, houter⟩ := h
    dsimp only
    split
    · next hdeclared =>
      show List.Forall₂ _ w.scopes _
      rw [hscopes]
      refine .cons (fun other => ?_) houter
      rw [List.contains_cons, ← hscope]
      by_cases hother : other = name.text
      · rw [hother, hdeclared, Bool.or_true]
      · rw [beq_false_of_ne hother, Bool.false_or]
    · refine .cons (fun other => ?_) houter
      rw [contains_insert, List.contains_cons, hscope]

theorem Matches.congr_head {names names' : List String} (h : Matches w (names :: Γ))
    (heq : ∀ name, names.contains name = names'.contains name) : Matches w (names' :: Γ) := by
  unfold Matches at *
  generalize w.scopes = scopes at h ⊢
  obtain _ | ⟨hscope, houter⟩ := h
  exact .cons (fun name => (hscope name).trans (heq name)) houter

/-- Declaring a name that the innermost scope has already changes nothing. -/
theorem Matches.define_again {name : String} (h : Matches w (declareIn name Γ)) :
    Matches (w.define name) (declareIn name Γ) := by
  have hagain := h.define name
  cases Γ with
  | nil => exact hagain
  | cons names outer =>
    refine hagain.congr_head fun other => ?_
    simp only [List.contains_cons, ← Bool.or_assoc, Bool.or_self]

theorem Matches.introduce (h : Matches w Γ) (name : Ident) :
    Matches (w.introduce name) (declareIn name.text Γ) :=
  (h.declare name).define_again

theorem Matches.params (params : List Ident) (h : Matches w (names :: Γ)) :
    Matches (params.foldl Walk.introduce w) ((params.map Ident.text ++ names) :: Γ) := by
  induction params generalizing w names with
  | nil => exact h
  | cons name params ih =>
    refine (ih (h.introduce name)).congr_head fun other => ?_
    simp only [List.map_cons, List.cons_append, List.contains_cons, List.contains_append,
      ← Bool.or_assoc, Bool.or_comm]

/-- A statement that declares nothing leaves the scopes as they were. -/
theorem scopes_stmt : ∀ (s : Stmt) (w : Walk), Plain.stmt s → Watch.declared? s = none →
    (stmt s w).scopes = w.scopes
  | .expression value, w, _, _ => (looked_expr value w).scopes
  | .print value, w, _, _ => (looked_expr value w).scopes
  | .var _ _, _, _, h => nomatch h
  | .block body, _, _, _ => (walked_stmts body _).closeScope.scopes
  | .ifElse condition thenBranch none, w, hplain, _ => by
    rw [stmt, scopes_stmt thenBranch _ hplain.2.2 hplain.2.1, (looked_expr condition w).scopes]
  | .ifElse condition thenBranch (some elseBranch), w, hplain, _ => by
    rw [stmt, scopes_stmt elseBranch _ hplain.2.2.2 hplain.2.2.1,
      scopes_stmt thenBranch _ hplain.2.1.2 hplain.2.1.1, (looked_expr condition w).scopes]
  | .while_ condition body, w, hplain, _ => by
    rw [stmt, scopes_stmt body _ hplain.2.2 hplain.2.1, (looked_expr condition w).scopes]
  | .break_ _, _, _, _ => rfl
  | .return_ keyword none, _, _, _ => (looked_checkReturn keyword).scopes
  | .return_ keyword (some value), _, _, _ => by
    rw [stmt, (looked_expr value _).scopes, (looked_checkReturnValue keyword).scopes,
      (looked_checkReturn keyword).scopes]
  | .function _ _, _, _, h => nomatch h
  | .class_ _ _ _, _, _, h => nomatch h

/-- The scopes in which the methods of a class without a superclass are walked. -/
def inClass (w : Walk) (name : Ident) : Walk :=
  ({ w with class_ := .plain }.introduce name).openScope.define "this"

/-- The walk in which the superclass of a class is found. -/
def beforeParent (w : Walk) (name parent : Ident) : Walk :=
  (({ w with class_ := .subclass }.introduce name).checkInheritance name parent).checkRead parent

/-- The scopes in which the methods of a class with a superclass are walked. -/
def inSubclass (w : Walk) (name : Ident) (parent : Reference) : Walk :=
  ((((beforeParent w name parent.name).use parent.id parent.name.text).openScope.define
    "super").openScope.define "this")

theorem walked_inClass (w : Walk) (name : Ident) (declared : List Method) :
    Looked (Nodes.methods [] declared) ({ w with class_ := .plain }.introduce name)
      (methods declared (inClass w name)).closeScope :=
  ((walked_define "this").trans (walked_methods declared _)).closeScope

theorem walked_inSubclass (w : Walk) (name : Ident) (parent : Reference)
    (declared : List Method) :
    Looked (Nodes.methods [] declared)
      ((beforeParent w name parent.name).use parent.id parent.name.text)
      (methods declared (inSubclass w name parent)).closeScope.closeScope := by
  have hmethods := ((walked_define "this").trans (walked_methods declared _)).closeScope
    (w := (((beforeParent w name parent.name).use parent.id parent.name.text).openScope.define
      "super"))
  exact ((walked_define "super").trans hmethods.toWalked).closeScope

theorem looked_beforeParent (w : Walk) (name parent : Ident) :
    Looked [] ({ w with class_ := .subclass }.introduce name) (beforeParent w name parent) :=
  (looked_checkInheritance name parent).trans (looked_checkRead parent)

theorem Matches.after (h : Matches w Γ) {s : Stmt} (hplain : Plain.stmt s) :
    Matches (stmt s w) (after Γ s) := by
  cases hdeclared : Watch.declared? s with
  | none =>
    unfold Scope.after
    rw [hdeclared]
    exact h.of_scopes (scopes_stmt s w hplain hdeclared)
  | some _ =>
    cases s with
    | var name initializer =>
      cases initializer with
      | none => exact h.introduce name
      | some value =>
        have hvalue := (h.declare name).of_scopes (looked_expr value _).scopes
        exact hvalue.define_again
    | function name fn => exact (h.introduce name).of_scopes (looked_function .function fn _).scopes
    | class_ name superclass declared =>
      cases superclass with
      | none =>
        have hname : Matches ({ w with class_ := .plain }.introduce name) (declareIn name.text Γ) :=
          Matches.introduce (w := { w with class_ := .plain }) h name
        exact hname.of_scopes (walked_inClass w name declared).scopes
      | some parent =>
        have hname : Matches ({ w with class_ := .subclass }.introduce name)
          (declareIn name.text Γ) := Matches.introduce (w := { w with class_ := .subclass }) h name
        refine hname.of_scopes ((walked_inSubclass w name parent declared).scopes.trans ?_)
        exact (looked_use _ _).scopes.trans (looked_beforeParent w name parent.name).scopes
    | _ => cases hdeclared

/-! ## Uses -/

/-- What a walk finds for a use is what is recorded in the end. -/
theorem leads_use {id : Nat} {name : String} (hm : Matches w Γ)
    (h : Pass R all next [id] w.found (w.use id name).found (w.use id name).errors) :
    (Known.mk (R.recordAll all) next).Leads Γ id name := by
  have hid := List.mem_singleton_self id
  have hfresh := h.fresh id hid
  have hfinal := h.final id hid
  refine ⟨(h.new id hid).1, ?_⟩
  show (R.recordAll all).find? id = level Γ name
  rw [← hm.distance name]
  unfold Walk.use at hfinal
  cases hdistance : w.distance? name with
  | none =>
    rw [hdistance] at hfinal
    rw [Resolutions.find?_recordAll_of_absent, (h.new id hid).2]
    intro entry hentry hkey
    obtain ⟨key, hops⟩ := entry
    subst hkey
    exact hfresh hops ((hfinal hops).mp hentry)
  | some hops =>
    rw [hdistance] at hfinal
    refine Resolutions.find?_recordAll_of_only fun other => ?_
    rw [hfinal other, Array.mem_push]
    constructor
    · intro hmem
      rcases hmem with hmem | heq
      · exact absurd hmem (hfresh other)
      · exact congrArg Prod.snd heq
    · intro heq
      exact .inr (by rw [heq])

theorem size_note (w : Walk) (error : ScopeError) (span : Span) :
    (w.note error span).errors.size ≠ 0 := by
  simp [Walk.note]

mutual

theorem addressed_expr : ∀ (e : Expr) {w : Walk} {Γ : List (List String)}, Plain.expr e →
    Matches w Γ → Pass R all next (Nodes.expr [] e) w.found (expr e w).found (expr e w).errors →
      Addressed.expr ⟨R.recordAll all, next⟩ Γ e
  | .literal .., _, _, _, _, _ => trivial
  | .grouping inner _, _, _, hplain, hm, h => addressed_expr inner hplain hm h
  | .unary _ _ operand, _, _, hplain, hm, h => addressed_expr operand hplain hm h
  | .binary left _ _ right, w, _, hplain, hm, h => by
    obtain ⟨hleft, hright⟩ := (h.of_eq (Nodes.expr_append left _)).split
      (looked_expr left w).toWalked (looked_expr right _).toWalked
    exact ⟨addressed_expr left hplain.1 hm hleft,
      addressed_expr right hplain.2 (hm.of_scopes (looked_expr left w).scopes) hright⟩
  | .logical left _ _ right, w, _, hplain, hm, h => by
    obtain ⟨hleft, hright⟩ := (h.of_eq (Nodes.expr_append left _)).split
      (looked_expr left w).toWalked (looked_expr right _).toWalked
    exact ⟨addressed_expr left hplain.1 hm hleft,
      addressed_expr right hplain.2 (hm.of_scopes (looked_expr left w).scopes) hright⟩
  | .var target, w, _, _, hm, h => by
    have hread := looked_checkRead (w := w) target.name
    exact leads_use (hm.of_scopes hread.scopes) (h.after hread.toWalked (looked_use _ _).toWalked)
  | .assign target value, w, _, hplain, hm, h => by
    obtain ⟨hvalue, huse⟩ := (h.perm (List.perm_append_singleton _ _).symm).split
      (looked_expr value w).toWalked (looked_use _ _).toWalked
    exact ⟨leads_use (hm.of_scopes (looked_expr value w).scopes) huse,
      addressed_expr value hplain hm hvalue⟩
  | .call callee _ arguments, w, _, hplain, hm, h => by
    obtain ⟨hcallee, harguments⟩ := (h.of_eq (Nodes.expr_append callee _)).split
      (looked_expr callee w).toWalked (looked_exprs arguments _).toWalked
    exact ⟨addressed_expr callee hplain.1 hm hcallee,
      addressed_exprs arguments hplain.2 (hm.of_scopes (looked_expr callee w).scopes) harguments⟩
  | .get object _, _, _, hplain, hm, h => addressed_expr object hplain hm h
  | .set object _ value, w, _, hplain, hm, h => by
    have hperm := h.of_eq (Nodes.expr_append object (Nodes.expr [] value))
    obtain ⟨hvalue, hobject⟩ := (hperm.perm List.perm_append_comm).split
      (looked_expr value w).toWalked (looked_expr object _).toWalked
    exact ⟨addressed_expr object hplain.1 (hm.of_scopes (looked_expr value w).scopes) hobject,
      addressed_expr value hplain.2 hm hvalue⟩
  | .this id span, w, _, _, hm, h => by
    rw [expr] at h
    by_cases hclass : w.class_ = .none
    · rw [if_pos hclass] at h
      exact absurd h.clean (size_note _ _ _)
    · rw [if_neg hclass] at h
      exact leads_use hm h
  | .super id keyword _, w, _, _, hm, h => by
    have hcheck := looked_checkSuper (w := w) keyword
    exact leads_use (hm.of_scopes hcheck.scopes)
      (h.after hcheck.toWalked (looked_use _ _).toWalked)
  | .lambda fn, _, _, hplain, hm, h => addressed_function .function fn hplain hm h

theorem addressed_exprs : ∀ (es : List Expr) {w : Walk} {Γ : List (List String)},
    Plain.exprs es → Matches w Γ →
    Pass R all next (Nodes.exprs [] es) w.found (exprs es w).found (exprs es w).errors →
      Addressed.exprs ⟨R.recordAll all, next⟩ Γ es
  | [], _, _, _, _, _ => trivial
  | e :: es, w, _, hplain, hm, h => by
    obtain ⟨hfirst, hrest⟩ := (h.of_eq (Nodes.expr_append e _)).split
      (looked_expr e w).toWalked (looked_exprs es _).toWalked
    exact ⟨addressed_expr e hplain.1 hm hfirst,
      addressed_exprs es hplain.2 (hm.of_scopes (looked_expr e w).scopes) hrest⟩

theorem addressed_function (kind : FunctionKind) : ∀ (fn : Lambda) {w : Walk}
    {Γ : List (List String)}, Plain.lambda fn → Matches w Γ →
    Pass R all next (Nodes.lambda [] fn) w.found (function kind fn w).found
      (function kind fn w).errors →
      Addressed.function ⟨R.recordAll all, next⟩ Γ fn
  | ⟨params, body, _⟩, w, _, hplain, hm, h => by
    have hopen : Matches { w with function := kind }.openScope ([] :: _) := Matches.openScope hm
    have hinside := hopen.params params
    rw [List.append_nil] at hinside
    have hbody := Pass.after (w := { w with function := kind }.openScope) h
      (walked_params params) (walked_stmts body _)
    exact addressed_stmts body hplain hinside hbody

theorem addressed_stmt : ∀ (s : Stmt) {w : Walk} {Γ : List (List String)}, Plain.stmt s →
    Matches w Γ → Pass R all next (Nodes.stmt [] s) w.found (stmt s w).found (stmt s w).errors →
      Addressed.stmt ⟨R.recordAll all, next⟩ Γ s
  | .expression value, _, _, hplain, hm, h => addressed_expr value hplain hm h
  | .print value, _, _, hplain, hm, h => addressed_expr value hplain hm h
  | .var _ none, _, _, _, _, _ => trivial
  | .var name (some value), w, _, hplain, hm, h => by
    have hvalue := (looked_expr value (w.declare name)).toWalked
    have hrest := (hvalue.trans (walked_define name.text)).of_eq (List.append_nil _).symm
    exact addressed_expr value hplain (hm.declare name)
      ((h.after (walked_declare name) hrest).until hvalue (walked_define name.text))
  | .block body, w, _, hplain, hm, h => addressed_stmts body hplain hm.openScope h
  | .ifElse condition thenBranch none, w, _, hplain, hm, h => by
    obtain ⟨hcondition, hthen⟩ := (h.of_eq (Nodes.expr_append condition _)).split
      (looked_expr condition w).toWalked (walked_stmt thenBranch _)
    exact ⟨addressed_expr condition hplain.1 hm hcondition, addressed_stmt thenBranch hplain.2.2
      (hm.of_scopes (looked_expr condition w).scopes) hthen⟩
  | .ifElse condition thenBranch (some elseBranch), w, _, hplain, hm, h => by
    have hids : Nodes.stmt [] (.ifElse condition thenBranch (some elseBranch)) =
        Nodes.expr [] condition ++ (Nodes.stmt [] thenBranch ++ Nodes.stmt [] elseBranch) := by
      rw [Nodes.stmt, Nodes.stmt_append thenBranch, Nodes.expr_append condition]
    have hwalked := (walked_stmt thenBranch (expr condition w)).trans (walked_stmt elseBranch _)
    obtain ⟨hcondition, hbranches⟩ := (h.of_eq hids).split (looked_expr condition w).toWalked
      hwalked
    obtain ⟨hthen, helse⟩ := hbranches.split (walked_stmt thenBranch _) (walked_stmt elseBranch _)
    have hm' := hm.of_scopes (looked_expr condition w).scopes
    have hm'' := hm'.of_scopes (scopes_stmt thenBranch _ hplain.2.1.2 hplain.2.1.1)
    exact ⟨addressed_expr condition hplain.1 hm hcondition,
      addressed_stmt thenBranch hplain.2.1.2 hm' hthen,
      addressed_stmt elseBranch hplain.2.2.2 hm'' helse⟩
  | .while_ condition body, w, _, hplain, hm, h => by
    obtain ⟨hcondition, hbody⟩ := (h.of_eq (Nodes.expr_append condition _)).split
      (looked_expr condition w).toWalked (walked_stmt body _)
    exact ⟨addressed_expr condition hplain.1 hm hcondition, addressed_stmt body hplain.2.2
      (hm.of_scopes (looked_expr condition w).scopes) hbody⟩
  | .break_ _, _, _, _, _, _ => trivial
  | .return_ _ none, _, _, _, _, _ => trivial
  | .return_ keyword (some value), w, _, hplain, hm, h => by
    have hchecks := (looked_checkReturn (w := w) keyword).trans (looked_checkReturnValue keyword)
    exact addressed_expr value hplain (hm.of_scopes hchecks.scopes)
      (h.after hchecks.toWalked (looked_expr value _).toWalked)
  | .function name fn, w, _, hplain, hm, h =>
    addressed_function .function fn hplain (hm.introduce name)
      (h.after (walked_introduce name) (looked_function .function fn _).toWalked)
  | .class_ name none declared, w, Γ, hplain, hm, h => by
    have hname : Matches ({ w with class_ := .plain }.introduce name) (declareIn name.text Γ) :=
      Matches.introduce (w := { w with class_ := .plain }) hm name
    have hall : Pass R all next (Nodes.methods [] declared) w.found
      (methods declared (inClass w name)).closeScope.found
      (methods declared (inClass w name)).closeScope.errors := h
    have hbefore := Pass.after (w := { w with class_ := .plain }) hall (walked_introduce name)
      (walked_inClass w name declared).toWalked
    have hinside : Pass R all next (Nodes.methods [] declared)
      ({ w with class_ := .plain }.introduce name).openScope.found
      (methods declared (inClass w name)).found (methods declared (inClass w name)).errors := hbefore
    exact addressed_methods declared hplain (hname.openScope.define "this")
      (hinside.after (walked_define "this") (walked_methods declared _))
  | .class_ name (some parent) declared, w, Γ, hplain, hm, h => by
    have hname : Matches ({ w with class_ := .subclass }.introduce name) (declareIn name.text Γ) :=
      Matches.introduce (w := { w with class_ := .subclass }) hm name
    have hread := looked_beforeParent w name parent.name
    have huse := looked_use (w := beforeParent w name parent.name) parent.id parent.name.text
    have hmethods := walked_inSubclass w name parent declared
    have hall : Pass R all next ([parent.id] ++ Nodes.methods [] declared) w.found
      (methods declared (inSubclass w name parent)).closeScope.closeScope.found
      (methods declared (inSubclass w name parent)).closeScope.closeScope.errors := h
    have hnamed := Pass.after (w := { w with class_ := .subclass }) hall (walked_introduce name)
      (hread.trans (huse.trans hmethods)).toWalked
    obtain ⟨hparent, hrest⟩ := (hnamed.after hread.toWalked (huse.trans hmethods).toWalked).split
      huse.toWalked hmethods.toWalked
    have hm' := hname.of_scopes hread.scopes
    refine ⟨⟨leads_use hm' hparent, fun heq => ?_⟩, addressed_methods declared hplain
      ((Matches.openScope ((hm'.of_scopes huse.scopes).openScope.define "super")).define "this") ?_⟩
    · -- a class that inherits from itself has been reported, and nothing takes errors back
      have herrors := (((looked_checkRead parent.name).trans huse).trans hmethods).errors
      have hclean := hall.clean
      unfold Walk.checkInheritance at herrors
      rw [if_pos heq] at herrors
      have hnote := size_note ({ w with class_ := .subclass }.introduce name) .inheritsFromItself
        parent.name.span
      omega
    · have hclosed := ((walked_define "this").trans (walked_methods declared _)).closeScope
        (w := ((beforeParent w name parent.name).use parent.id parent.name.text).openScope.define
          "super")
      have hsuper : Pass R all next (Nodes.methods [] declared)
        ((beforeParent w name parent.name).use parent.id parent.name.text).openScope.found
        (methods declared (inSubclass w name parent)).closeScope.found
        (methods declared (inSubclass w name parent)).closeScope.errors := hrest
      have houter := hsuper.after (walked_define "super") hclosed.toWalked
      have hthis : Pass R all next (Nodes.methods [] declared)
        (((beforeParent w name parent.name).use parent.id parent.name.text).openScope.define
          "super").openScope.found
        (methods declared (inSubclass w name parent)).found
        (methods declared (inSubclass w name parent)).errors := houter
      exact hthis.after (walked_define "this") (walked_methods declared _)

theorem addressed_stmts : ∀ (ss : List Stmt) {w : Walk} {Γ : List (List String)},
    Plain.stmts ss → Matches w Γ →
    Pass R all next (Nodes.stmts [] ss) w.found (stmts ss w).found (stmts ss w).errors →
      Addressed.stmts ⟨R.recordAll all, next⟩ Γ ss
  | [], _, _, _, _, _ => trivial
  | s :: ss, w, _, hplain, hm, h => by
    obtain ⟨hfirst, hrest⟩ := (h.of_eq (Nodes.stmt_append s _)).split (walked_stmt s w)
      (walked_stmts ss _)
    exact ⟨addressed_stmt s hplain.1 hm hfirst,
      addressed_stmts ss hplain.2 (hm.after hplain.1) hrest⟩

theorem addressed_methods : ∀ (ms : List Method) {w : Walk} {Γ : List (List String)},
    Plain.methods ms → Matches w Γ →
    Pass R all next (Nodes.methods [] ms) w.found (methods ms w).found (methods ms w).errors →
      Addressed.methods ⟨R.recordAll all, next⟩ Γ ms
  | [], _, _, _, _, _ => trivial
  | ⟨name, fn⟩ :: ms, w, _, hplain, hm, h => by
    have hfunction := looked_function (methodKind name.text) fn w
    obtain ⟨hfirst, hrest⟩ := (h.of_eq (Nodes.lambda_append fn _)).split hfunction.toWalked
      (walked_methods ms _)
    exact ⟨addressed_function _ fn hplain.1 hm hfirst,
      addressed_methods ms hplain.2 (hm.of_scopes hfunction.scopes) hrest⟩

end

/-! ## Whole texts -/

theorem pass_start {w : Walk} (hnodup : ids.Nodup)
    (hnew : ∀ id ∈ ids, id < next ∧ R.find? id = none) (hclean : w.errors = #[]) :
    Pass R w.found next ids Walk.start.found w.found w.errors where
  nodup := hnodup
  new := hnew
  fresh _ _ _ hmem := absurd hmem (Array.not_mem_empty _)
  final _ _ _ := Iff.rfl
  clean := by rw [hclean]; rfl

/-- A program in which a walk finds no error is addressed by what it records. -/
theorem addressed_program {ss : List Stmt} (hplain : Plain.stmts ss)
    (hnodup : (Nodes.stmts [] ss).Nodup)
    (hnew : ∀ id ∈ Nodes.stmts [] ss, id < next ∧ R.find? id = none)
    (hclean : (program ss).errors = #[]) :
    Addressed.stmts ⟨R.recordAll (program ss).found, next⟩ [] ss :=
  addressed_stmts ss hplain matches_start (pass_start hnodup hnew hclean)

theorem addressed_wholeExpression {e : Expr} (hplain : Plain.expr e)
    (hnodup : (Nodes.expr [] e).Nodup)
    (hnew : ∀ id ∈ Nodes.expr [] e, id < next ∧ R.find? id = none)
    (hclean : (wholeExpression e).errors = #[]) :
    Addressed.expr ⟨R.recordAll (wholeExpression e).found, next⟩ [] e :=
  addressed_expr e hplain matches_start (pass_start hnodup hnew hclean)

end Lox.Scope
