import Lox.Proofs.Syntax.Nodes
import Lox.Machine.Basic

/-! # Other numbers for the nodes of a tree

Nodes are told apart by their numbers, and nothing else depends on which numbers
they are. A tree in which `ρ` has replaced every number is the same tree with
other numbers. -/

namespace Lox.Renumber

/-- A use of a name under another number. -/
def reference (ρ : Nat → Nat) (target : Reference) : Reference := ⟨ρ target.id, target.name⟩

mutual

def expr (ρ : Nat → Nat) : Expr → Expr
  | .literal value span => .literal value span
  | .grouping inner span => .grouping (expr ρ inner) span
  | .unary op opSpan operand => .unary op opSpan (expr ρ operand)
  | .binary left op opSpan right => .binary (expr ρ left) op opSpan (expr ρ right)
  | .logical left op opSpan right => .logical (expr ρ left) op opSpan (expr ρ right)
  | .var target => .var (reference ρ target)
  | .assign target value => .assign (reference ρ target) (expr ρ value)
  | .call callee paren arguments => .call (expr ρ callee) paren (exprs ρ arguments)
  | .get object name => .get (expr ρ object) name
  | .set object name value => .set (expr ρ object) name (expr ρ value)
  | .this id span => .this (ρ id) span
  | .super id keyword method => .super (ρ id) keyword method
  | .lambda fn => .lambda (lambda ρ fn)

def exprs (ρ : Nat → Nat) : List Expr → List Expr
  | [] => []
  | e :: es => expr ρ e :: exprs ρ es

def lambda (ρ : Nat → Nat) : Lambda → Lambda
  | ⟨params, body, span⟩ => ⟨params, stmts ρ body, span⟩

def stmt (ρ : Nat → Nat) : Stmt → Stmt
  | .expression value => .expression (expr ρ value)
  | .print value => .print (expr ρ value)
  | .var name none => .var name none
  | .var name (some value) => .var name (some (expr ρ value))
  | .block body => .block (stmts ρ body)
  | .ifElse condition thenBranch none => .ifElse (expr ρ condition) (stmt ρ thenBranch) none
  | .ifElse condition thenBranch (some elseBranch) =>
    .ifElse (expr ρ condition) (stmt ρ thenBranch) (some (stmt ρ elseBranch))
  | .while_ condition body => .while_ (expr ρ condition) (stmt ρ body)
  | .break_ keyword => .break_ keyword
  | .return_ keyword none => .return_ keyword none
  | .return_ keyword (some value) => .return_ keyword (some (expr ρ value))
  | .function name fn => .function name (lambda ρ fn)
  | .class_ name superclass declared =>
    .class_ name (superclass.map (reference ρ)) (methods ρ declared)

def stmts (ρ : Nat → Nat) : List Stmt → List Stmt
  | [] => []
  | s :: ss => stmt ρ s :: stmts ρ ss

def methods (ρ : Nat → Nat) : List Method → List Method
  | [] => []
  | ⟨name, fn⟩ :: ms => ⟨name, lambda ρ fn⟩ :: methods ρ ms

end

/-- A method under other numbers. -/
def method (ρ : Nat → Nat) (m : Method) : Method := ⟨m.name, lambda ρ m.fn⟩

variable (ρ : Nat → Nat)

theorem exprs_eq_map (es : List Expr) : exprs ρ es = es.map (expr ρ) := by
  induction es with
  | nil => rfl
  | cons e es ih => rw [exprs, ih, List.map_cons]

theorem stmts_eq_map (ss : List Stmt) : stmts ρ ss = ss.map (stmt ρ) := by
  induction ss with
  | nil => rfl
  | cons s ss ih => rw [stmts, ih, List.map_cons]

theorem methods_eq_map (ms : List Method) : methods ρ ms = ms.map (method ρ) := by
  induction ms with
  | nil => rfl
  | cons m ms ih =>
    cases m
    rw [methods, ih, List.map_cons]
    rfl

/-! ## Numbers that stay

A tree keeps its form when all its numbers stay. -/

variable {ρ}

/-- `ρ` changes none of these numbers. -/
def Keeps (ρ : Nat → Nat) (ids : List Nat) : Prop := ∀ id ∈ ids, ρ id = id

theorem keeps_id (ids : List Nat) : Keeps id ids := fun _ _ => rfl

theorem keeps_append {ids ids' : List Nat} : Keeps ρ (ids ++ ids') ↔ Keeps ρ ids ∧ Keeps ρ ids' :=
  List.forall_mem_append

theorem keeps_cons {id : Nat} {ids : List Nat} : Keeps ρ (id :: ids) ↔ ρ id = id ∧ Keeps ρ ids :=
  List.forall_mem_cons

theorem reference_eq {target : Reference} (h : ρ target.id = target.id) :
    reference ρ target = target := by
  cases target
  rw [reference, h]

mutual

theorem expr_eq : ∀ e : Expr, Keeps ρ (Nodes.expr [] e) → expr ρ e = e
  | .literal .., _ => rfl
  | .grouping inner _, h => by rw [expr, expr_eq inner h]
  | .unary _ _ operand, h => by rw [expr, expr_eq operand h]
  | .binary left _ _ right, h => by
    rw [Nodes.expr, Nodes.expr_append, keeps_append] at h
    rw [expr, expr_eq left h.1, expr_eq right h.2]
  | .logical left _ _ right, h => by
    rw [Nodes.expr, Nodes.expr_append, keeps_append] at h
    rw [expr, expr_eq left h.1, expr_eq right h.2]
  | .var _, h => by
    rw [Nodes.expr, keeps_cons] at h
    rw [expr, reference_eq h.1]
  | .assign _ value, h => by
    rw [Nodes.expr, keeps_cons] at h
    rw [expr, reference_eq h.1, expr_eq value h.2]
  | .call callee _ arguments, h => by
    rw [Nodes.expr, Nodes.expr_append, keeps_append] at h
    rw [expr, expr_eq callee h.1, exprs_eq arguments h.2]
  | .get object _, h => by rw [expr, expr_eq object h]
  | .set object _ value, h => by
    rw [Nodes.expr, Nodes.expr_append, keeps_append] at h
    rw [expr, expr_eq object h.1, expr_eq value h.2]
  | .this .., h => by
    rw [Nodes.expr, keeps_cons] at h
    rw [expr, h.1]
  | .super .., h => by
    rw [Nodes.expr, keeps_cons] at h
    rw [expr, h.1]
  | .lambda fn, h => by rw [expr, lambda_eq fn h]

theorem exprs_eq : ∀ es : List Expr, Keeps ρ (Nodes.exprs [] es) → exprs ρ es = es
  | [], _ => rfl
  | e :: es, h => by
    rw [Nodes.exprs, Nodes.expr_append, keeps_append] at h
    rw [exprs, expr_eq e h.1, exprs_eq es h.2]

theorem lambda_eq : ∀ fn : Lambda, Keeps ρ (Nodes.lambda [] fn) → lambda ρ fn = fn
  | ⟨_, body, _⟩, h => by rw [lambda, stmts_eq body h]

theorem stmt_eq : ∀ s : Stmt, Keeps ρ (Nodes.stmt [] s) → stmt ρ s = s
  | .expression value, h => by rw [stmt, expr_eq value h]
  | .print value, h => by rw [stmt, expr_eq value h]
  | .var _ none, _ => rfl
  | .var _ (some value), h => by rw [stmt, expr_eq value h]
  | .block body, h => by rw [stmt, stmts_eq body h]
  | .ifElse condition thenBranch none, h => by
    rw [Nodes.stmt, Nodes.expr_append, keeps_append] at h
    rw [stmt, expr_eq condition h.1, stmt_eq thenBranch h.2]
  | .ifElse condition thenBranch (some elseBranch), h => by
    rw [Nodes.stmt, Nodes.expr_append, keeps_append, Nodes.stmt_append, keeps_append] at h
    rw [stmt, expr_eq condition h.1, stmt_eq thenBranch h.2.1, stmt_eq elseBranch h.2.2]
  | .while_ condition body, h => by
    rw [Nodes.stmt, Nodes.expr_append, keeps_append] at h
    rw [stmt, expr_eq condition h.1, stmt_eq body h.2]
  | .break_ _, _ => rfl
  | .return_ _ none, _ => rfl
  | .return_ _ (some value), h => by rw [stmt, expr_eq value h]
  | .function _ fn, h => by rw [stmt, lambda_eq fn h]
  | .class_ _ none declared, h => by
    rw [stmt, methods_eq declared h, Option.map_none]
  | .class_ _ (some _) declared, h => by
    rw [Nodes.stmt, keeps_cons] at h
    rw [stmt, methods_eq declared h.2, Option.map_some, reference_eq h.1]

theorem stmts_eq : ∀ ss : List Stmt, Keeps ρ (Nodes.stmts [] ss) → stmts ρ ss = ss
  | [], _ => rfl
  | s :: ss, h => by
    rw [Nodes.stmts, Nodes.stmt_append, keeps_append] at h
    rw [stmts, stmt_eq s h.1, stmts_eq ss h.2]

theorem methods_eq : ∀ ms : List Method, Keeps ρ (Nodes.methods [] ms) → methods ρ ms = ms
  | [], _ => rfl
  | ⟨_, fn⟩ :: ms, h => by
    rw [Nodes.methods, Nodes.lambda_append, keeps_append] at h
    rw [methods, lambda_eq fn h.1, methods_eq ms h.2]

end

/-! ## Numbers that are replaced twice -/

section

variable (ρ σ : Nat → Nat)

mutual

theorem expr_comp : ∀ e : Expr, expr σ (expr ρ e) = expr (σ ∘ ρ) e
  | .literal .. => rfl
  | .grouping inner _ => by simp only [expr, expr_comp inner]
  | .unary _ _ operand => by simp only [expr, expr_comp operand]
  | .binary left _ _ right => by simp only [expr, expr_comp left, expr_comp right]
  | .logical left _ _ right => by simp only [expr, expr_comp left, expr_comp right]
  | .var _ => rfl
  | .assign _ value => by simp only [expr, expr_comp value]; rfl
  | .call callee _ arguments => by simp only [expr, expr_comp callee, exprs_comp arguments]
  | .get object _ => by simp only [expr, expr_comp object]
  | .set object _ value => by simp only [expr, expr_comp object, expr_comp value]
  | .this .. => rfl
  | .super .. => rfl
  | .lambda fn => by simp only [expr, lambda_comp fn]

theorem exprs_comp : ∀ es : List Expr, exprs σ (exprs ρ es) = exprs (σ ∘ ρ) es
  | [] => rfl
  | e :: es => by simp only [exprs, expr_comp e, exprs_comp es]

theorem lambda_comp : ∀ fn : Lambda, lambda σ (lambda ρ fn) = lambda (σ ∘ ρ) fn
  | ⟨_, body, _⟩ => by simp only [lambda, stmts_comp body]

theorem stmt_comp : ∀ s : Stmt, stmt σ (stmt ρ s) = stmt (σ ∘ ρ) s
  | .expression value => by simp only [stmt, expr_comp value]
  | .print value => by simp only [stmt, expr_comp value]
  | .var _ none => rfl
  | .var _ (some value) => by simp only [stmt, expr_comp value]
  | .block body => by simp only [stmt, stmts_comp body]
  | .ifElse condition thenBranch none => by
    simp only [stmt, expr_comp condition, stmt_comp thenBranch]
  | .ifElse condition thenBranch (some elseBranch) => by
    simp only [stmt, expr_comp condition, stmt_comp thenBranch, stmt_comp elseBranch]
  | .while_ condition body => by simp only [stmt, expr_comp condition, stmt_comp body]
  | .break_ _ => rfl
  | .return_ _ none => rfl
  | .return_ _ (some value) => by simp only [stmt, expr_comp value]
  | .function _ fn => by simp only [stmt, lambda_comp fn]
  | .class_ _ none declared => by simp only [stmt, methods_comp declared, Option.map_none]
  | .class_ _ (some _) declared => by
    simp only [stmt, methods_comp declared, Option.map_some]
    rfl

theorem stmts_comp : ∀ ss : List Stmt, stmts σ (stmts ρ ss) = stmts (σ ∘ ρ) ss
  | [] => rfl
  | s :: ss => by simp only [stmts, stmt_comp s, stmts_comp ss]

theorem methods_comp : ∀ ms : List Method, methods σ (methods ρ ms) = methods (σ ∘ ρ) ms
  | [] => rfl
  | ⟨_, fn⟩ :: ms => by simp only [methods, lambda_comp fn, methods_comp ms]

end

end

end Lox.Renumber

/-! ## Heaps in which trees have other numbers

The bodies of functions are the only trees that a heap holds. What programs can
see of a heap does not depend on the numbers in them. -/

namespace Lox

/-- A function object whose body has other numbers. -/
def FunctionObject.renumber (ρ : Nat → Nat) (f : FunctionObject) : FunctionObject :=
  { f with fn := Renumber.lambda ρ f.fn }

namespace Heap

/-- A heap in which all bodies have other numbers. -/
def renumber (ρ : Nat → Nat) (h : Heap) : Heap :=
  { h with functions := h.functions.map (FunctionObject.renumber ρ) }

variable (ρ : Nat → Nat) (h : Heap)

/-! ## Looking things up -/

@[simp] theorem renumber_get? (f : FrameId) (name : String) :
    (h.renumber ρ).get? f name = h.get? f name := rfl

@[simp] theorem renumber_binds (f : FrameId) (name : String) :
    (h.renumber ρ).binds f name = h.binds f name := rfl

@[simp] theorem renumber_ancestor? (f : FrameId) (distance : Nat) :
    (h.renumber ρ).ancestor? f distance = h.ancestor? f distance := by
  induction distance generalizing f with
  | zero => rfl
  | succ distance ih =>
    simp only [ancestor?, ih]
    rfl

@[simp] theorem renumber_getAt? (f : FrameId) (distance : Nat) (name : String) :
    (h.renumber ρ).getAt? f distance name = h.getAt? f distance name := by
  simp only [getAt?, renumber_ancestor?, renumber_get?]

@[simp] theorem renumber_field? (i : InstanceId) (name : String) :
    (h.renumber ρ).field? i name = h.field? i name := rfl

@[simp] theorem renumber_function? (f : FunctionId) :
    (h.renumber ρ).function? f = (h.function? f).map (FunctionObject.renumber ρ) := by
  simp only [function?, renumber, Array.getElem?_map]

@[simp] theorem renumber_findMethod? (c : ClassId) (name : String) :
    (h.renumber ρ).findMethod? c name = h.findMethod? c name := by
  fun_induction findMethod? h c name with
  | case1 c hnone => rw [findMethod?]; simp [renumber, hnone]
  | case2 c object hobject method hmethod =>
    rw [findMethod?]; simp [renumber, hobject, hmethod]
  | case3 c object hobject hmethod parent hparent hlt ih =>
    rw [findMethod?]; simp [renumber, hobject, hmethod, hparent, hlt, ← ih]
  | case4 c object hobject hmethod parent hparent hlt =>
    rw [findMethod?]; simp [renumber, hobject, hmethod, hparent, hlt]
  | case5 c object hobject hmethod hparent =>
    rw [findMethod?]; simp [renumber, hobject, hmethod, hparent]

@[simp] theorem renumber_methodOf? (i : InstanceId) (name : String) :
    (h.renumber ρ).methodOf? i name = h.methodOf? i name := by
  have hclass : (h.renumber ρ).classOf? i = h.classOf? i := rfl
  simp only [methodOf?, hclass, renumber_findMethod?]

@[simp] theorem renumber_functionArity (f : FunctionId) :
    (h.renumber ρ).functionArity f = h.functionArity f := by
  simp only [functionArity, renumber_function?, Option.map_map]
  cases h.function? f with
  | none => rfl
  | some object =>
    obtain ⟨name, ⟨params, body, span⟩, frame, initializer⟩ := object
    rfl

@[simp] theorem renumber_arity? (v : Value) : (h.renumber ρ).arity? v = h.arity? v := by
  cases v with
  | function f => exact congrArg some (renumber_functionArity ρ h f)
  | class_ c =>
    have hclass : (h.renumber ρ).classArity c = h.classArity c := by
      simp only [classArity, renumber_findMethod?]
      cases h.findMethod? c initializerName with
      | none => rfl
      | some method => exact renumber_functionArity ρ h method
    exact congrArg some hclass
  | _ => rfl

@[simp] theorem renumber_describe (v : Value) : (h.renumber ρ).describe v = h.describe v := by
  cases v with
  | function f =>
    simp only [describe, renumber_function?]
    cases h.function? f <;> rfl
  | _ => rfl

/-! ## Changing things -/

theorem renumber_newFunction (f : FunctionObject) :
    (h.renumber ρ).newFunction (f.renumber ρ) =
      ((h.newFunction f).1, (h.newFunction f).2.renumber ρ) := by
  simp only [newFunction, renumber, Array.size_map, Array.map_push]

theorem renumber_bind (method : FunctionObject) (i : InstanceId) :
    (h.renumber ρ).bind (method.renumber ρ) i =
      ((h.bind method i).1.renumber ρ, (h.bind method i).2.renumber ρ) := rfl

end Heap

/-! ## The outside world -/

/-- The code of a function of the host takes no notice of other numbers in trees. -/
def HostCode.BlindTo (ρ : Nat → Nat) (code : HostCode) : Prop :=
  ∀ (view : HostView) (args : List Value),
    code { view with heap := view.heap.renumber ρ } args = code view args

/-- The code of a function of the host takes no notice of the numbers in trees. -/
def HostCode.Blind (code : HostCode) : Prop := ∀ ρ, HostCode.BlindTo ρ code

/-- A machine in whose heap trees have other numbers, and which records distances for them. -/
def Machine.renumber (ρ : Nat → Nat) (R : Resolutions) (m : Machine) : Machine :=
  { m with heap := m.heap.renumber ρ, resolutions := R }

/-! ## Heaps whose numbers stay -/

theorem FunctionObject.renumber_id (f : FunctionObject) : f.renumber id = f := by
  have hfn : Renumber.lambda id f.fn = f.fn := Renumber.lambda_eq f.fn (Renumber.keeps_id _)
  unfold FunctionObject.renumber
  rw [hfn]

@[simp] theorem Heap.renumber_id (h : Heap) : h.renumber id = h := by
  have hid : FunctionObject.renumber id = id := funext FunctionObject.renumber_id
  unfold Heap.renumber
  rw [hid, Array.map_id]

theorem HostCode.blindTo_id (code : HostCode) : HostCode.BlindTo id code := by
  intro view args
  rw [Heap.renumber_id]

end Lox
