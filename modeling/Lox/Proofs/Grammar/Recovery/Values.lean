import Lox.Proofs.Grammar.Recovery.Holes

/-! # What both parses build

The tree of the other text has the outline that the tree of the guide has when the
class in the hole is left out, and what is left out with it. Tree by tree, this is
how the results of the two parses are related. -/

namespace Lox.Grammar

/-- The names read alike. -/
def SameName (a b : Ident) : Prop := b.outline = a.outline

/-- Tokens that read alike are alike as names. -/
theorem sameName_of_like {name : String} {t t' : Token} (h : t.Like name t') :
    SameName t.ident t'.ident := congrArg (Ident.mk · .origin) h.lexeme

/-- The arrays have as many entries, and these are related. -/
def Each {α : Type} (V : α → α → Prop) (as bs : Array α) : Prop :=
  List.Forall₂ V as.toList bs.toList

section

variable {α : Type} {V : α → α → Prop} {as bs : Array α}

theorem Each.empty : Each V #[] #[] := .nil

theorem Each.push {a b : α} (h : Each V as bs) (hab : V a b) : Each V (as.push a) (bs.push b) := by
  unfold Each
  rw [Array.toList_push, Array.toList_push]
  exact List.rel_append h (.cons hab .nil)

theorem Each.size (h : Each V as bs) : bs.size = as.size := by
  simpa using h.length_eq.symm

theorem Each.map {β : Type} {f g : α → β} (h : Each V as bs) (hfg : ∀ a b, V a b → g b = f a) :
    bs.toList.map g = as.toList.map f := by
  have hmap : ∀ {xs ys : List α}, List.Forall₂ V xs ys → ys.map g = xs.map f := by
    intro xs ys h
    induction h with
    | nil => rfl
    | cons hab _ ih => rw [List.map_cons, List.map_cons, hfg _ _ hab, ih]
  exact hmap h

end

theorem rel_map {α β : Type} {V : α → α → Prop} {a b : Option α} {f g : α → β}
    (h : Option.Rel V a b) (hfg : ∀ a b, V a b → g b = f a) : b.map g = a.map f := by
  cases h with
  | none => rfl
  | some hab => exact congrArg some (hfg _ _ hab)

/-- Results that are related to one that is there are there. -/
theorem rel_some {α J : Type} {V : J → α → α → Prop} {a : α} {b : J → Option α}
    (h : ∀ j, Option.Rel (V j) (some a) (b j)) :
    ∃ b' : J → α, b = (fun j => some (b' j)) ∧ ∀ j, V j a (b' j) := by
  have hsome : ∀ j, ∃ x, b j = some x ∧ V j a x := by
    intro j
    have hj := h j
    cases hb : b j with
    | none =>
      rw [hb] at hj
      cases hj
    | some x =>
      rw [hb] at hj
      cases hj with
      | some hab => exact ⟨x, rfl, hab⟩
  choose b' hb' hV using hsome
  exact ⟨b', funext hb', hV⟩

theorem rel_none {α J : Type} {V : J → α → α → Prop} {b : J → Option α}
    (h : ∀ j, Option.Rel (V j) none (b j)) : b = fun _ => none := by
  funext j
  have hj := h j
  cases hb : b j with
  | none => rfl
  | some x =>
    rw [hb] at hj
    cases hj

namespace Filling

variable {H : Hole} (F : Filling H)

/-- The expressions are the same but for the hole. -/
def SameExpr (a b : Expr) : Prop := Outline.expr b = F.cut.expr a

def SameLambda (a b : Lambda) : Prop := Outline.lambda b = F.cut.lambda a

def SameMethod (a b : Method) : Prop := Outline.method b = F.cut.method a

/-- The statements are the same but for the hole, and the one of the guide is not what stands in it. -/
structure SameStmt (a b : Stmt) : Prop where
  notHole : a.isClass H.name.lexeme = false
  outline : Outline.stmt b = F.cut.stmt a

/-- The lists of statements are the same but for the hole, whatever comes behind them. -/
def SameStmts (as bs : Array Stmt) : Prop :=
  ∀ rest, F.cut.stmts 0 (as.toList ++ rest) = Outline.stmts bs.toList ++ F.cut.stmts 0 rest

/-- The bodies are the same but for the hole. -/
def SameBody (a b : List Stmt × Span) : Prop := Outline.stmts b.1 = F.cut.stmts 0 a.1

variable {F} {a b a' b' : Expr} {s s' : Span} {x y : Ident}

/-! ## Expressions -/

theorem sameExpr_literal {value : Literal} : F.SameExpr (.literal value s) (.literal value s') :=
  rfl

theorem SameExpr.grouping (h : F.SameExpr a b) : F.SameExpr (.grouping a s) (.grouping b s') := by
  simp_all [SameExpr, Cut.expr]

theorem SameExpr.unary {op : UnaryOp} (h : F.SameExpr a b) :
    F.SameExpr (.unary op s a) (.unary op s' b) := by
  simp_all [SameExpr, Cut.expr]

theorem SameExpr.apply {op : Operator} (h : F.SameExpr a b) (h' : F.SameExpr a' b') :
    F.SameExpr (op.apply a s a') (op.apply b s' b') := by
  cases op <;> simp_all [SameExpr, Cut.expr, Operator.apply]

theorem sameExpr_var {n n' : Nat} (h : SameName x y) :
    F.SameExpr (.var ⟨n, x⟩) (.var ⟨n', y⟩) := by
  simp_all [SameExpr, SameName, Cut.expr, Reference.outline]

theorem sameExpr_this {n n' : Nat} : F.SameExpr (.this n s) (.this n' s') := rfl

theorem sameExpr_super {n n' : Nat} (h : SameName x y) :
    F.SameExpr (.super n s x) (.super n' s' y) := by
  simp_all [SameExpr, SameName, Cut.expr]

theorem SameExpr.call {as bs : List Expr} (h : F.SameExpr a b)
    (has : as.map F.cut.expr = bs.map Outline.expr) :
    F.SameExpr (.call a s as) (.call b s' bs) := by
  simp_all [SameExpr, Cut.expr]

theorem SameExpr.get (h : F.SameExpr a b) (hname : SameName x y) :
    F.SameExpr (.get a x) (.get b y) := by
  simp_all [SameExpr, SameName, Cut.expr]

theorem SameLambda.expr {f g : Lambda} (h : F.SameLambda f g) :
    F.SameExpr (.lambda f) (.lambda g) := by
  simp_all [SameExpr, SameLambda, Cut.expr]

/-- Both are uses of a name. -/
theorem sameExpr_of_var {J : Type} {F : J → Filling H} {target : Reference} {b : J → Expr}
    (h : ∀ j, (F j).SameExpr (.var target) (b j)) :
    ∃ target' : J → Reference, b = (fun j => .var (target' j)) ∧
      ∀ j, SameName target.name (target' j).name := by
  have hvar : ∀ j, ∃ target', b j = .var target' ∧ SameName target.name target'.name := by
    intro j
    have hj := h j
    cases hb : b j <;> simp_all [SameExpr, SameName, Cut.expr, Reference.outline]
  choose target' hb hname using hvar
  exact ⟨target', funext hb, hname⟩

/-- Both are uses of a property. -/
theorem sameExpr_of_get {J : Type} {F : J → Filling H} {b : J → Expr}
    (h : ∀ j, (F j).SameExpr (.get a x) (b j)) :
    ∃ (object : J → Expr) (name : J → Ident), b = (fun j => .get (object j) (name j)) ∧
      ∀ j, (F j).SameExpr a (object j) ∧ SameName x (name j) := by
  have hget : ∀ j, ∃ object name, b j = .get object name ∧ (F j).SameExpr a object ∧
      SameName x name := by
    intro j
    have hj := h j
    cases hb : b j <;> simp_all [SameExpr, SameName, Cut.expr]
  choose object name hb hsame using hget
  exact ⟨object, name, funext hb, hsame⟩

theorem SameExpr.assign {n n' : Nat} (hname : SameName x y) (h : F.SameExpr a b) :
    F.SameExpr (.assign ⟨n, x⟩ a) (.assign ⟨n', y⟩ b) := by
  simp_all [SameExpr, SameName, Cut.expr, Reference.outline]

theorem SameExpr.set (h : F.SameExpr a b) (hname : SameName x y) (h' : F.SameExpr a' b') :
    F.SameExpr (.set a x a') (.set b y b') := by
  simp_all [SameExpr, SameName, Cut.expr]

/-! ## Functions and methods -/

theorem SameBody.lambda {ps qs : Array Ident} {body body' : List Stmt × Span}
    (hparams : Each SameName ps qs) (h : F.SameBody body body') :
    F.SameLambda ⟨ps.toList, body.1, s⟩ ⟨qs.toList, body'.1, s'⟩ := by
  have hnames := hparams.map fun _ _ hname => hname
  simp_all [SameLambda, SameBody, Cut.lambda]

theorem SameLambda.method {f g : Lambda} (hname : SameName x y) (h : F.SameLambda f g) :
    F.SameMethod ⟨x, f⟩ ⟨y, g⟩ := by
  simp_all [SameMethod, SameLambda, SameName, Cut.method, Outline.method]

theorem SameMethod.function {f g : Method} (h : F.SameMethod f g) :
    F.SameStmt (.function f.name f.fn) (.function g.name g.fn) := by
  refine ⟨rfl, ?_⟩
  obtain ⟨hname, hfn⟩ := Method.mk.inj h
  rw [Outline.stmt_function, Cut.stmt, hname, hfn]

/-! ## Statements -/

variable {t t' u u' : Stmt}

theorem SameExpr.expression (h : F.SameExpr a b) : F.SameStmt (.expression a) (.expression b) := by
  refine ⟨rfl, ?_⟩
  rw [Outline.stmt_expression, Cut.stmt, h]

theorem SameExpr.print (h : F.SameExpr a b) : F.SameStmt (.print a) (.print b) := by
  refine ⟨rfl, ?_⟩
  rw [Outline.stmt_print, Cut.stmt, h]

theorem sameStmt_var {v w : Option Expr} (hname : SameName x y) (h : Option.Rel F.SameExpr v w) :
    F.SameStmt (.var x v) (.var y w) := by
  refine ⟨rfl, ?_⟩
  rw [Outline.stmt_var, Cut.stmt_var, hname, rel_map h fun _ _ h => h]

theorem sameStmt_return {v w : Option Expr} (h : Option.Rel F.SameExpr v w) :
    F.SameStmt (.return_ s v) (.return_ s' w) := by
  refine ⟨rfl, ?_⟩
  rw [Outline.stmt_return, Cut.stmt_return, rel_map h fun _ _ h => h]

theorem sameStmt_break : F.SameStmt (.break_ s) (.break_ s') := by
  refine ⟨rfl, ?_⟩
  rw [Outline.stmt_break, Cut.stmt]

theorem SameBody.block {body body' : List Stmt × Span} (h : F.SameBody body body') :
    F.SameStmt (.block body.1) (.block body'.1) := by
  refine ⟨rfl, ?_⟩
  rw [Outline.stmt_block, Cut.stmt, h]

theorem sameStmt_ifElse {o o' : Option Stmt} (hcondition : F.SameExpr a b) (h : F.SameStmt t t')
    (hother : Option.Rel F.SameStmt o o') :
    F.SameStmt (.ifElse a t o) (.ifElse b t' o') := by
  refine ⟨rfl, ?_⟩
  rw [Outline.stmt_ifElse, Cut.stmt_ifElse, hcondition, h.outline,
    rel_map hother fun _ _ h => h.outline]

theorem SameStmt.while_ (hcondition : F.SameExpr a b) (h : F.SameStmt t t') :
    F.SameStmt (.while_ a t) (.while_ b t') := by
  refine ⟨rfl, ?_⟩
  rw [Outline.stmt_while, Cut.stmt, hcondition, h.outline]

theorem SameStmt.pair (h : F.SameStmt t t') (h' : F.SameStmt u u') :
    F.SameStmt (.block [t, u]) (.block [t', u']) := by
  refine ⟨rfl, ?_⟩
  rw [Outline.stmt_block, Cut.stmt, F.cut.stmts_cons h.notHole, F.cut.stmts_cons h'.notHole,
    Outline.stmts_eq_map, List.map_cons, List.map_cons, h.outline, h'.outline]
  rfl

theorem sameStmt_for {o o' : Option Stmt} {v v' w w' : Option Expr}
    (hinitializer : Option.Rel F.SameStmt o o') (hcondition : Option.Rel F.SameExpr v v')
    (hincrement : Option.Rel F.SameExpr w w') (h : F.SameStmt t t') :
    F.SameStmt (desugarFor s o v w t) (desugarFor s' o' v' w' t') := by
  have hcond : F.SameExpr (v.getD (.literal (.bool true) s)) (v'.getD (.literal (.bool true) s')) := by
    cases hcondition with
    | none => exact sameExpr_literal
    | some h => exact h
  unfold desugarFor
  cases hincrement with
  | none =>
    cases hinitializer with
    | none => exact SameStmt.while_ hcond h
    | some hstart => exact hstart.pair (SameStmt.while_ hcond h)
  | some hstep =>
    have hbody := h.pair hstep.expression
    cases hinitializer with
    | none => exact SameStmt.while_ hcond hbody
    | some hstart => exact hstart.pair (SameStmt.while_ hcond hbody)

theorem sameStmt_class {p q : Option Reference} {ms ms' : Array Method} (hname : SameName x y)
    (hother : x.text ≠ H.name.lexeme)
    (hparent : q.map Reference.outline = p.map Reference.outline)
    (hmethods : Each F.SameMethod ms ms') :
    F.SameStmt (.class_ x p ms.toList) (.class_ y q ms'.toList) := by
  constructor
  · exact decide_eq_false hother
  · rw [Outline.stmt_class, Cut.stmt, Outline.methods_eq_map, Cut.methods_eq_map, hname, hparent,
      hmethods.map fun _ _ h => h]

/-! ## Lists of statements -/

theorem sameStmts_empty : F.SameStmts #[] #[] := fun _ => rfl

theorem SameStmts.push {as bs : Array Stmt} (h : F.SameStmts as bs) (hs : F.SameStmt t t') :
    F.SameStmts (as.push t) (bs.push t') := by
  intro rest
  have hrest := h (t :: rest)
  rw [F.cut.stmts_cons hs.notHole] at hrest
  simp_all [hs.outline]

/-- What the guide has in the hole is left out, and what the other text has there is put in. -/
theorem SameStmts.hole {as bs : Array Stmt} (h : F.SameStmts as bs)
    (ht : t.isClass H.name.lexeme = true) {more added : List Stmt} (hmore : more.length = H.count)
    (hadded : Outline.stmts added = F.added) :
    F.SameStmts (as.push t ++ more.toArray) (bs ++ added.toArray) := by
  intro rest
  have hrest := h (t :: (more ++ rest))
  rw [F.cut.stmts_class ht hmore] at hrest
  have hcut : F.cut.added = Outline.stmts added := hadded.symm
  simp_all

theorem SameStmts.body {as bs : Array Stmt} (h : F.SameStmts as bs) :
    F.SameBody (as.toList, s) (bs.toList, s') := by
  have hrest := h []
  simp_all [SameBody, Cut.stmts]

end Filling
end Lox.Grammar
