import Lox.Proofs.Syntax.Nodes
import Lox.Proofs.Syntax.Respan
import Lox.Syntax
import Mathlib.Data.List.Forall2

/-! # Kindred trees

Two trees are kindred when they have the same form and differ only in ways that
are allowed at each place: in their spans, in the names that scopes declare,
and in the names that go with them where variables are used. What is allowed is
a kinship. The places that it speaks of are those at which code can stand; they
tell about the scopes around it whatever the kinship has to know. -/

namespace Lox.Twin

/-- How two trees may differ. -/
structure Kinship where
  /-- The places at which code can stand. -/
  Place : Type
  /-- The second place is in a scope directly inside the first one. -/
  inside : Place → Place → Prop
  /-- A span at a place of the first tree, and the span in the second one. -/
  span : Place → Span → Span → Prop
  /-- The nodes at a place that use a name in the first tree and in the second one, and the name
  that each of them uses. -/
  use : Place → Nat → Nat → String → String → Prop
  /-- A name that the scope at a place declares in the first tree, and in the second one. -/
  declare : Place → String → String → Prop

variable (K : Kinship)

/-- Names that are the same, such as those of properties. -/
structure Kinship.Named (p : K.Place) (name name' : Ident) : Prop where
  text : name'.text = name.text
  span : K.span p name.span name'.span

/-- Names that are declared at a place. -/
structure Kinship.Declares (p : K.Place) (name name' : Ident) : Prop where
  text : K.declare p name.text name'.text
  span : K.span p name.span name'.span

/-- Uses of variables at a place. -/
structure Kinship.Uses (p : K.Place) (target target' : Reference) : Prop where
  text : K.use p target.id target'.id target.name.text target'.name.text
  span : K.span p target.name.span target'.name.span

mutual

/-- Expressions at a place that are kindred. -/
inductive KinExpr : K.Place → Expr → Expr → Prop
  | literal {p value s s'} (hspan : K.span p s s') :
    KinExpr p (.literal value s) (.literal value s')
  | grouping {p inner inner' s s'} (hkin : KinExpr p inner inner') (hspan : K.span p s s') :
    KinExpr p (.grouping inner s) (.grouping inner' s')
  | unary {p op s s' operand operand'} (hspan : K.span p s s') (hkin : KinExpr p operand operand') :
    KinExpr p (.unary op s operand) (.unary op s' operand')
  | binary {p left left' op s s' right right'} (hleft : KinExpr p left left')
    (hspan : K.span p s s') (hright : KinExpr p right right') :
    KinExpr p (.binary left op s right) (.binary left' op s' right')
  | logical {p left left' op s s' right right'} (hleft : KinExpr p left left')
    (hspan : K.span p s s') (hright : KinExpr p right right') :
    KinExpr p (.logical left op s right) (.logical left' op s' right')
  | var {p target target'} (huse : K.Uses p target target') : KinExpr p (.var target) (.var target')
  | assign {p target target' value value'} (huse : K.Uses p target target')
    (hkin : KinExpr p value value') : KinExpr p (.assign target value) (.assign target' value')
  | call {p callee callee' s s' arguments arguments'} (hcallee : KinExpr p callee callee')
    (hspan : K.span p s s') (harguments : KinExprs p arguments arguments') :
    KinExpr p (.call callee s arguments) (.call callee' s' arguments')
  | get {p object object' name name'} (hobject : KinExpr p object object')
    (hname : K.Named p name name') : KinExpr p (.get object name) (.get object' name')
  | set {p object object' name name' value value'} (hobject : KinExpr p object object')
    (hname : K.Named p name name') (hvalue : KinExpr p value value') :
    KinExpr p (.set object name value) (.set object' name' value')
  | this {p id id' s s'} (huse : K.use p id id' "this" "this") (hspan : K.span p s s') :
    KinExpr p (.this id s) (.this id' s')
  | super {p id id' s s' method method'} (huse : K.use p id id' "super" "super")
    (hspan : K.span p s s') (hmethod : K.Named p method method') :
    KinExpr p (.super id s method) (.super id' s' method')
  | lambda {p fn fn'} (hkin : KinLambda p fn fn') : KinExpr p (.lambda fn) (.lambda fn')

/-- Expressions in order. -/
inductive KinExprs : K.Place → List Expr → List Expr → Prop
  | nil {p} : KinExprs p [] []
  | cons {p e e' es es'} (hhead : KinExpr p e e') (htail : KinExprs p es es') :
    KinExprs p (e :: es) (e' :: es')

/-- Functions that are made at a place: their bodies stand in a scope inside it. -/
inductive KinLambda : K.Place → Lambda → Lambda → Prop
  | mk {p q params params' body body' s s'} (hinside : K.inside p q)
    (hparams : List.Forall₂ (K.Declares q) params params') (hbody : KinStmts q body body')
    (hspan : K.span p s s') : KinLambda p ⟨params, body, s⟩ ⟨params', body', s'⟩

/-- Statements at a place that are kindred. -/
inductive KinStmt : K.Place → Stmt → Stmt → Prop
  | expression {p value value'} (hkin : KinExpr p value value') :
    KinStmt p (.expression value) (.expression value')
  | print {p value value'} (hkin : KinExpr p value value') :
    KinStmt p (.print value) (.print value')
  | declaration {p name name'} (hname : K.Declares p name name') :
    KinStmt p (.var name none) (.var name' none)
  | definition {p name name' value value'} (hname : K.Declares p name name')
    (hkin : KinExpr p value value') : KinStmt p (.var name (some value)) (.var name' (some value'))
  | block {p q body body'} (hinside : K.inside p q) (hkin : KinStmts q body body') :
    KinStmt p (.block body) (.block body')
  | ifThen {p condition condition' body body'} (hcondition : KinExpr p condition condition')
    (hbody : KinStmt p body body') :
    KinStmt p (.ifElse condition body none) (.ifElse condition' body' none)
  | ifElse {p condition condition' body body' other other'}
    (hcondition : KinExpr p condition condition') (hbody : KinStmt p body body')
    (hother : KinStmt p other other') :
    KinStmt p (.ifElse condition body (some other)) (.ifElse condition' body' (some other'))
  | while_ {p condition condition' body body'} (hcondition : KinExpr p condition condition')
    (hbody : KinStmt p body body') : KinStmt p (.while_ condition body) (.while_ condition' body')
  | break_ {p s s'} (hspan : K.span p s s') : KinStmt p (.break_ s) (.break_ s')
  | returnNil {p s s'} (hspan : K.span p s s') : KinStmt p (.return_ s none) (.return_ s' none)
  | return_ {p s s' value value'} (hspan : K.span p s s') (hkin : KinExpr p value value') :
    KinStmt p (.return_ s (some value)) (.return_ s' (some value'))
  | function {p name name' fn fn'} (hdeclares : K.Declares p name name')
    (htext : name'.text = name.text) (hkin : KinLambda p fn fn') :
    KinStmt p (.function name fn) (.function name' fn')
  | class_ {p name name' methods methods'} (hdeclares : K.Declares p name name')
    (htext : name'.text = name.text) (hmethods : KinMethods p methods methods') :
    KinStmt p (.class_ name none methods) (.class_ name' none methods')
  | subclass {p q name name' target target' methods methods'} (hdeclares : K.Declares p name name')
    (htext : name'.text = name.text) (huse : K.Uses p target target') (hinside : K.inside p q)
    (hmethods : KinMethods q methods methods') :
    KinStmt p (.class_ name (some target) methods) (.class_ name' (some target') methods')

/-- Statements in order. -/
inductive KinStmts : K.Place → List Stmt → List Stmt → Prop
  | nil {p} : KinStmts p [] []
  | cons {p s s' ss ss'} (hhead : KinStmt p s s') (htail : KinStmts p ss ss') :
    KinStmts p (s :: ss) (s' :: ss')

/-- Methods in order: each is made in the scope that holds its instance. -/
inductive KinMethods : K.Place → List Method → List Method → Prop
  | nil {p} : KinMethods p [] []
  | cons {p q name name' fn fn' ms ms'} (hname : K.Named p name name') (hinside : K.inside p q)
    (hkin : KinLambda q fn fn') (htail : KinMethods p ms ms') :
    KinMethods p (⟨name, fn⟩ :: ms) (⟨name', fn'⟩ :: ms')

end

variable {K}

theorem KinLambda.arity {p : K.Place} {fn fn' : Lambda} (h : KinLambda K p fn fn') :
    fn'.arity = fn.arity := by
  cases h with
  | mk _ params => exact params.length_eq.symm

theorem KinLambda.span {p : K.Place} {fn fn' : Lambda} (h : KinLambda K p fn fn') :
    K.span p fn.span fn'.span := by
  cases h with
  | mk _ _ _ span => exact span

end Lox.Twin

/-! # A tree beside itself

A tree is kindred to itself, and to the same tree with other spans, at all places
where the kinship allows the same names to be used and declared. -/

namespace Lox.Twin

/-- At good places the same names go together, for the nodes that are known, with spans that `σ`
moves. -/
structure Kinship.Mirrors (K : Kinship) (good : K.Place → Prop) (known : Nat → Prop)
    (σ : Span → Span) : Prop where
  inside : ∀ p, good p → ∃ q, K.inside p q ∧ good q
  span : ∀ p span, good p → K.span p span (σ span)
  use : ∀ p id name, good p → known id → K.use p id id name name
  declare : ∀ p name, good p → K.declare p name name

/-- All nodes are known. -/
def AllKnown (known : Nat → Prop) (ids : List Nat) : Prop := ∀ id ∈ ids, known id

variable {K : Kinship} {good : K.Place → Prop} {known : Nat → Prop} {σ : Span → Span}
  {ids ids' : List Nat} {n : Nat} {p : K.Place}

theorem allKnown_append : AllKnown known (ids ++ ids') ↔ AllKnown known ids ∧ AllKnown known ids' :=
  List.forall_mem_append

theorem allKnown_cons : AllKnown known (n :: ids) ↔ known n ∧ AllKnown known ids :=
  List.forall_mem_cons

theorem AllKnown.expr {e : Expr} (h : AllKnown known (Nodes.expr ids e)) :
    AllKnown known (Nodes.expr [] e) ∧ AllKnown known ids := by
  rw [Nodes.expr_append] at h
  exact allKnown_append.mp h

theorem AllKnown.stmt {s : Stmt} (h : AllKnown known (Nodes.stmt ids s)) :
    AllKnown known (Nodes.stmt [] s) ∧ AllKnown known ids := by
  rw [Nodes.stmt_append] at h
  exact allKnown_append.mp h

theorem AllKnown.lambda {fn : Lambda} (h : AllKnown known (Nodes.lambda ids fn)) :
    AllKnown known (Nodes.lambda [] fn) ∧ AllKnown known ids := by
  rw [Nodes.lambda_append] at h
  exact allKnown_append.mp h

namespace Kinship.Mirrors

variable (h : K.Mirrors good known σ)

include h

theorem named (hp : good p) (name : Ident) : K.Named p name (name.respan σ) :=
  ⟨rfl, h.span p name.span hp⟩

theorem declares (hp : good p) (name : Ident) : K.Declares p name (name.respan σ) :=
  ⟨h.declare p name.text hp, h.span p name.span hp⟩

theorem uses (hp : good p) {target : Reference} (hid : known target.id) :
    K.Uses p target (target.respan σ) :=
  ⟨h.use p target.id target.name.text hp hid, h.span p target.name.span hp⟩

theorem params (hp : good p) (names : List Ident) :
    List.Forall₂ (K.Declares p) names (names.map (Ident.respan σ)) :=
  List.forall₂_map_right_iff.mpr (List.forall₂_same.mpr fun name _ => h.declares hp name)

end Kinship.Mirrors

mutual

theorem kin_expr_respan (h : K.Mirrors good known σ) : ∀ (e : Expr) {p : K.Place}, good p →
    AllKnown known (Nodes.expr [] e) → KinExpr K p e (Respan.expr σ e)
  | .literal .., _, hp, _ => .literal (h.span _ _ hp)
  | .grouping inner _, _, hp, hk => .grouping (kin_expr_respan h inner hp hk) (h.span _ _ hp)
  | .unary _ _ operand, _, hp, hk => .unary (h.span _ _ hp) (kin_expr_respan h operand hp hk)
  | .binary left _ _ right, _, hp, hk =>
    .binary (kin_expr_respan h left hp (AllKnown.expr (e := left) hk).1) (h.span _ _ hp)
      (kin_expr_respan h right hp (AllKnown.expr (e := left) hk).2)
  | .logical left _ _ right, _, hp, hk =>
    .logical (kin_expr_respan h left hp (AllKnown.expr (e := left) hk).1) (h.span _ _ hp)
      (kin_expr_respan h right hp (AllKnown.expr (e := left) hk).2)
  | .var _, _, hp, hk => .var (h.uses hp (allKnown_cons.mp hk).1)
  | .assign _ value, _, hp, hk =>
    .assign (h.uses hp (allKnown_cons.mp hk).1) (kin_expr_respan h value hp (allKnown_cons.mp hk).2)
  | .call callee _ arguments, _, hp, hk =>
    .call (kin_expr_respan h callee hp (AllKnown.expr (e := callee) hk).1) (h.span _ _ hp)
      (kin_exprs_respan h arguments hp (AllKnown.expr (e := callee) hk).2)
  | .get object name, _, hp, hk => .get (kin_expr_respan h object hp hk) (h.named hp name)
  | .set object name value, _, hp, hk =>
    .set (kin_expr_respan h object hp (AllKnown.expr (e := object) hk).1) (h.named hp name)
      (kin_expr_respan h value hp (AllKnown.expr (e := object) hk).2)
  | .this .., _, hp, hk => .this (h.use _ _ _ hp (allKnown_cons.mp hk).1) (h.span _ _ hp)
  | .super _ _ method, _, hp, hk =>
    .super (h.use _ _ _ hp (allKnown_cons.mp hk).1) (h.span _ _ hp) (h.named hp method)
  | .lambda fn, _, hp, hk => .lambda (kin_lambda_respan h fn hp hk)

theorem kin_exprs_respan (h : K.Mirrors good known σ) : ∀ (es : List Expr) {p : K.Place}, good p →
    AllKnown known (Nodes.exprs [] es) → KinExprs K p es (Respan.exprs σ es)
  | [], _, _, _ => .nil
  | e :: es, _, hp, hk =>
    .cons (kin_expr_respan h e hp (AllKnown.expr (e := e) hk).1)
      (kin_exprs_respan h es hp (AllKnown.expr (e := e) hk).2)

theorem kin_lambda_respan (h : K.Mirrors good known σ) : ∀ (fn : Lambda) {p : K.Place}, good p →
    AllKnown known (Nodes.lambda [] fn) → KinLambda K p fn (Respan.lambda σ fn)
  | ⟨params, body, _⟩, _, hp, hk => by
    obtain ⟨q, hinside, hq⟩ := h.inside _ hp
    exact .mk hinside (h.params hq params) (kin_stmts_respan h body hq hk) (h.span _ _ hp)

theorem kin_stmt_respan (h : K.Mirrors good known σ) : ∀ (s : Stmt) {p : K.Place}, good p →
    AllKnown known (Nodes.stmt [] s) → KinStmt K p s (Respan.stmt σ s)
  | .expression value, _, hp, hk => .expression (kin_expr_respan h value hp hk)
  | .print value, _, hp, hk => .print (kin_expr_respan h value hp hk)
  | .var name none, _, hp, _ => .declaration (h.declares hp name)
  | .var name (some value), _, hp, hk =>
    .definition (h.declares hp name) (kin_expr_respan h value hp hk)
  | .block body, _, hp, hk => by
    obtain ⟨q, hinside, hq⟩ := h.inside _ hp
    exact .block hinside (kin_stmts_respan h body hq hk)
  | .ifElse condition thenBranch none, _, hp, hk =>
    .ifThen (kin_expr_respan h condition hp (AllKnown.expr (e := condition) hk).1)
      (kin_stmt_respan h thenBranch hp (AllKnown.expr (e := condition) hk).2)
  | .ifElse condition thenBranch (some elseBranch), _, hp, hk =>
    .ifElse (kin_expr_respan h condition hp (AllKnown.expr (e := condition) hk).1)
      (kin_stmt_respan h thenBranch hp (AllKnown.stmt (AllKnown.expr (e := condition) hk).2).1)
      (kin_stmt_respan h elseBranch hp (AllKnown.stmt (AllKnown.expr (e := condition) hk).2).2)
  | .while_ condition body, _, hp, hk =>
    .while_ (kin_expr_respan h condition hp (AllKnown.expr (e := condition) hk).1)
      (kin_stmt_respan h body hp (AllKnown.expr (e := condition) hk).2)
  | .break_ _, _, hp, _ => .break_ (h.span _ _ hp)
  | .return_ _ none, _, hp, _ => .returnNil (h.span _ _ hp)
  | .return_ _ (some value), _, hp, hk => .return_ (h.span _ _ hp) (kin_expr_respan h value hp hk)
  | .function name fn, _, hp, hk =>
    .function (h.declares hp name) rfl (kin_lambda_respan h fn hp hk)
  | .class_ name none declared, _, hp, hk =>
    .class_ (h.declares hp name) rfl (kin_methods_respan h declared hp hk)
  | .class_ name (some _) declared, _, hp, hk => by
    obtain ⟨q, hinside, hq⟩ := h.inside _ hp
    exact .subclass (h.declares hp name) rfl (h.uses hp (allKnown_cons.mp hk).1) hinside
      (kin_methods_respan h declared hq (allKnown_cons.mp hk).2)

theorem kin_stmts_respan (h : K.Mirrors good known σ) : ∀ (ss : List Stmt) {p : K.Place}, good p →
    AllKnown known (Nodes.stmts [] ss) → KinStmts K p ss (Respan.stmts σ ss)
  | [], _, _, _ => .nil
  | s :: ss, _, hp, hk =>
    .cons (kin_stmt_respan h s hp (AllKnown.stmt hk).1)
      (kin_stmts_respan h ss hp (AllKnown.stmt hk).2)

theorem kin_methods_respan (h : K.Mirrors good known σ) : ∀ (ms : List Method) {p : K.Place},
    good p → AllKnown known (Nodes.methods [] ms) → KinMethods K p ms (Respan.methods σ ms)
  | [], _, _, _ => .nil
  | ⟨name, fn⟩ :: ms, _, hp, hk => by
    obtain ⟨q, hinside, hq⟩ := h.inside _ hp
    exact .cons (h.named hp name) hinside (kin_lambda_respan h fn hq (AllKnown.lambda hk).1)
      (kin_methods_respan h ms hp (AllKnown.lambda hk).2)

end

/-! ## With the same spans -/

theorem kin_lambda_self (h : K.Mirrors good known id) (fn : Lambda) (hp : good p)
    (hk : AllKnown known (Nodes.lambda [] fn)) : KinLambda K p fn fn := by
  have hkin := kin_lambda_respan h fn hp hk
  rwa [Respan.lambda_id] at hkin

theorem kin_expr_self (h : K.Mirrors good known id) (e : Expr) (hp : good p)
    (hk : AllKnown known (Nodes.expr [] e)) : KinExpr K p e e := by
  have hkin := kin_expr_respan h e hp hk
  rwa [Respan.expr_id] at hkin

theorem kin_stmt_self (h : K.Mirrors good known id) (s : Stmt) (hp : good p)
    (hk : AllKnown known (Nodes.stmt [] s)) : KinStmt K p s s := by
  have hkin := kin_stmt_respan h s hp hk
  rwa [Respan.stmt_id] at hkin

theorem kin_stmts_self (h : K.Mirrors good known id) (ss : List Stmt) (hp : good p)
    (hk : AllKnown known (Nodes.stmts [] ss)) : KinStmts K p ss ss := by
  have hkin := kin_stmts_respan h ss hp hk
  rwa [Respan.stmts_id] at hkin

end Lox.Twin
