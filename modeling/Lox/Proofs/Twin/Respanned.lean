import Lox.Proofs.Twin.Kin

/-! # Trees that are kindred in one way

Where a kinship lets each name go with itself only, and each span with one that
`σ` tells, the only tree that is kindred to a tree is the same one with other
spans. -/

namespace Lox.Twin

variable {K : Kinship} {good : K.Place → Prop} {known : Nat → Prop} {σ : Span → Span}
  {ids : List Nat} {p : K.Place}

/-- At good places only the same names go together, for nodes that are known, and spans only with
those to which `σ` moves them. -/
structure Kinship.Settles (K : Kinship) (good : K.Place → Prop) (known : Nat → Prop)
    (σ : Span → Span) : Prop where
  inside : ∀ p q, good p → K.inside p q → good q
  span : ∀ p span span', good p → K.span p span span' → span' = σ span
  use : ∀ p id id' name name', good p → K.use p id id' name name' →
    id' = id ∧ name' = name ∧ known id
  declare : ∀ p name name', good p → K.declare p name name' → name' = name

theorem allKnown_nil : AllKnown known [] := List.forall_mem_nil _

namespace Kinship.Settles

variable (h : K.Settles good known σ)

include h

theorem named {name name' : Ident} (hp : good p) (hname : K.Named p name name') :
    name' = name.respan σ := by
  obtain ⟨text, span⟩ := name
  obtain ⟨text', span'⟩ := name'
  obtain rfl : text' = text := hname.text
  obtain rfl := h.span p _ _ hp hname.span
  rfl

theorem declares {name name' : Ident} (hp : good p) (hname : K.Declares p name name') :
    name' = name.respan σ :=
  h.named hp ⟨h.declare p _ _ hp hname.text, hname.span⟩

theorem uses {target target' : Reference} (hp : good p) (huse : K.Uses p target target') :
    target' = target.respan σ ∧ known target.id := by
  obtain ⟨hid, htext, hknown⟩ := h.use p _ _ _ _ hp huse.text
  have hname := h.named hp ⟨htext, huse.span⟩
  obtain ⟨id, name⟩ := target
  obtain ⟨id', name'⟩ := target'
  obtain rfl : id' = id := hid
  obtain rfl : name' = name.respan σ := hname
  exact ⟨rfl, hknown⟩

theorem params {names names' : List Ident} (hp : good p)
    (hnames : List.Forall₂ (K.Declares p) names names') : names' = names.map (Ident.respan σ) := by
  induction hnames with
  | nil => rfl
  | cons hname _ ih => rw [List.map_cons, ← h.declares hp hname, ← ih]

end Kinship.Settles

theorem AllKnown.before_expr {e : Expr} (h : AllKnown known (Nodes.expr [] e))
    (hids : AllKnown known ids) : AllKnown known (Nodes.expr ids e) := by
  rw [Nodes.expr_append]
  exact allKnown_append.mpr ⟨h, hids⟩

theorem AllKnown.before_stmt {s : Stmt} (h : AllKnown known (Nodes.stmt [] s))
    (hids : AllKnown known ids) : AllKnown known (Nodes.stmt ids s) := by
  rw [Nodes.stmt_append]
  exact allKnown_append.mpr ⟨h, hids⟩

theorem AllKnown.before_lambda {fn : Lambda} (h : AllKnown known (Nodes.lambda [] fn))
    (hids : AllKnown known ids) : AllKnown known (Nodes.lambda ids fn) := by
  rw [Nodes.lambda_append]
  exact allKnown_append.mpr ⟨h, hids⟩

mutual

theorem respan_of_kin_expr (h : K.Settles good known σ) : ∀ (e : Expr) {p : K.Place} {e' : Expr},
    good p → KinExpr K p e e' → e' = Respan.expr σ e ∧ AllKnown known (Nodes.expr [] e)
  | .literal .., _, _, hp, hkin => by
    cases hkin with
    | literal hspan => exact ⟨by rw [h.span _ _ _ hp hspan]; rfl, allKnown_nil⟩
  | .grouping inner _, _, _, hp, hkin => by
    cases hkin with
    | grouping hkin hspan =>
      obtain ⟨rfl, hk⟩ := respan_of_kin_expr h inner hp hkin
      exact ⟨by rw [h.span _ _ _ hp hspan]; rfl, hk⟩
  | .unary _ _ operand, _, _, hp, hkin => by
    cases hkin with
    | unary hspan hkin =>
      obtain ⟨rfl, hk⟩ := respan_of_kin_expr h operand hp hkin
      exact ⟨by rw [h.span _ _ _ hp hspan]; rfl, hk⟩
  | .binary left _ _ right, _, _, hp, hkin => by
    cases hkin with
    | binary hleft hspan hright =>
      obtain ⟨rfl, hk⟩ := respan_of_kin_expr h left hp hleft
      obtain ⟨rfl, hk'⟩ := respan_of_kin_expr h right hp hright
      exact ⟨by rw [h.span _ _ _ hp hspan]; rfl, hk.before_expr hk'⟩
  | .logical left _ _ right, _, _, hp, hkin => by
    cases hkin with
    | logical hleft hspan hright =>
      obtain ⟨rfl, hk⟩ := respan_of_kin_expr h left hp hleft
      obtain ⟨rfl, hk'⟩ := respan_of_kin_expr h right hp hright
      exact ⟨by rw [h.span _ _ _ hp hspan]; rfl, hk.before_expr hk'⟩
  | .var _, _, _, hp, hkin => by
    cases hkin with
    | var huse =>
      obtain ⟨rfl, hid⟩ := h.uses hp huse
      exact ⟨rfl, allKnown_cons.mpr ⟨hid, allKnown_nil⟩⟩
  | .assign _ value, _, _, hp, hkin => by
    cases hkin with
    | assign huse hkin =>
      obtain ⟨rfl, hid⟩ := h.uses hp huse
      obtain ⟨rfl, hk⟩ := respan_of_kin_expr h value hp hkin
      exact ⟨rfl, allKnown_cons.mpr ⟨hid, hk⟩⟩
  | .call callee _ arguments, _, _, hp, hkin => by
    cases hkin with
    | call hcallee hspan harguments =>
      obtain ⟨rfl, hk⟩ := respan_of_kin_expr h callee hp hcallee
      obtain ⟨rfl, hk'⟩ := respan_of_kin_exprs h arguments hp harguments
      exact ⟨by rw [h.span _ _ _ hp hspan]; rfl, hk.before_expr hk'⟩
  | .get object _, _, _, hp, hkin => by
    cases hkin with
    | get hobject hname =>
      obtain ⟨rfl, hk⟩ := respan_of_kin_expr h object hp hobject
      exact ⟨by rw [h.named hp hname]; rfl, hk⟩
  | .set object _ value, _, _, hp, hkin => by
    cases hkin with
    | set hobject hname hvalue =>
      obtain ⟨rfl, hk⟩ := respan_of_kin_expr h object hp hobject
      obtain ⟨rfl, hk'⟩ := respan_of_kin_expr h value hp hvalue
      exact ⟨by rw [h.named hp hname]; rfl, hk.before_expr hk'⟩
  | .this .., _, _, hp, hkin => by
    cases hkin with
    | this huse hspan =>
      obtain ⟨rfl, -, hknown⟩ := h.use _ _ _ _ _ hp huse
      exact ⟨by rw [h.span _ _ _ hp hspan]; rfl, allKnown_cons.mpr ⟨hknown, allKnown_nil⟩⟩
  | .super .., _, _, hp, hkin => by
    cases hkin with
    | super huse hspan hmethod =>
      obtain ⟨rfl, -, hknown⟩ := h.use _ _ _ _ _ hp huse
      exact ⟨by rw [h.span _ _ _ hp hspan, h.named hp hmethod]; rfl,
        allKnown_cons.mpr ⟨hknown, allKnown_nil⟩⟩
  | .lambda fn, _, _, hp, hkin => by
    cases hkin with
    | lambda hkin =>
      obtain ⟨rfl, hk⟩ := respan_of_kin_lambda h fn hp hkin
      exact ⟨rfl, hk⟩

theorem respan_of_kin_exprs (h : K.Settles good known σ) : ∀ (es : List Expr) {p : K.Place}
    {es' : List Expr}, good p → KinExprs K p es es' →
    es' = Respan.exprs σ es ∧ AllKnown known (Nodes.exprs [] es)
  | [], _, _, _, hkin => by
    cases hkin
    exact ⟨rfl, allKnown_nil⟩
  | e :: es, _, _, hp, hkin => by
    cases hkin with
    | cons hhead htail =>
      obtain ⟨rfl, hk⟩ := respan_of_kin_expr h e hp hhead
      obtain ⟨rfl, hk'⟩ := respan_of_kin_exprs h es hp htail
      exact ⟨rfl, hk.before_expr hk'⟩

theorem respan_of_kin_lambda (h : K.Settles good known σ) : ∀ (fn : Lambda) {p : K.Place}
    {fn' : Lambda}, good p → KinLambda K p fn fn' →
    fn' = Respan.lambda σ fn ∧ AllKnown known (Nodes.lambda [] fn)
  | ⟨params, body, _⟩, _, _, hp, hkin => by
    cases hkin with
    | mk hinside hparams hbody hspan =>
      have hq := h.inside _ _ hp hinside
      obtain ⟨rfl, hk⟩ := respan_of_kin_stmts h body hq hbody
      exact ⟨by rw [h.params hq hparams, h.span _ _ _ hp hspan]; rfl, hk⟩

theorem respan_of_kin_stmt (h : K.Settles good known σ) : ∀ (s : Stmt) {p : K.Place} {s' : Stmt},
    good p → KinStmt K p s s' → s' = Respan.stmt σ s ∧ AllKnown known (Nodes.stmt [] s)
  | .expression value, _, _, hp, hkin => by
    cases hkin with
    | expression hkin =>
      obtain ⟨rfl, hk⟩ := respan_of_kin_expr h value hp hkin
      exact ⟨rfl, hk⟩
  | .print value, _, _, hp, hkin => by
    cases hkin with
    | print hkin =>
      obtain ⟨rfl, hk⟩ := respan_of_kin_expr h value hp hkin
      exact ⟨rfl, hk⟩
  | .var _ none, _, _, hp, hkin => by
    cases hkin with
    | declaration hname =>
      obtain rfl := h.declares hp hname
      exact ⟨rfl, allKnown_nil⟩
  | .var _ (some value), _, _, hp, hkin => by
    cases hkin with
    | definition hname hkin =>
      obtain rfl := h.declares hp hname
      obtain ⟨rfl, hk⟩ := respan_of_kin_expr h value hp hkin
      exact ⟨rfl, hk⟩
  | .block body, _, _, hp, hkin => by
    cases hkin with
    | block hinside hkin =>
      obtain ⟨rfl, hk⟩ := respan_of_kin_stmts h body (h.inside _ _ hp hinside) hkin
      exact ⟨rfl, hk⟩
  | .ifElse condition thenBranch none, _, _, hp, hkin => by
    cases hkin with
    | ifThen hcondition hbody =>
      obtain ⟨rfl, hk⟩ := respan_of_kin_expr h condition hp hcondition
      obtain ⟨rfl, hk'⟩ := respan_of_kin_stmt h thenBranch hp hbody
      exact ⟨rfl, hk.before_expr hk'⟩
  | .ifElse condition thenBranch (some elseBranch), _, _, hp, hkin => by
    cases hkin with
    | ifElse hcondition hbody hother =>
      obtain ⟨rfl, hk⟩ := respan_of_kin_expr h condition hp hcondition
      obtain ⟨rfl, hk'⟩ := respan_of_kin_stmt h thenBranch hp hbody
      obtain ⟨rfl, hk''⟩ := respan_of_kin_stmt h elseBranch hp hother
      exact ⟨rfl, hk.before_expr (hk'.before_stmt hk'')⟩
  | .while_ condition body, _, _, hp, hkin => by
    cases hkin with
    | while_ hcondition hbody =>
      obtain ⟨rfl, hk⟩ := respan_of_kin_expr h condition hp hcondition
      obtain ⟨rfl, hk'⟩ := respan_of_kin_stmt h body hp hbody
      exact ⟨rfl, hk.before_expr hk'⟩
  | .break_ _, _, _, hp, hkin => by
    cases hkin with
    | break_ hspan => exact ⟨by rw [h.span _ _ _ hp hspan]; rfl, allKnown_nil⟩
  | .return_ _ none, _, _, hp, hkin => by
    cases hkin with
    | returnNil hspan => exact ⟨by rw [h.span _ _ _ hp hspan]; rfl, allKnown_nil⟩
  | .return_ _ (some value), _, _, hp, hkin => by
    cases hkin with
    | return_ hspan hkin =>
      obtain ⟨rfl, hk⟩ := respan_of_kin_expr h value hp hkin
      exact ⟨by rw [h.span _ _ _ hp hspan]; rfl, hk⟩
  | .function _ fn, _, _, hp, hkin => by
    cases hkin with
    | function hname _ hkin =>
      obtain rfl := h.declares hp hname
      obtain ⟨rfl, hk⟩ := respan_of_kin_lambda h fn hp hkin
      exact ⟨rfl, hk⟩
  | .class_ _ none declared, _, _, hp, hkin => by
    cases hkin with
    | class_ hname _ hmethods =>
      obtain rfl := h.declares hp hname
      obtain ⟨rfl, hk⟩ := respan_of_kin_methods h declared hp hmethods
      exact ⟨rfl, hk⟩
  | .class_ _ (some _) declared, _, _, hp, hkin => by
    cases hkin with
    | subclass hname _ huse hinside hmethods =>
      obtain rfl := h.declares hp hname
      obtain ⟨rfl, hid⟩ := h.uses hp huse
      obtain ⟨rfl, hk⟩ := respan_of_kin_methods h declared (h.inside _ _ hp hinside) hmethods
      exact ⟨rfl, allKnown_cons.mpr ⟨hid, hk⟩⟩

theorem respan_of_kin_stmts (h : K.Settles good known σ) : ∀ (ss : List Stmt) {p : K.Place}
    {ss' : List Stmt}, good p → KinStmts K p ss ss' →
    ss' = Respan.stmts σ ss ∧ AllKnown known (Nodes.stmts [] ss)
  | [], _, _, _, hkin => by
    cases hkin
    exact ⟨rfl, allKnown_nil⟩
  | s :: ss, _, _, hp, hkin => by
    cases hkin with
    | cons hhead htail =>
      obtain ⟨rfl, hk⟩ := respan_of_kin_stmt h s hp hhead
      obtain ⟨rfl, hk'⟩ := respan_of_kin_stmts h ss hp htail
      exact ⟨rfl, hk.before_stmt hk'⟩

theorem respan_of_kin_methods (h : K.Settles good known σ) : ∀ (ms : List Method) {p : K.Place}
    {ms' : List Method}, good p → KinMethods K p ms ms' →
    ms' = Respan.methods σ ms ∧ AllKnown known (Nodes.methods [] ms)
  | [], _, _, _, hkin => by
    cases hkin
    exact ⟨rfl, allKnown_nil⟩
  | ⟨_, fn⟩ :: ms, _, _, hp, hkin => by
    cases hkin with
    | cons hname hinside hkin htail =>
      obtain rfl := h.named hp hname
      obtain ⟨rfl, hk⟩ := respan_of_kin_lambda h fn (h.inside _ _ hp hinside) hkin
      obtain ⟨rfl, hk'⟩ := respan_of_kin_methods h ms hp htail
      exact ⟨rfl, hk.before_lambda hk'⟩

end

end Lox.Twin
