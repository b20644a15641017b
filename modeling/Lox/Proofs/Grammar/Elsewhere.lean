import Lox.Proofs.Grammar.Derivation
import Lox.Proofs.Syntax.Respan
import Lox.Proofs.Token.Seam

/-! # Derivations elsewhere in a text

Tokens that stand elsewhere derive the same trees but for their spans: the grammar
looks at spans only to put them into trees and to cover several of them by one. -/

namespace Lox

theorem Span.later_cover (k : Nat) (a b : Span) :
    (a.cover b).later k = (a.later k).cover (b.later k) := by
  simp only [Span.cover, Span.later, Nat.add_min_add_right, Nat.add_max_add_right]

namespace Grammar

variable (σ : Span → Span)

/-- A phrase after a tree that stands elsewhere. -/
def Phrase.respan : Phrase → Phrase
  | .closure start => .closure (σ start)
  | .chain level left => .chain level (Respan.expr σ left)
  | .suffixes callee => .suffixes (Respan.expr σ callee)
  | phrase => phrase

/-- The tree of a phrase with other spans. -/
def Phrase.move : (phrase : Phrase) → phrase.Tree → (phrase.respan σ).Tree
  | .declarations, ss => Respan.stmts σ ss
  | .declaration, s => Respan.stmt σ s
  | .classDeclaration, s => Respan.stmt σ s
  | .varDeclaration, s => Respan.stmt σ s
  | .statement _, s => Respan.stmt σ s
  | .statementBody _, s => Respan.stmt σ s
  | .expressionStatement, s => Respan.stmt σ s
  | .printStatement, s => Respan.stmt σ s
  | .ifStatement _, s => Respan.stmt σ s
  | .whileStatement _, s => Respan.stmt σ s
  | .forStatement _, s => Respan.stmt σ s
  | .breakStatement, s => Respan.stmt σ s
  | .returnStatement, s => Respan.stmt σ s
  | .methods, ms => Respan.methods σ ms
  | .function, m => ⟨m.name.respan σ, Respan.lambda σ m.fn⟩
  | .closure _, fn => Respan.lambda σ fn
  | .block, b => (Respan.stmts σ b.1, σ b.2)
  | .initializer, s => Option.map (Respan.stmt σ) s
  | .optionalExpression, e => Option.map (Respan.expr σ) e
  | .argumentList, es => Respan.exprs σ es
  | .arguments, es => Respan.exprs σ es
  | .expression, e => Respan.expr σ e
  | .assignment, e => Respan.expr σ e
  | .operation _, e => Respan.expr σ e
  | .chain _ _, e => Respan.expr σ e
  | .operand _, e => Respan.expr σ e
  | .unary, e => Respan.expr σ e
  | .call, e => Respan.expr σ e
  | .suffixes _, e => Respan.expr σ e
  | .primary, e => Respan.expr σ e

variable {σ} {n n' : Nat} {ts : List Token}

theorem Names.respan {names : List Ident} (h : Names ts names) :
    Names (ts.map (Token.respan σ)) (names.map (Ident.respan σ)) := by
  induction h with
  | last name => exact .last name
  | more name comma _ ih => exact .more name comma ih

theorem Parameters.respan {params : List Ident} (h : Parameters ts params) :
    Parameters (ts.map (Token.respan σ)) (params.map (Ident.respan σ)) := by
  cases h with
  | none => exact .none
  | some list => exact .some list.respan

theorem Superclass.respan {parent : Option Reference} (h : Superclass n ts parent n') :
    Superclass n (ts.map (Token.respan σ)) (parent.map (Reference.respan σ)) n' := by
  cases h with
  | none => exact .none
  | some less name => exact .some less name

theorem respan_class (name : Ident) (parent : Option Reference) (ms : List Method) :
    Respan.stmt σ (.class_ name parent ms) =
      .class_ (name.respan σ) (parent.map (Reference.respan σ)) (Respan.methods σ ms) := by
  cases parent <;> rfl

theorem respan_return (keyword : Span) (value : Option Expr) :
    Respan.stmt σ (.return_ keyword value) =
      .return_ (σ keyword) (value.map (Respan.expr σ)) := by
  cases value <;> rfl

theorem respan_methods (m : Method) (ms : List Method) : Respan.methods σ (m :: ms) =
    ⟨m.name.respan σ, Respan.lambda σ m.fn⟩ :: Respan.methods σ ms := by
  cases m
  rfl

theorem respan_apply (op : Operator) (left : Expr) (span : Span) (right : Expr) :
    Respan.expr σ (op.apply left span right) =
      op.apply (Respan.expr σ left) (σ span) (Respan.expr σ right) := by
  cases op <;> rfl

theorem respan_desugarFor (k : Span) (i : Option Stmt) (c j : Option Expr) (s : Stmt) :
    Respan.stmt σ (desugarFor k i c j s) = desugarFor (σ k) (i.map (Respan.stmt σ))
      (c.map (Respan.expr σ)) (j.map (Respan.expr σ)) (Respan.stmt σ s) := by
  cases i <;> cases c <;> cases j <;> rfl

theorem length_respan_exprs (es : List Expr) : (Respan.exprs σ es).length = es.length := by
  induction es with
  | nil => rfl
  | cons e es ih => exact congrArg (· + 1) ih

variable {phrase : Phrase} {p : Place}

/-- What tokens derive, they derive elsewhere. -/
theorem Derives.respan {a : phrase.Tree} (h : Derives phrase p n ts a n')
    (hcover : ∀ a b, σ (Span.cover a b) = (σ a).cover (σ b)) :
    Derives (phrase.respan σ) p n (ts.map (Token.respan σ)) (phrase.move σ a) n' := by
  induction h with
  | noDeclaration => exact .noDeclaration
  | declarations _ _ ihfirst ihrest =>
    rw [List.map_append]
    exact .declarations ihfirst ihrest
  | classDeclaration _ ih => exact .classDeclaration ih
  | @function _ _ k _ _ _ keyword _ ih => exact .function (k := k.respan σ) keyword ih
  | varDeclaration _ ih => exact .varDeclaration ih
  | statement _ ih => exact .statement ih
  | @class_ _ _ k t _ parent _ l _ ms _ r keyword name superclass opening _ closing ih =>
    have hclass := Derives.class_ (k := k.respan σ) (t := t.respan σ) (l := l.respan σ)
      (r := r.respan σ) keyword name (superclass.respan (σ := σ)) opening ih closing
    simp only [List.map_cons, List.map_append, List.map_nil]
    show Derives .classDeclaration _ _ _ (Respan.stmt σ (.class_ t.ident parent ms)) _
    rw [respan_class]
    exact hclass
  | noMethod => exact .noMethod
  | @methods _ _ _ m _ _ ms _ _ _ ihfirst ihrest =>
    rw [List.map_append]
    show Derives .methods _ _ _ (Respan.methods σ (m :: ms)) _
    rw [respan_methods]
    exact .methods ihfirst ihrest
  | @named _ _ t _ _ _ name _ ih => exact .named (t := t.respan σ) name ih
  | @closure _ _ start l _ params r _ b _ opening parameters few closing _ ih =>
    have hfew : (params.map (Ident.respan σ)).length ≤ maxArity := by
      rw [List.length_map]
      exact few
    simp only [List.map_cons, List.map_append]
    show Derives (.closure (σ start)) _ _ _ (Respan.lambda σ ⟨params, b.1, start.cover b.2⟩) _
    rw [Respan.lambda, hcover]
    exact .closure (l := l.respan σ) (r := r.respan σ) opening parameters.respan hfew closing ih
  | @braces _ _ l _ _ _ r room opening _ closing ih =>
    simp only [List.map_cons, List.map_append, List.map_nil]
    exact .braces (l := l.respan σ) (r := r.respan σ) room opening ih closing
  | @uninitialized _ _ k t e keyword name ending =>
    exact .uninitialized (k := k.respan σ) (t := t.respan σ) (e := e.respan σ) keyword name ending
  | @initialized _ _ k t q _ _ _ e keyword name equal _ ending ih =>
    simp only [List.map_cons, List.map_append, List.map_nil]
    exact .initialized (k := k.respan σ) (t := t.respan σ) (q := q.respan σ) (e := e.respan σ)
      keyword name equal ih ending
  | nested room _ ih => exact .nested room ih
  | expressionStatement _ ih => exact .expressionStatement ih
  | printStatement _ ih => exact .printStatement ih
  | ifStatement _ ih => exact .ifStatement ih
  | whileStatement _ ih => exact .whileStatement ih
  | forStatement _ ih => exact .forStatement ih
  | breakStatement _ ih => exact .breakStatement ih
  | returnStatement _ ih => exact .returnStatement ih
  | block _ ih => exact .block ih
  | @print _ _ k _ _ _ e keyword _ ending ih =>
    simp only [List.map_cons, List.map_append, List.map_nil]
    exact .print (k := k.respan σ) (e := e.respan σ) keyword ih ending
  | @ifThen _ _ k l _ _ _ r _ _ _ _ keyword opening _ closing _ ihcondition ihbranch =>
    simp only [List.map_cons, List.map_append]
    exact .ifThen (k := k.respan σ) (l := l.respan σ) (r := r.respan σ) keyword opening ihcondition
      closing ihbranch
  | @ifElse _ _ k l _ _ _ r _ _ _ x _ _ _ _ keyword opening _ closing _ otherwise _ ihcondition
      ihthen ihelse =>
    simp only [List.map_cons, List.map_append]
    exact .ifElse (k := k.respan σ) (l := l.respan σ) (r := r.respan σ) (x := x.respan σ) keyword
      opening ihcondition closing ihthen otherwise ihelse
  | @while_ _ _ k l _ _ _ r _ _ _ _ keyword opening _ closing _ ihcondition ihbody =>
    simp only [List.map_cons, List.map_append]
    exact .while_ (k := k.respan σ) (l := l.respan σ) (r := r.respan σ) keyword opening ihcondition
      closing ihbody
  | @for_ _ _ k l _ i _ _ c _ e _ j _ r _ _ s _ keyword opening _ _ ending _ closing _ ihstart
      ihcondition ihstep ihbody =>
    have hfor := Derives.for_ (k := k.respan σ) (l := l.respan σ) (e := e.respan σ)
      (r := r.respan σ) keyword opening ihstart ihcondition ending ihstep closing ihbody
    simp only [List.map_cons, List.map_append]
    show Derives (.forStatement _) _ _ _ (Respan.stmt σ (desugarFor k.span i c j s)) _
    rw [respan_desugarFor]
    exact hfor
  | @break_ _ _ k e keyword inside ending =>
    exact .break_ (k := k.respan σ) (e := e.respan σ) keyword inside ending
  | @return_ _ _ k _ v _ e keyword _ ending ih =>
    simp only [List.map_cons, List.map_append, List.map_nil]
    show Derives .returnStatement _ _ _ (Respan.stmt σ (.return_ k.span v)) _
    rw [respan_return]
    exact .return_ (k := k.respan σ) (e := e.respan σ) keyword ih ending
  | @terminated _ _ _ _ _ e _ ending ih =>
    rw [List.map_append]
    exact .terminated (e := e.respan σ) ih ending
  | @noInitializer _ _ e ending => exact .noInitializer (e := e.respan σ) ending
  | declaring _ ih => exact .declaring ih
  | evaluating _ ih => exact .evaluating ih
  | noExpression => exact .noExpression
  | someExpression _ ih => exact .someExpression ih
  | expression room _ ih => exact .expression room ih
  | @assign _ _ t q _ _ _ name equal _ ih =>
    exact .assign (t := t.respan σ) (q := q.respan σ) name equal ih
  | @set _ _ _ _ _ d t q _ _ _ _ dot name equal _ ihobject ihvalue =>
    simp only [List.map_cons, List.map_append]
    exact .set (d := d.respan σ) (t := t.respan σ) (q := q.respan σ) ihobject dot name equal ihvalue
  | operators _ ih => exact .operators ih
  | operation _ _ ihfirst ihrest =>
    rw [List.map_append]
    exact .operation ihfirst ihrest
  | noOperator => exact .noOperator
  | @operator _ _ _ left t op _ e _ _ _ _ operator _ _ ihright ihrest =>
    have hrest : Derives (.chain _ (Respan.expr σ (op.apply left t.span e))) _ _ _ _ _ := ihrest
    rw [respan_apply] at hrest
    simp only [List.map_cons, List.map_append]
    exact .operator (t := t.respan σ) operator ihright hrest
  | tighter next _ ih => exact .tighter next ih
  | tightest last _ ih => exact .tightest last ih
  | @unary _ _ t _ _ _ _ operator room _ ih => exact .unary (t := t.respan σ) operator room ih
  | noUnary _ ih => exact .noUnary ih
  | call _ _ ihhead ihrest =>
    rw [List.map_append]
    exact .call ihhead ihrest
  | noSuffix => exact .noSuffix
  | @apply _ _ _ l _ args _ r _ _ _ opening _ few closing _ iharguments ihrest =>
    have hfew : (Respan.exprs σ args).length ≤ maxArity := by
      rw [length_respan_exprs]
      exact few
    simp only [List.map_cons, List.map_append]
    exact .apply (l := l.respan σ) (r := r.respan σ) opening iharguments hfew closing ihrest
  | @get _ _ _ d t _ _ _ dot name _ ih =>
    exact .get (d := d.respan σ) (t := t.respan σ) dot name ih
  | noArguments => exact .noArguments
  | someArguments _ ih => exact .someArguments ih
  | lastArgument _ ih => exact .lastArgument ih
  | @moreArguments _ _ _ _ _ c _ _ _ _ comma _ ihvalue ihrest =>
    simp only [List.map_cons, List.map_append]
    exact .moreArguments (c := c.respan σ) ihvalue comma ihrest
  | @literal _ _ t _ literal => exact .literal (t := t.respan σ) literal
  | @var _ _ t name => exact .var (t := t.respan σ) name
  | @grouping _ _ l _ e _ r opening _ closing ih =>
    simp only [List.map_cons, List.map_append, List.map_nil]
    show Derives .primary _ _ _ (Respan.expr σ (.grouping e (l.span.cover r.span))) _
    rw [Respan.expr, hcover]
    exact .grouping (l := l.respan σ) (r := r.respan σ) opening ih closing
  | @this _ _ k keyword => exact .this (k := k.respan σ) keyword
  | @super _ _ k d t keyword dot name =>
    exact .super (k := k.respan σ) (d := d.respan σ) (t := t.respan σ) keyword dot name
  | @lambda _ _ k _ _ _ keyword _ ih => exact .lambda (k := k.respan σ) keyword ih

/-- Declarations after declarations. -/
theorem Derives.append {us : List Token} {n'' : Nat} {ss ss' : List Stmt}
    (h : Derives .declarations p n ts ss n') (h' : Derives .declarations p n' us ss' n'') :
    Derives .declarations p n (ts ++ us) (ss ++ ss') n'' := by
  induction ss generalizing ts n with
  | nil =>
    cases h
    exact h'
  | cons s ss ih =>
    cases h with
    | declarations hfirst hrest =>
      rw [List.append_assoc]
      exact .declarations hfirst (ih hrest)

end Grammar
end Lox
