import Lox.Proofs.Grammar.Elsewhere

/-! # The spans in a derived tree

Every span in the tree of a phrase is that of a token, or covers those of two
tokens. It is said through ways of moving spans: one that moves neither the spans
of the tokens nor the covers of two of them leaves the tree as it is. -/

namespace Lox.Grammar

/-- Good spans are not moved, nor are the covers of two of them. -/
structure Pinned (σ : Span → Span) (good : Span → Prop) : Prop where
  one : ∀ a, good a → σ a = a
  cover : ∀ a b, good a → good b → σ (a.cover b) = a.cover b

/-- The tokens stand at good spans. -/
def Sited (good : Span → Prop) (ts : List Token) : Prop := ∀ t ∈ ts, good t.span

variable {σ : Span → Span} {good : Span → Prop} {ts us : List Token} {t : Token} {n n' : Nat}

theorem sited_append : Sited good (ts ++ us) ↔ Sited good ts ∧ Sited good us :=
  List.forall_mem_append

theorem sited_cons : Sited good (t :: ts) ↔ good t.span ∧ Sited good ts := List.forall_mem_cons

/-- The tree of a phrase is not moved. What leans on a tree is not moved if that tree is not. -/
def Phrase.Still (σ : Span → Span) (good : Span → Prop) : (phrase : Phrase) → phrase.Tree → Prop
  | .declarations, ss => Respan.stmts σ ss = ss
  | .declaration, s | .classDeclaration, s | .varDeclaration, s | .statement _, s
  | .statementBody _, s | .expressionStatement, s | .printStatement, s | .ifStatement _, s
  | .whileStatement _, s | .forStatement _, s | .breakStatement, s | .returnStatement, s =>
    Respan.stmt σ s = s
  | .methods, ms => Respan.methods σ ms = ms
  | .function, m => m.name.respan σ = m.name ∧ Respan.lambda σ m.fn = m.fn
  | .closure start, fn => good start → Respan.lambda σ fn = fn
  | .block, b => Respan.stmts σ b.1 = b.1 ∧ good b.2
  | .initializer, s => s.map (Respan.stmt σ) = s
  | .optionalExpression, e => e.map (Respan.expr σ) = e
  | .argumentList, es | .arguments, es => Respan.exprs σ es = es
  | .chain _ left, e => Respan.expr σ left = left → Respan.expr σ e = e
  | .suffixes callee, e => Respan.expr σ callee = callee → Respan.expr σ e = e
  | .expression, e | .assignment, e | .operation _, e | .operand _, e | .unary, e | .call, e
  | .primary, e => Respan.expr σ e = e

namespace Pinned

variable (h : Pinned σ good)

include h

theorem ident (ht : good t.span) : t.ident.respan σ = t.ident := by
  rw [Ident.respan, Token.ident, h.one _ ht]

theorem names {names : List Ident} (hnames : Names ts names) (hts : Sited good ts) :
    names.map (Ident.respan σ) = names := by
  induction hnames with
  | last =>
    rw [List.map_singleton, h.ident (sited_cons.mp hts).1]
  | more _ _ _ ih =>
    simp only [sited_cons] at hts
    rw [List.map_cons, h.ident hts.1, ih hts.2.2]

theorem parameters {params : List Ident} (hparams : Parameters ts params) (hts : Sited good ts) :
    params.map (Ident.respan σ) = params := by
  cases hparams with
  | none => rfl
  | some list => exact h.names list hts

theorem superclass {parent : Option Reference} (hparent : Superclass n ts parent n')
    (hts : Sited good ts) : parent.map (Reference.respan σ) = parent := by
  cases hparent with
  | none => rfl
  | some =>
    simp only [sited_cons] at hts
    rw [Option.map_some, Reference.respan, h.ident hts.2.1]

end Pinned

variable {phrase : Phrase} {p : Place}

/-- A way of moving spans that moves no span of a token and no cover of two of them does not move
the tree. -/
theorem Derives.still {a : phrase.Tree} (h : Derives phrase p n ts a n') (hσ : Pinned σ good) :
    Sited good ts → phrase.Still σ good a := by
  induction h with
  | noDeclaration | noMethod | noArguments | noExpression | noInitializer => exact fun _ => rfl
  | noOperator | noSuffix => exact fun _ => id
  | classDeclaration _ ih | varDeclaration _ ih | statement _ ih | nested _ _ ih
  | expressionStatement _ ih | printStatement _ ih | ifStatement _ ih | whileStatement _ ih
  | forStatement _ ih | breakStatement _ ih | returnStatement _ ih | expression _ _ ih
  | operators _ ih | tighter _ _ ih | tightest _ _ ih | noUnary _ ih | someArguments _ ih => exact ih
  | declaring _ ih | evaluating _ ih | someExpression _ ih =>
    exact fun hts => congrArg some (ih hts)
  | declarations _ _ ihfirst ihrest =>
    intro hts
    rw [sited_append] at hts
    show Respan.stmts σ _ = _
    rw [Respan.stmts, ihfirst hts.1, ihrest hts.2]
  | @function _ _ _ _ m _ _ _ ih =>
    intro hts
    have hm := ih (sited_cons.mp hts).2
    show Respan.stmt σ _ = _
    rw [Respan.stmt, hm.1, hm.2]
  | @class_ _ _ _ t _ parent _ _ _ ms _ _ _ name superclass _ _ _ ih =>
    intro hts
    simp only [sited_cons, sited_append] at hts
    obtain ⟨-, hname, hsuper, -, hmethods, -⟩ := hts
    show Respan.stmt σ (.class_ t.ident parent ms) = _
    rw [respan_class, hσ.ident hname, hσ.superclass superclass hsuper, ih hmethods]
  | @methods _ _ _ m _ _ ms _ _ _ ihfirst ihrest =>
    intro hts
    rw [sited_append] at hts
    obtain ⟨name, fn⟩ := m
    have hfirst : name.respan σ = name ∧ Respan.lambda σ fn = fn := ihfirst hts.1
    show Respan.methods σ (⟨name, fn⟩ :: ms) = _
    rw [Respan.methods, hfirst.1, hfirst.2, ihrest hts.2]
  | named _ _ ih =>
    intro hts
    rw [sited_cons] at hts
    exact ⟨hσ.ident hts.1, ih hts.2 hts.1⟩
  | closure _ parameters _ _ _ ih =>
    intro hts hstart
    simp only [sited_cons, sited_append] at hts
    obtain ⟨-, hparams, -, hbody⟩ := hts
    have hblock := ih hbody
    rw [Respan.lambda, hσ.parameters parameters hparams, hblock.1, hσ.cover _ _ hstart hblock.2]
  | braces _ _ _ _ ih =>
    intro hts
    simp only [sited_cons, sited_append] at hts
    exact ⟨ih hts.2.1, hts.2.2.1⟩
  | uninitialized =>
    intro hts
    simp only [sited_cons] at hts
    show Respan.stmt σ _ = _
    rw [Respan.stmt, hσ.ident hts.2.1]
  | initialized _ _ _ _ _ ih =>
    intro hts
    simp only [sited_cons, sited_append] at hts
    show Respan.stmt σ _ = _
    rw [Respan.stmt, hσ.ident hts.2.1, ih hts.2.2.2.1]
  | block _ ih =>
    intro hts
    show Respan.stmt σ _ = _
    rw [Respan.stmt, (ih hts).1]
  | print _ _ _ ih =>
    intro hts
    simp only [sited_cons, sited_append] at hts
    show Respan.stmt σ _ = _
    rw [Respan.stmt, ih hts.2.1]
  | ifThen _ _ _ _ _ ihcondition ihbranch =>
    intro hts
    simp only [sited_cons, sited_append] at hts
    show Respan.stmt σ _ = _
    rw [Respan.stmt, ihcondition hts.2.2.1, ihbranch hts.2.2.2.2]
  | ifElse _ _ _ _ _ _ _ ihcondition ihthen ihelse =>
    intro hts
    simp only [sited_cons, sited_append] at hts
    obtain ⟨-, -, hcondition, -, hthen, -, helse⟩ := hts
    show Respan.stmt σ _ = _
    rw [Respan.stmt, ihcondition hcondition, ihthen hthen, ihelse helse]
  | while_ _ _ _ _ _ ihcondition ihbody =>
    intro hts
    simp only [sited_cons, sited_append] at hts
    show Respan.stmt σ _ = _
    rw [Respan.stmt, ihcondition hts.2.2.1, ihbody hts.2.2.2.2]
  | @for_ _ _ k _ _ i _ _ c _ _ _ j _ _ _ _ s _ _ _ _ _ _ _ _ _ ihstart ihcondition ihstep
      ihbody =>
    intro hts
    simp only [sited_cons, sited_append] at hts
    obtain ⟨hk, -, hstart, hcondition, -, hstep, -, hbody⟩ := hts
    show Respan.stmt σ (desugarFor k.span i c j s) = _
    rw [respan_desugarFor, hσ.one _ hk, ihstart hstart, ihcondition hcondition, ihstep hstep,
      ihbody hbody]
  | break_ =>
    intro hts
    show Respan.stmt σ _ = _
    rw [Respan.stmt, hσ.one _ (sited_cons.mp hts).1]
  | @return_ _ _ k _ v _ _ _ _ _ ih =>
    intro hts
    simp only [sited_cons, sited_append] at hts
    show Respan.stmt σ (.return_ k.span v) = _
    rw [respan_return, hσ.one _ hts.1, ih hts.2.1]
  | terminated _ _ ih =>
    intro hts
    show Respan.stmt σ _ = _
    rw [Respan.stmt, ih (sited_append.mp hts).1]
  | assign _ _ _ ih =>
    intro hts
    simp only [sited_cons] at hts
    show Respan.expr σ _ = _
    rw [Respan.expr, Reference.respan, hσ.ident hts.1, ih hts.2.2]
  | set _ _ _ _ _ ihobject ihvalue =>
    intro hts
    simp only [sited_cons, sited_append] at hts
    obtain ⟨hobject, -, hname, -, hvalue⟩ := hts
    show Respan.expr σ _ = _
    rw [Respan.expr, ihobject hobject, hσ.ident hname, ihvalue hvalue]
  | operation _ _ ihfirst ihrest | call _ _ ihfirst ihrest =>
    intro hts
    rw [sited_append] at hts
    exact ihrest hts.2 (ihfirst hts.1)
  | operator _ _ _ ihright ihrest =>
    intro hts hleft
    simp only [sited_cons, sited_append] at hts
    refine ihrest hts.2.2 ?_
    rw [respan_apply, hleft, hσ.one _ hts.1, ihright hts.2.1]
  | unary _ _ _ ih =>
    intro hts
    rw [sited_cons] at hts
    show Respan.expr σ _ = _
    rw [Respan.expr, hσ.one _ hts.1, ih hts.2]
  | apply _ _ _ _ _ ihargs ihrest =>
    intro hts hcallee
    simp only [sited_cons, sited_append] at hts
    refine ihrest hts.2.2.2 ?_
    rw [Respan.expr, hcallee, hσ.one _ hts.2.2.1, ihargs hts.2.1]
  | get _ _ _ ih =>
    intro hts hcallee
    simp only [sited_cons] at hts
    refine ih hts.2.2 ?_
    rw [Respan.expr, hcallee, hσ.ident hts.2.1]
  | lastArgument _ ih =>
    intro hts
    show Respan.exprs σ _ = _
    rw [Respan.exprs, Respan.exprs, ih hts]
  | moreArguments _ _ _ ihvalue ihrest =>
    intro hts
    simp only [sited_cons, sited_append] at hts
    show Respan.exprs σ _ = _
    rw [Respan.exprs, ihvalue hts.1, ihrest hts.2.2]
  | literal =>
    intro hts
    show Respan.expr σ _ = _
    rw [Respan.expr, hσ.one _ (sited_cons.mp hts).1]
  | var =>
    intro hts
    show Respan.expr σ _ = _
    rw [Respan.expr, Reference.respan, hσ.ident (sited_cons.mp hts).1]
  | grouping _ _ _ ih =>
    intro hts
    simp only [sited_cons, sited_append] at hts
    show Respan.expr σ _ = _
    rw [Respan.expr, ih hts.2.1, hσ.cover _ _ hts.1 hts.2.2.1]
  | this =>
    intro hts
    show Respan.expr σ _ = _
    rw [Respan.expr, hσ.one _ (sited_cons.mp hts).1]
  | super =>
    intro hts
    simp only [sited_cons] at hts
    show Respan.expr σ _ = _
    rw [Respan.expr, hσ.one _ hts.1, hσ.ident hts.2.2.1]
  | lambda _ _ ih =>
    intro hts
    rw [sited_cons] at hts
    show Respan.expr σ _ = _
    rw [Respan.expr, ih hts.2 hts.1]

end Lox.Grammar
