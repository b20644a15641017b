import Lox.Proofs.Grammar.Derivation

/-! # Derivations at other places

A place asks two things of what is written there: that its nesting fits under the
limit, and that a `break` has a loop around it. What fits at one place fits at
every place that asks no more. -/

namespace Lox.Grammar

/-- A place that asks no more than another one: at most as deep, and in a loop if the other is. -/
structure Place.Admits (q p : Place) : Prop where
  depth : q.depth ≤ p.depth
  inLoop : p.inLoop = true → q.inLoop = true

namespace Place.Admits

variable {p q : Place}

theorem top_deeper : Place.top.Admits Place.top.deeper := ⟨Nat.zero_le 1, id⟩

theorem deeper (h : q.Admits p) : q.deeper.Admits p.deeper :=
  ⟨Nat.succ_le_succ h.depth, h.inLoop⟩

theorem loop (h : q.Admits p) : q.loop.Admits p.loop := ⟨h.depth, id⟩

theorem function (h : q.Admits p) : q.function.Admits p.function := ⟨h.depth, id⟩

theorem room (h : q.Admits p) (hroom : p.depth < maxNesting) : q.depth < maxNesting :=
  Nat.lt_of_le_of_lt h.depth hroom

end Place.Admits

variable {phrase : Phrase} {p : Place} {n n' : Nat} {ts : List Token}

/-- What tokens derive at a place, they derive at every place that asks no more. -/
theorem Derives.admitted {a : phrase.Tree} (h : Derives phrase p n ts a n') :
    ∀ {q : Place}, q.Admits p → Derives phrase q n ts a n' := by
  induction h with
  | noDeclaration => intro q _; exact .noDeclaration
  | declarations _ _ ihfirst ihrest => intro q hq; exact .declarations (ihfirst hq) (ihrest hq)
  | classDeclaration _ ih => intro q hq; exact .classDeclaration (ih hq)
  | function keyword _ ih => intro q hq; exact .function keyword (ih hq)
  | varDeclaration _ ih => intro q hq; exact .varDeclaration (ih hq)
  | statement _ ih => intro q hq; exact .statement (ih hq)
  | class_ keyword name superclass opening _ closing ih =>
    intro q hq
    exact .class_ keyword name superclass opening (ih hq) closing
  | noMethod => intro q _; exact .noMethod
  | methods _ _ ihfirst ihrest => intro q hq; exact .methods (ihfirst hq) (ihrest hq)
  | named name _ ih => intro q hq; exact .named name (ih hq)
  | closure opening parameters few closing _ ih =>
    intro q hq
    exact .closure opening parameters few closing (ih hq.function)
  | braces room opening _ closing ih =>
    intro q hq
    exact .braces (hq.room room) opening (ih hq.deeper) closing
  | uninitialized keyword name ending => intro q _; exact .uninitialized keyword name ending
  | initialized keyword name equal _ ending ih =>
    intro q hq
    exact .initialized keyword name equal (ih hq) ending
  | nested room _ ih => intro q hq; exact .nested (hq.room room) (ih hq.deeper)
  | expressionStatement _ ih => intro q hq; exact .expressionStatement (ih hq)
  | printStatement _ ih => intro q hq; exact .printStatement (ih hq)
  | ifStatement _ ih => intro q hq; exact .ifStatement (ih hq)
  | whileStatement _ ih => intro q hq; exact .whileStatement (ih hq)
  | forStatement _ ih => intro q hq; exact .forStatement (ih hq)
  | breakStatement _ ih => intro q hq; exact .breakStatement (ih hq)
  | returnStatement _ ih => intro q hq; exact .returnStatement (ih hq)
  | block _ ih => intro q hq; exact .block (ih hq)
  | print keyword _ ending ih => intro q hq; exact .print keyword (ih hq) ending
  | ifThen keyword opening _ closing _ ihcondition ihbranch =>
    intro q hq
    exact .ifThen keyword opening (ihcondition hq) closing (ihbranch hq)
  | ifElse keyword opening _ closing _ otherwise _ ihcondition ihthen ihelse =>
    intro q hq
    exact .ifElse keyword opening (ihcondition hq) closing (ihthen hq) otherwise (ihelse hq)
  | while_ keyword opening _ closing _ ihcondition ihbody =>
    intro q hq
    exact .while_ keyword opening (ihcondition hq) closing (ihbody hq.loop)
  | for_ keyword opening _ _ ending _ closing _ ihstart ihcondition ihstep ihbody =>
    intro q hq
    exact .for_ keyword opening (ihstart hq) (ihcondition hq) ending (ihstep hq) closing
      (ihbody hq.loop)
  | break_ keyword inside ending => intro q hq; exact .break_ keyword (hq.inLoop inside) ending
  | return_ keyword _ ending ih => intro q hq; exact .return_ keyword (ih hq) ending
  | terminated _ ending ih => intro q hq; exact .terminated (ih hq) ending
  | noInitializer ending => intro q _; exact .noInitializer ending
  | declaring _ ih => intro q hq; exact .declaring (ih hq)
  | evaluating _ ih => intro q hq; exact .evaluating (ih hq)
  | noExpression => intro q _; exact .noExpression
  | someExpression _ ih => intro q hq; exact .someExpression (ih hq)
  | expression room _ ih => intro q hq; exact .expression (hq.room room) (ih hq.deeper)
  | assign name equal _ ih => intro q hq; exact .assign name equal (ih hq)
  | set _ dot name equal _ ihobject ihvalue =>
    intro q hq
    exact .set (ihobject hq) dot name equal (ihvalue hq)
  | operators _ ih => intro q hq; exact .operators (ih hq)
  | operation _ _ ihfirst ihrest => intro q hq; exact .operation (ihfirst hq) (ihrest hq)
  | noOperator => intro q _; exact .noOperator
  | operator operator _ _ ihright ihrest =>
    intro q hq
    exact .operator operator (ihright hq) (ihrest hq)
  | tighter next _ ih => intro q hq; exact .tighter next (ih hq)
  | tightest last _ ih => intro q hq; exact .tightest last (ih hq)
  | unary operator room _ ih => intro q hq; exact .unary operator (hq.room room) (ih hq.deeper)
  | noUnary _ ih => intro q hq; exact .noUnary (ih hq)
  | call _ _ ihhead ihrest => intro q hq; exact .call (ihhead hq) (ihrest hq)
  | noSuffix => intro q _; exact .noSuffix
  | apply opening _ few closing _ iharguments ihrest =>
    intro q hq
    exact .apply opening (iharguments hq) few closing (ihrest hq)
  | get dot name _ ih => intro q hq; exact .get dot name (ih hq)
  | noArguments => intro q _; exact .noArguments
  | someArguments _ ih => intro q hq; exact .someArguments (ih hq)
  | lastArgument _ ih => intro q hq; exact .lastArgument (ih hq)
  | moreArguments _ comma _ ihvalue ihrest =>
    intro q hq
    exact .moreArguments (ihvalue hq) comma (ihrest hq)
  | literal literal => intro q _; exact .literal literal
  | var name => intro q _; exact .var name
  | grouping opening _ closing ih => intro q hq; exact .grouping opening (ih hq) closing
  | this keyword => intro q _; exact .this keyword
  | super keyword dot name => intro q _; exact .super keyword dot name
  | lambda keyword _ ih => intro q hq; exact .lambda keyword (ih hq)

end Lox.Grammar
