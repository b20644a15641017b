import Lox.Proofs.Grammar.Derivation

/-! # Enclosed signals

Every `break` of a tree stands in a loop of the function body that it stands in,
and the bodies of the functions in the tree are such that every `return` stands
in one. -/

namespace Lox

namespace Enclosed

mutual

/-- In every function of an expression, each `break` stands in a loop. -/
def expr : Expr → Prop
  | .literal .. | .var _ | .this .. | .super .. => True
  | .grouping inner _ => expr inner
  | .unary _ _ operand => expr operand
  | .binary left _ _ right => expr left ∧ expr right
  | .logical left _ _ right => expr left ∧ expr right
  | .assign _ value => expr value
  | .call callee _ arguments => expr callee ∧ exprs arguments
  | .get object _ => expr object
  | .set object _ value => expr object ∧ expr value
  | .lambda fn => lambda fn

def exprs : List Expr → Prop
  | [] => True
  | e :: es => expr e ∧ exprs es

def lambda : Lambda → Prop
  | ⟨_, body, _⟩ => stmts False True body

/-- Outside of the loops and the functions of a statement there is a `break` only if `breaks`, and
a `return` outside of its functions only if `returns`. -/
def stmt (breaks returns : Prop) : Stmt → Prop
  | .expression value => expr value
  | .print value => expr value
  | .var _ none => True
  | .var _ (some value) => expr value
  | .block body => stmts breaks returns body
  | .ifElse condition thenBranch none => expr condition ∧ stmt breaks returns thenBranch
  | .ifElse condition thenBranch (some elseBranch) =>
    expr condition ∧ stmt breaks returns thenBranch ∧ stmt breaks returns elseBranch
  | .while_ condition body => expr condition ∧ stmt True returns body
  | .break_ _ => breaks
  | .return_ _ none => returns
  | .return_ _ (some value) => returns ∧ expr value
  | .function _ fn => lambda fn
  | .class_ _ _ declared => methods declared

def stmts (breaks returns : Prop) : List Stmt → Prop
  | [] => True
  | s :: ss => stmt breaks returns s ∧ stmts breaks returns ss

def methods : List Method → Prop
  | [] => True
  | ⟨_, fn⟩ :: ms => lambda fn ∧ methods ms

end

theorem stmts_iff {breaks returns : Prop} {ss : List Stmt} :
    stmts breaks returns ss ↔ ∀ s ∈ ss, stmt breaks returns s := by
  induction ss with
  | nil => simp [stmts]
  | cons s ss ih => simp [stmts, ih]

theorem body {fn : Lambda} (h : lambda fn) : ∀ s ∈ fn.body, stmt False True s := by
  cases fn
  exact stmts_iff.mp h

theorem methods_iff {ms : List Method} : methods ms ↔ ∀ m ∈ ms, lambda m.fn := by
  induction ms with
  | nil => simp [methods]
  | cons m ms ih =>
    cases m
    simp [methods, ih]

end Enclosed

namespace Grammar

/-- The trees of a phrase are enclosed; the statements among them hold a `break` only if they
stand in a loop. What leans on a tree is enclosed if that tree is. -/
def Phrase.Enclosed (inLoop : Prop) : (phrase : Phrase) → phrase.Tree → Prop
  | .declarations, ss => Enclosed.stmts inLoop True ss
  | .declaration, s | .classDeclaration, s | .varDeclaration, s | .statement _, s
  | .statementBody _, s | .expressionStatement, s | .printStatement, s | .ifStatement _, s
  | .whileStatement _, s | .forStatement _, s | .breakStatement, s | .returnStatement, s =>
    Enclosed.stmt inLoop True s
  | .methods, ms => Enclosed.methods ms
  | .function, m => Enclosed.lambda m.fn
  | .closure _, fn => Enclosed.lambda fn
  | .block, b => Enclosed.stmts inLoop True b.1
  | .initializer, s => ∀ start, s = some start → Enclosed.stmt inLoop True start
  | .optionalExpression, e => ∀ value, e = some value → Enclosed.expr value
  | .argumentList, es | .arguments, es => Enclosed.exprs es
  | .chain _ left, e => Enclosed.expr left → Enclosed.expr e
  | .suffixes callee, e => Enclosed.expr callee → Enclosed.expr e
  | .expression, e | .assignment, e | .operation _, e | .operand _, e | .unary, e | .call, e
  | .primary, e => Enclosed.expr e

theorem enclosed_apply {op : Operator} {left right : Expr} {span : Span}
    (hleft : Enclosed.expr left) (hright : Enclosed.expr right) :
    Enclosed.expr (op.apply left span right) := by
  cases op <;> exact ⟨hleft, hright⟩

theorem enclosed_desugarFor (k : Span) {inLoop : Prop} {i : Option Stmt} {c j : Option Expr}
    {s : Stmt} (hi : Phrase.initializer.Enclosed inLoop i)
    (hc : Phrase.optionalExpression.Enclosed inLoop c)
    (hj : Phrase.optionalExpression.Enclosed inLoop j) (hs : Enclosed.stmt True True s) :
    Enclosed.stmt inLoop True (desugarFor k i c j s) := by
  have hcondition : Enclosed.expr (c.getD (.literal (.bool true) k)) := by
    cases c with
    | none => exact trivial
    | some condition => exact hc condition rfl
  have hloop : ∀ body, Enclosed.stmt True True body →
      Enclosed.stmt inLoop True (.while_ (c.getD (.literal (.bool true) k)) body) :=
    fun _ h => ⟨hcondition, h⟩
  cases j with
  | none =>
    cases i with
    | none => exact hloop s hs
    | some start => exact ⟨hi start rfl, hloop s hs, trivial⟩
  | some step =>
    have hbody : Enclosed.stmt True True (.block [s, .expression step]) := ⟨hs, hj step rfl, trivial⟩
    cases i with
    | none => exact hloop _ hbody
    | some start => exact ⟨hi start rfl, hloop _ hbody, trivial⟩

variable {phrase : Phrase} {p : Place} {n n' : Nat} {ts : List Token}

/-- What a phrase in a loop, or in no loop, derives is enclosed. -/
theorem Derives.enclosed {a : phrase.Tree} (h : Derives phrase p n ts a n') :
    phrase.Enclosed (p.inLoop = true) a := by
  induction h with
  | noDeclaration | noMethod | uninitialized | noArguments | literal | var | this | super =>
    exact trivial
  | noOperator | noSuffix => exact id
  | noInitializer | noExpression => exact fun _ h => nomatch h
  | classDeclaration _ ih | function _ _ ih | varDeclaration _ ih | statement _ ih
  | class_ _ _ _ _ _ _ ih | named _ _ ih | braces _ _ _ _ ih | initialized _ _ _ _ _ ih
  | nested _ _ ih | expressionStatement _ ih | printStatement _ ih | ifStatement _ ih
  | whileStatement _ ih | forStatement _ ih | breakStatement _ ih | returnStatement _ ih
  | block _ ih | print _ _ _ ih | terminated _ _ ih | expression _ _ ih | assign _ _ _ ih
  | operators _ ih | tighter _ _ ih | tightest _ _ ih | unary _ _ _ ih | noUnary _ ih
  | get _ _ _ ih | someArguments _ ih | grouping _ _ _ ih | lambda _ _ ih => exact ih
  | declarations _ _ ihfirst ihrest | set _ _ _ _ _ ihfirst ihrest
  | moreArguments _ _ _ ihfirst ihrest => exact ⟨ihfirst, ihrest⟩
  | @methods _ _ _ m _ _ ms _ _ _ ihfirst ihrest =>
    cases m
    exact ⟨ihfirst, ihrest⟩
  | @closure p _ _ _ _ _ _ _ b _ _ _ _ _ _ ih =>
    have hbody : Enclosed.stmts (p.function.inLoop = true) True b.1 := ih
    rwa [show (p.function.inLoop = true) = False from eq_false Bool.false_ne_true] at hbody
  | ifThen _ _ _ _ _ ihcondition ihbranch => exact ⟨ihcondition, ihbranch⟩
  | ifElse _ _ _ _ _ _ _ ihcondition ihthen ihelse => exact ⟨ihcondition, ihthen, ihelse⟩
  | @while_ p _ _ _ _ _ _ _ _ _ s _ _ _ _ _ _ ihcondition ihbody =>
    have hbody : Enclosed.stmt (p.loop.inLoop = true) True s := ihbody
    rw [show (p.loop.inLoop = true) = True from eq_true rfl] at hbody
    exact ⟨ihcondition, hbody⟩
  | @for_ p _ k _ _ i _ _ c _ _ _ j _ _ _ _ s _ _ _ _ _ _ _ _ _ ihstart ihcondition ihstep
      ihbody =>
    have hbody : Enclosed.stmt (p.loop.inLoop = true) True s := ihbody
    rw [show (p.loop.inLoop = true) = True from eq_true rfl] at hbody
    exact enclosed_desugarFor k.span ihstart ihcondition ihstep hbody
  | break_ _ inside _ => exact inside
  | @return_ _ _ _ _ v _ _ _ _ _ ih =>
    cases v with
    | none => exact trivial
    | some value => exact ⟨trivial, ih value rfl⟩
  | declaring _ ih | evaluating _ ih | someExpression _ ih =>
    intro _ h
    cases h
    exact ih
  | operation _ _ ihfirst ihrest | call _ _ ihfirst ihrest => exact ihrest ihfirst
  | operator _ _ _ ihright ihrest => exact fun hleft => ihrest (enclosed_apply hleft ihright)
  | apply _ _ _ _ _ ihargs ihrest => exact fun hcallee => ihrest ⟨hcallee, ihargs⟩
  | lastArgument _ ih => exact ⟨ih, trivial⟩

end Grammar
end Lox
