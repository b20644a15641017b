import Lox.Proofs.Grammar.Derivation
import Lox.Proofs.Watch.Basic

/-! # Branches declare nothing

What stands in a branch of an `if` or in the body of a loop is a statement and
not a declaration, so a name that is declared there is declared in a scope of its
own. -/

namespace Lox

namespace Plain

mutual

/-- All branches in an expression are plain statements. -/
def expr : Expr → Prop
  | .literal .. | .var _ | .this .. | .super .. => True
  | .grouping inner _ => expr inner
  | .unary _ _ operand => expr operand
  | .binary left _ _ right => expr left ∧ expr right
  | .logical left _ _ right => expr left ∧ expr right
  | .assign _ value => expr value
  | .call callee _ arguments => expr callee ∧ exprs arguments
  | .get object _ => expr object
  | .set object _ value => expr object ∧ expr value
  | .lambda fn => lambda fn

def exprs : List Expr → Prop
  | [] => True
  | e :: es => expr e ∧ exprs es

def lambda : Lambda → Prop
  | ⟨_, body, _⟩ => stmts body

/-- All branches in a statement are plain statements. -/
def stmt : Stmt → Prop
  | .expression value => expr value
  | .print value => expr value
  | .var _ none => True
  | .var _ (some value) => expr value
  | .block body => stmts body
  | .ifElse condition thenBranch none =>
    expr condition ∧ Watch.declared? thenBranch = none ∧ stmt thenBranch
  | .ifElse condition thenBranch (some elseBranch) =>
    expr condition ∧ (Watch.declared? thenBranch = none ∧ stmt thenBranch) ∧
      Watch.declared? elseBranch = none ∧ stmt elseBranch
  | .while_ condition body => expr condition ∧ Watch.declared? body = none ∧ stmt body
  | .break_ _ => True
  | .return_ _ none => True
  | .return_ _ (some value) => expr value
  | .function _ fn => lambda fn
  | .class_ _ _ declared => methods declared

def stmts : List Stmt → Prop
  | [] => True
  | s :: ss => stmt s ∧ stmts ss

def methods : List Method → Prop
  | [] => True
  | ⟨_, fn⟩ :: ms => lambda fn ∧ methods ms

end

end Plain

namespace Grammar

/-- The trees of a phrase are plain; the statements among them declare nothing. What leans on a
tree is plain if that tree is. -/
def Phrase.Plain : (phrase : Phrase) → phrase.Tree → Prop
  | .declarations, ss => Plain.stmts ss
  | .declaration, s | .classDeclaration, s | .varDeclaration, s => Plain.stmt s
  | .statement _, s | .statementBody _, s | .expressionStatement, s | .printStatement, s
  | .ifStatement _, s | .whileStatement _, s | .forStatement _, s | .breakStatement, s
  | .returnStatement, s => Watch.declared? s = none ∧ Plain.stmt s
  | .methods, ms => Plain.methods ms
  | .function, m => Plain.lambda m.fn
  | .closure _, fn => Plain.lambda fn
  | .block, b => Plain.stmts b.1
  | .initializer, s => ∀ start, s = some start → Plain.stmt start
  | .optionalExpression, e => ∀ value, e = some value → Plain.expr value
  | .argumentList, es | .arguments, es => Plain.exprs es
  | .chain _ left, e => Plain.expr left → Plain.expr e
  | .suffixes callee, e => Plain.expr callee → Plain.expr e
  | .expression, e | .assignment, e | .operation _, e | .operand _, e | .unary, e | .call, e
  | .primary, e => Plain.expr e

theorem plain_apply {op : Operator} {left right : Expr} {span : Span} (hleft : Plain.expr left)
    (hright : Plain.expr right) : Plain.expr (op.apply left span right) := by
  cases op <;> exact ⟨hleft, hright⟩

theorem plain_desugarFor (k : Span) {i : Option Stmt} {c j : Option Expr} {s : Stmt}
    (hi : Phrase.initializer.Plain i) (hc : Phrase.optionalExpression.Plain c)
    (hj : Phrase.optionalExpression.Plain j) (hs : Watch.declared? s = none ∧ Plain.stmt s) :
    Watch.declared? (desugarFor k i c j s) = none ∧ Plain.stmt (desugarFor k i c j s) := by
  have hcondition : Plain.expr (c.getD (.literal (.bool true) k)) := by
    cases c with
    | none => exact trivial
    | some condition => exact hc condition rfl
  have hloop : ∀ body, Watch.declared? body = none ∧ Plain.stmt body →
      Plain.stmt (.while_ (c.getD (.literal (.bool true) k)) body) := fun _ h => ⟨hcondition, h⟩
  have hbody : ∀ step?, Phrase.optionalExpression.Plain step? →
      Watch.declared? (match step? with
        | some step => .block [s, .expression step]
        | none => s) = none ∧
      Plain.stmt (match step? with
        | some step => .block [s, .expression step]
        | none => s) := by
    intro step? hstep
    cases step? with
    | none => exact hs
    | some step => exact ⟨rfl, hs.2, hstep step rfl, trivial⟩
  cases i with
  | none => exact ⟨rfl, hloop _ (hbody j hj)⟩
  | some start => exact ⟨rfl, hi start rfl, hloop _ (hbody j hj), trivial⟩

variable {phrase : Phrase} {p : Place} {n n' : Nat} {ts : List Token}

theorem Derives.plain {a : phrase.Tree} (h : Derives phrase p n ts a n') : phrase.Plain a := by
  induction h with
  | noDeclaration => exact trivial
  | declarations _ _ ihfirst ihrest => exact ⟨ihfirst, ihrest⟩
  | classDeclaration _ ih => exact ih
  | function _ _ ih => exact ih
  | varDeclaration _ ih => exact ih
  | statement _ ih => exact ih.2
  | class_ _ _ _ _ _ _ ih => exact ih
  | noMethod => exact trivial
  | @methods _ _ _ m _ _ ms _ _ _ ihfirst ihrest =>
    cases m
    exact ⟨ihfirst, ihrest⟩
  | named _ _ ih => exact ih
  | closure _ _ _ _ _ ih => exact ih
  | braces _ _ _ _ ih => exact ih
  | uninitialized => exact trivial
  | initialized _ _ _ _ _ ih => exact ih
  | nested _ _ ih => exact ih
  | expressionStatement _ ih => exact ih
  | printStatement _ ih => exact ih
  | ifStatement _ ih => exact ih
  | whileStatement _ ih => exact ih
  | forStatement _ ih => exact ih
  | breakStatement _ ih => exact ih
  | returnStatement _ ih => exact ih
  | block _ ih => exact ⟨rfl, ih⟩
  | print _ _ _ ih => exact ⟨rfl, ih⟩
  | ifThen _ _ _ _ _ ihcondition ihbranch => exact ⟨rfl, ihcondition, ihbranch⟩
  | ifElse _ _ _ _ _ _ _ ihcondition ihthen ihelse => exact ⟨rfl, ihcondition, ihthen, ihelse⟩
  | while_ _ _ _ _ _ ihcondition ihbody => exact ⟨rfl, ihcondition, ihbody⟩
  | @for_ _ _ k _ _ i _ _ c _ _ _ j _ _ _ _ s _ _ _ _ _ _ _ _ _ ihstart ihcondition ihstep
      ihbody => exact plain_desugarFor k.span ihstart ihcondition ihstep ihbody
  | break_ => exact ⟨rfl, trivial⟩
  | @return_ _ _ _ _ v _ _ _ _ _ ih =>
    cases v with
    | none => exact ⟨rfl, trivial⟩
    | some value => exact ⟨rfl, ih value rfl⟩
  | terminated _ _ ih => exact ⟨rfl, ih⟩
  | noInitializer => exact fun _ h => nomatch h
  | declaring _ ih =>
    rintro _ ⟨⟩
    exact ih
  | evaluating _ ih =>
    rintro _ ⟨⟩
    exact ih.2
  | noExpression => exact fun _ h => nomatch h
  | someExpression _ ih =>
    rintro _ ⟨⟩
    exact ih
  | expression _ _ ih => exact ih
  | assign _ _ _ ih => exact ih
  | set _ _ _ _ _ ihobject ihvalue => exact ⟨ihobject, ihvalue⟩
  | operators _ ih => exact ih
  | operation _ _ ihfirst ihrest => exact ihrest ihfirst
  | noOperator => exact id
  | operator _ _ _ ihright ihrest => exact fun hleft => ihrest (plain_apply hleft ihright)
  | tighter _ _ ih => exact ih
  | tightest _ _ ih => exact ih
  | unary _ _ _ ih => exact ih
  | noUnary _ ih => exact ih
  | call _ _ ihhead ihrest => exact ihrest ihhead
  | noSuffix => exact id
  | apply _ _ _ _ _ ihargs ihrest => exact fun hcallee => ihrest ⟨hcallee, ihargs⟩
  | get _ _ _ ih => exact ih
  | noArguments => exact trivial
  | someArguments _ ih => exact ih
  | lastArgument _ ih => exact ⟨ih, trivial⟩
  | moreArguments _ _ _ ihvalue ihrest => exact ⟨ihvalue, ihrest⟩
  | literal => exact trivial
  | var => exact trivial
  | grouping _ _ _ ih => exact ih
  | this => exact trivial
  | super => exact trivial
  | lambda _ _ ih => exact ih

end Grammar
end Lox
