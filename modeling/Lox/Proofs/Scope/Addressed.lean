import Lox.Proofs.Watch.Basic

/-! # Trees whose uses are addressed

The scopes around a place are lists of names, innermost first. A tree is
addressed when for every use of a name in it the distance is recorded at which
the name is declared textually before the use, and nothing is recorded when it is
declared in none of the scopes. -/

namespace Lox.Scope

/-- How many scopes away a name is declared. -/
def level (Γ : List (List String)) (name : String) : Option Nat :=
  Γ.findIdx? (·.contains name)

/-- The scopes after a name has been declared in the innermost one. -/
def declareIn (name : String) : List (List String) → List (List String)
  | [] => []
  | scope :: outer => (name :: scope) :: outer

/-- The scopes after a statement. -/
def after (Γ : List (List String)) (s : Stmt) : List (List String) :=
  match Watch.declared? s with
  | some name => declareIn name Γ
  | none => Γ

/-- The distances that are recorded for the numbers below `next`. -/
structure Known where
  records : Resolutions
  next : Nat

/-- The record for a node leads to the declaration of its name. -/
structure Known.Leads (K : Known) (Γ : List (List String)) (id : Nat) (name : String) : Prop where
  bound : id < K.next
  found : K.records.find? id = level Γ name

/-- More is known, and what was known stays. -/
structure Known.Extends (K K' : Known) : Prop where
  next : K.next ≤ K'.next
  found : ∀ id, id < K.next → K'.records.find? id = K.records.find? id

namespace Addressed

mutual

/-- The uses in an expression are addressed. -/
def expr (K : Known) (Γ : List (List String)) : Expr → Prop
  | .literal .. => True
  | .grouping inner _ => expr K Γ inner
  | .unary _ _ operand => expr K Γ operand
  | .binary left _ _ right => expr K Γ left ∧ expr K Γ right
  | .logical left _ _ right => expr K Γ left ∧ expr K Γ right
  | .var target => K.Leads Γ target.id target.name.text
  | .assign target value => K.Leads Γ target.id target.name.text ∧ expr K Γ value
  | .call callee _ arguments => expr K Γ callee ∧ exprs K Γ arguments
  | .get object _ => expr K Γ object
  | .set object _ value => expr K Γ object ∧ expr K Γ value
  | .this id _ => K.Leads Γ id "this"
  | .super id _ _ => K.Leads Γ id "super"
  | .lambda fn => function K Γ fn

def exprs (K : Known) (Γ : List (List String)) : List Expr → Prop
  | [] => True
  | e :: es => expr K Γ e ∧ exprs K Γ es

/-- The uses in a function are addressed. Its parameters and its body share a scope. -/
def function (K : Known) (Γ : List (List String)) : Lambda → Prop
  | ⟨params, body, _⟩ => stmts K (params.map Ident.text :: Γ) body

/-- The uses in a statement are addressed. A variable is declared in its own initializer, a
function in its own body and a class in its own methods. -/
def stmt (K : Known) (Γ : List (List String)) : Stmt → Prop
  | .expression value => expr K Γ value
  | .print value => expr K Γ value
  | .var _ none => True
  | .var name (some value) => expr K (declareIn name.text Γ) value
  | .block body => stmts K ([] :: Γ) body
  | .ifElse condition thenBranch none => expr K Γ condition ∧ stmt K Γ thenBranch
  | .ifElse condition thenBranch (some elseBranch) =>
    expr K Γ condition ∧ stmt K Γ thenBranch ∧ stmt K Γ elseBranch
  | .while_ condition body => expr K Γ condition ∧ stmt K Γ body
  | .break_ _ => True
  | .return_ _ none => True
  | .return_ _ (some value) => expr K Γ value
  | .function name fn => function K (declareIn name.text Γ) fn
  | .class_ name none declared => methods K (["this"] :: declareIn name.text Γ) declared
  | .class_ name (some parent) declared =>
    (K.Leads (declareIn name.text Γ) parent.id parent.name.text ∧
      parent.name.text ≠ name.text) ∧
      methods K (["this"] :: ["super"] :: declareIn name.text Γ) declared

def stmts (K : Known) (Γ : List (List String)) : List Stmt → Prop
  | [] => True
  | s :: ss => stmt K Γ s ∧ stmts K (after Γ s) ss

def methods (K : Known) (Γ : List (List String)) : List Method → Prop
  | [] => True
  | ⟨_, fn⟩ :: ms => function K Γ fn ∧ methods K Γ ms

end

variable {K K' : Known}

theorem function_of_methods {Γ : List (List String)} : ∀ {ms : List Method},
    methods K Γ ms → ∀ m ∈ ms, function K Γ m.fn
  | ⟨_, _⟩ :: ms, h, m, hm => by
    rcases List.mem_cons.mp hm with rfl | hm
    · exact h.1
    · exact function_of_methods h.2 m hm

theorem leads_mono (hK : K.Extends K') {Γ : List (List String)} {id : Nat} {name : String}
    (h : K.Leads Γ id name) : K'.Leads Γ id name :=
  ⟨Nat.lt_of_lt_of_le h.bound hK.next, (hK.found id h.bound).trans h.found⟩

mutual

theorem expr_mono (hK : K.Extends K') : ∀ (e : Expr) (Γ : List (List String)),
    expr K Γ e → expr K' Γ e
  | .literal .., _, _ => trivial
  | .grouping inner _, Γ, h => expr_mono hK inner Γ h
  | .unary _ _ operand, Γ, h => expr_mono hK operand Γ h
  | .binary left _ _ right, Γ, h => ⟨expr_mono hK left Γ h.1, expr_mono hK right Γ h.2⟩
  | .logical left _ _ right, Γ, h => ⟨expr_mono hK left Γ h.1, expr_mono hK right Γ h.2⟩
  | .var _, _, h => leads_mono hK h
  | .assign _ value, Γ, h => ⟨leads_mono hK h.1, expr_mono hK value Γ h.2⟩
  | .call callee _ arguments, Γ, h =>
    ⟨expr_mono hK callee Γ h.1, exprs_mono hK arguments Γ h.2⟩
  | .get object _, Γ, h => expr_mono hK object Γ h
  | .set object _ value, Γ, h => ⟨expr_mono hK object Γ h.1, expr_mono hK value Γ h.2⟩
  | .this .., _, h => leads_mono hK h
  | .super .., _, h => leads_mono hK h
  | .lambda fn, Γ, h => function_mono hK fn Γ h

theorem exprs_mono (hK : K.Extends K') : ∀ (es : List Expr) (Γ : List (List String)),
    exprs K Γ es → exprs K' Γ es
  | [], _, _ => trivial
  | e :: es, Γ, h => ⟨expr_mono hK e Γ h.1, exprs_mono hK es Γ h.2⟩

theorem function_mono (hK : K.Extends K') : ∀ (fn : Lambda) (Γ : List (List String)),
    function K Γ fn → function K' Γ fn
  | ⟨_, body, _⟩, _, h => stmts_mono hK body _ h

theorem stmt_mono (hK : K.Extends K') : ∀ (s : Stmt) (Γ : List (List String)),
    stmt K Γ s → stmt K' Γ s
  | .expression value, Γ, h => expr_mono hK value Γ h
  | .print value, Γ, h => expr_mono hK value Γ h
  | .var _ none, _, _ => trivial
  | .var _ (some value), _, h => expr_mono hK value _ h
  | .block body, _, h => stmts_mono hK body _ h
  | .ifElse condition thenBranch none, Γ, h =>
    ⟨expr_mono hK condition Γ h.1, stmt_mono hK thenBranch Γ h.2⟩
  | .ifElse condition thenBranch (some elseBranch), Γ, h =>
    ⟨expr_mono hK condition Γ h.1, stmt_mono hK thenBranch Γ h.2.1,
      stmt_mono hK elseBranch Γ h.2.2⟩
  | .while_ condition body, Γ, h => ⟨expr_mono hK condition Γ h.1, stmt_mono hK body Γ h.2⟩
  | .break_ _, _, _ => trivial
  | .return_ _ none, _, _ => trivial
  | .return_ _ (some value), Γ, h => expr_mono hK value Γ h
  | .function _ fn, _, h => function_mono hK fn _ h
  | .class_ _ none declared, _, h => methods_mono hK declared _ h
  | .class_ _ (some _) declared, _, h =>
    ⟨⟨leads_mono hK h.1.1, h.1.2⟩, methods_mono hK declared _ h.2⟩

theorem stmts_mono (hK : K.Extends K') : ∀ (ss : List Stmt) (Γ : List (List String)),
    stmts K Γ ss → stmts K' Γ ss
  | [], _, _ => trivial
  | s :: ss, Γ, h => ⟨stmt_mono hK s Γ h.1, stmts_mono hK ss _ h.2⟩

theorem methods_mono (hK : K.Extends K') : ∀ (ms : List Method) (Γ : List (List String)),
    methods K Γ ms → methods K' Γ ms
  | [], _, _ => trivial
  | ⟨_, fn⟩ :: ms, Γ, h => ⟨function_mono hK fn Γ h.1, methods_mono hK ms Γ h.2⟩

end

end Addressed
end Lox.Scope
