import Lox.Grammar.Rules

/-! # Parsing a whole text

A program is a list of declarations up to the end of the text. Declarations
that do not fit are left out of the result, and the errors tell of them. -/

namespace Lox.Grammar
open Rule

/-- The result of parsing: what was read, what is wrong, and the number of the
first node that is still free. -/
structure Parsed (α : Type) where
  value : α
  errors : Array Diagnostic
  nextId : Nat

/-- The number of steps that no parse of `count` tokens takes. Between two
tokens a rule goes once through the levels of the grammar at most. -/
def stepBound (count : Nat) : Nat := 40 * (count + 2)

/-- The cursor before the first token, where nodes are numbered from `first`. -/
def Cursor.start (stream : TokenStream) (first : Nat) : Cursor :=
  ⟨stream.tokens, stream.finish, first, #[]⟩

/-- Declarations up to the end, after those already read. -/
def program : Nat → Array Stmt → Rule (Array Stmt)
  | 0, _ => starve
  | fuel + 1, done => do
    if ← test Cursor.atEnd then pure done
    else
      match ← declaration fuel .top with
      | some stmt => program fuel (done.push stmt)
      | none => program fuel done

/-- One expression, which must be the whole text. -/
def wholeExpression (fuel : Nat) : Rule (Option Expr) := fun c =>
  let (result, c) := match expression fuel .top c with
    | .ok e c => (some e, c)
    | .error _ c => (none, c)
  .ok result (if c.atEnd then c else c.note .trailingTokens c.here)

/-- Runs a rule from the first token on. -/
def Rule.parse {α : Type} (rule : Rule α) (default_ : α) (stream : TokenStream) (first : Nat) :
    Parsed α :=
  match rule (.start stream first) with
  | .ok value c => ⟨value, c.errors, c.nextId⟩
  | .error _ c => ⟨default_, c.errors, c.nextId⟩

/-- Parses a program. -/
def parseProgram (stream : TokenStream) (first : Nat) : Parsed (List Stmt) :=
  let parsed := (program (stepBound stream.tokens.length) #[]).parse #[] stream first
  { parsed with value := parsed.value.toList }

/-- Parses a text that is one expression. There is no result when it does not fit. -/
def parseExpression (stream : TokenStream) (first : Nat) : Parsed (Option Expr) :=
  (wholeExpression (stepBound stream.tokens.length)).parse none stream first

end Lox.Grammar
