import Lox.Diagnostic
import Lox.Syntax
import Lox.Token

/-! # Walking along tokens

The rules of the grammar walk along the tokens of a text. They move forward
only, number the nodes that they build, and note what is wrong. A rule that
cannot go on has noted why and unwinds to the declaration it stands in. -/

namespace Lox.Grammar

/-- The deepest nesting of statements, blocks, expressions and operands of
unary operators. -/
def maxNesting : Nat := 512

/-- What a rule has before it, and what has been noted so far. -/
structure Cursor where
  /-- The tokens that are left. -/
  tokens : List Token
  /-- Where the text ends. -/
  finish : Nat
  /-- The number of the next node. -/
  nextId : Nat
  /-- What is wrong, in the order in which it was found. -/
  errors : Array Diagnostic

/-- Why a rule stops without a result. -/
inductive Halt where
  /-- The tokens do not fit; the reason has been noted. -/
  | unwound
  /-- The bound on the number of steps was too small. -/
  | starved
deriving Repr, DecidableEq

/-- A rule of the grammar. -/
abbrev Rule := EStateM Halt Cursor

/-- Where a rule is used: how many rules that count as nesting are open, and
whether a loop of the same function is. -/
structure Place where
  depth : Nat
  inLoop : Bool
deriving Repr, DecidableEq

/-- The place of the whole program. -/
def Place.top : Place := ⟨0, false⟩

/-- One level deeper. -/
def Place.deeper (p : Place) : Place := { p with depth := p.depth + 1 }

/-- The body of a loop. -/
def Place.loop (p : Place) : Place := { p with inLoop := true }

/-- The body of a function: a loop around the function does not count. -/
def Place.function (p : Place) : Place := { p with inLoop := false }

namespace Cursor

/-- Nothing is left. -/
def atEnd (c : Cursor) : Bool := c.tokens.isEmpty

/-- Where the next token stands, or the end of the text. -/
def here (c : Cursor) : Span :=
  match c.tokens with
  | t :: _ => t.span
  | [] => .point c.finish

/-- The next token is of this kind. -/
def sees (c : Cursor) (kind : TokenKind) : Bool :=
  match c.tokens with
  | t :: _ => decide (t.kind = kind)
  | [] => false

/-- The next two tokens are of these kinds. -/
def seesBoth (c : Cursor) (first second : TokenKind) : Bool :=
  match c.tokens with
  | s :: t :: _ => decide (s.kind = first) && decide (t.kind = second)
  | _ => false

/-- Notes an error. -/
def note (c : Cursor) (error : GrammarError) (span : Span) : Cursor :=
  { c with errors := c.errors.push (.located (.grammar error) span) }

end Cursor

namespace Rule

/-- Gives up because the bound on steps is used up. -/
def starve {α : Type} : Rule α := throw .starved

/-- A test of what lies ahead. -/
@[inline] def test (f : Cursor → Bool) : Rule Bool := fun c => .ok (f c) c

/-- Notes an error and goes on. -/
def note (error : GrammarError) (span : Span) : Rule Unit := fun c => .ok () (c.note error span)

/-- Notes an error where the rule stands and goes on. -/
def noteHere (error : GrammarError) : Rule Unit := fun c => .ok () (c.note error c.here)

/-- Notes an error where the rule stands and unwinds. -/
def refuse {α : Type} (error : GrammarError) : Rule α := fun c =>
  .error .unwound (c.note error c.here)

/-- Takes the next token if `select` accepts its kind. -/
@[inline] def takeIf {α : Type} (select : TokenKind → Option α) : Rule (Option (α × Token)) :=
  fun c =>
    match c.tokens with
    | t :: rest =>
      match select t.kind with
      | some a => .ok (some (a, t)) { c with tokens := rest }
      | none => .ok none c
    | [] => .ok none c

/-- Takes the next token if it is of this kind. -/
def accept (kind : TokenKind) : Rule (Option Token) := fun c =>
  match c.tokens with
  | t :: rest => if t.kind = kind then .ok (some t) { c with tokens := rest } else .ok none c
  | [] => .ok none c

/-- Takes the next token, which must be of this kind. -/
def expect (kind : TokenKind) (what : String) : Rule Token := do
  match ← accept kind with
  | some t => pure t
  | none => refuse (.expected what)

/-- Takes a name. -/
def name (what : String) : Rule Ident := do
  let t ← expect .identifier what
  pure ⟨t.lexeme, t.span⟩

/-- The number of a new node. -/
def fresh : Rule Nat := fun c => .ok c.nextId { c with nextId := c.nextId + 1 }

/-- Uses a rule one level deeper, unless the nesting is too deep already. -/
@[inline] def nested {α : Type} (p : Place) (rule : Place → Rule α) : Rule α :=
  if maxNesting ≤ p.depth then refuse .nestingTooDeep else rule p.deeper

end Rule

/-! ## Recovery

After an error the rest of the statement is skipped: the token at which the
error was found, and everything up to a semicolon or to a keyword with which a
statement starts. -/

/-- The keywords at which recovery stops. -/
def startsStatement : TokenKind → Bool
  | .keyword .class_ | .keyword .fun_ | .keyword .var | .keyword .for_ | .keyword .if_
  | .keyword .while_ | .keyword .print | .keyword .return_ => true
  | _ => false

/-- Skips tokens until one may start a statement; `last` was skipped before them. -/
def skipAfter (last : Token) : List Token → List Token
  | [] => []
  | t :: rest =>
    if last.kind = .symbol .semicolon || startsStatement t.kind then t :: rest
    else skipAfter t rest

/-- Skips at least one token, and then to where a statement may start. -/
def resume : List Token → List Token
  | [] => []
  | t :: rest => skipAfter t rest

/-- Turns an unwound rule into the absence of a result, and skips to where the
next statement may start. -/
@[inline] def Rule.recover {α : Type} (rule : Rule α) : Rule (Option α) := fun c =>
  match rule c with
  | .ok a c => .ok (some a) c
  | .error .unwound c => .ok none { c with tokens := resume c.tokens }
  | .error .starved c => .error .starved c

end Lox.Grammar
