import Lox.Proofs.Grammar.Complete
import Lox.Proofs.Grammar.Names
import Lox.Proofs.Grammar.Written
import Lox.Proofs.Number.Numerals
import Lox.Proofs.Syntax.Reread

/-! # The printed form tells the tree

The names of a parsed program are identifiers of its text, and its constants are
tokens, or `true` in a loop without a condition. A string is printed bare and an
infinite number as a word, so that they may look like anything; any other constant
is printed as a lexeme of it. Programs with such constants only are told by what is
printed of them. -/

namespace Lox

/-- An expression that is no constant, or one that is printed as what it is. -/
def Expr.Plain : Expr → Prop
  | .literal (.string _) _ => False
  | .literal (.number x) _ => x.isInf = false
  | _ => True

instance : DecidablePred Expr.Plain
  | .literal (.string _) _ => .isFalse not_false
  | .literal (.number x) _ => inferInstanceAs (Decidable (x.isInf = false))
  | .literal (.bool _) _ | .literal .nil _ | .grouping .. | .unary .. | .binary .. | .logical ..
  | .var .. | .assign .. | .call .. | .get .. | .set .. | .this .. | .super .. | .lambda .. =>
    .isTrue trivial

namespace Grammar

variable {p : Place} {n n' : Nat} {ts : List Token} {level : Level} {v : Literal} {span : Span}

/-- A constant is one token. -/
theorem operation_literal (h : Derives (.operation level) p n ts (.literal v span) n') :
    ∃ t, ts = [t] ∧ literal? t.kind = some v := by
  rcases h.telling with hcall | ⟨op, _, _, _, happly⟩ | ⟨_, _, _, hunary⟩
  · cases hcall with
    | call head rest =>
      rcases rest.telling with ⟨rfl, rfl, -⟩ | ⟨_, _, _, hcall⟩ | ⟨_, _, _, _, hget, _⟩
      · cases head with
        | literal literal => exact ⟨_, rfl, literal⟩
      · cases hcall
      · cases hget
  · cases op <;> cases happly
  · cases hunary

theorem expression_literal (h : Derives .expression p n ts (.literal v span) n') :
    ∃ t, ts = [t] ∧ literal? t.kind = some v := by
  cases h with
  | expression _ assignment =>
    cases assignment with
    | operators operation => exact operation_literal operation

/-- A constant that a token writes is printed as a lexeme. -/
theorem told_of_lexeme {t : Token} (h : literal? t.kind = some v)
    (hlexeme : Lexer.Lexeme t.kind t.lexeme.toList) (hplain : (Expr.literal v span).Plain) :
    v.Told := by
  generalize t.kind = kind at h hlexeme
  generalize t.lexeme.toList = text at hlexeme
  cases v with
  | string => exact hplain.elim
  | number x =>
    obtain rfl : kind = .number x := by
      unfold literal? at h
      split at h <;> cases h
      rfl
    obtain ⟨hfinite, hsign⟩ := isFinite_of_lexeme hlexeme hplain
    have hf : Number.Format.literal ∈ [Number.Format.value, .literal] := by simp
    exact ⟨.number x, rfl, Number.lexeme_write hf hfinite hsign, nofun⟩
  | bool value =>
    cases value with
    | true => exact ⟨.keyword .true_, rfl, .keyword .true_, nofun⟩
    | false => exact ⟨.keyword .false_, rfl, .keyword .false_, nofun⟩
  | nil => exact ⟨.keyword .nil, rfl, .keyword .nil, nofun⟩

variable {source : String} {first : Nat}

/-- The names of a parsed program are identifiers, and its plain constants are tokens. -/
theorem legible_of_parseProgram
    (h : (parseProgram (Lexer.scan source).tokens first).errors = #[])
    (hplain : ∀ e ∈ Parts.stmts (parseProgram (Lexer.scan source).tokens first).value, e.Plain) :
    Legible (Names.stmts (parseProgram (Lexer.scan source).tokens first).value)
      (Parts.stmts (parseProgram (Lexer.scan source).tokens first).value) := by
  have hderives := derivesProgram_of_parseProgram h
  have hlexeme {t : Token} (ht : t ∈ (Lexer.scan source).tokens.tokens) :
      Lexer.Lexeme t.kind t.lexeme.toList := by
    obtain ⟨-, -, -, -, -, -, hlexeme, -⟩ := Lexer.standsIn_of_mem ht
    exact hlexeme
  constructor
  · have hspelled : Spelled (fun word => Lexer.Lexeme .identifier word.toList)
        (Lexer.scan source).tokens.tokens := fun t ht hkind => hkind ▸ hlexeme ht
    exact hderives.spelled hspelled
  · intro v span hv
    rcases hderives.writes _ hv with ⟨t, -, -, htrue⟩ | ⟨own, hwithin, n, n', hown⟩
    · obtain rfl := (Expr.literal.inj htrue).1
      exact ⟨.keyword .true_, rfl, .keyword .true_, nofun⟩
    · obtain ⟨t, rfl, hliteral⟩ := expression_literal hown
      exact told_of_lexeme hliteral (hlexeme (hwithin.subset List.mem_cons_self)) (hplain _ hv)

/-- **The printed form determines the tree.** Of two programs that are parsed without an error, in
which there are no strings and no infinite numbers, the same is printed only if they are the same
program: equal but for spans and for the numbers of nodes, even in their numbers. -/
theorem outline_of_sexpr {source' : String} {first' : Nat}
    (h : (parseProgram (Lexer.scan source).tokens first).errors = #[])
    (h' : (parseProgram (Lexer.scan source').tokens first').errors = #[])
    (hplain : ∀ e ∈ Parts.stmts (parseProgram (Lexer.scan source).tokens first).value, e.Plain)
    (hplain' : ∀ e ∈ Parts.stmts (parseProgram (Lexer.scan source').tokens first').value, e.Plain)
    (hprinted : (parseProgram (Lexer.scan source).tokens first).value.map Stmt.sexpr =
      (parseProgram (Lexer.scan source').tokens first').value.map Stmt.sexpr) :
    Outline.stmts (parseProgram (Lexer.scan source).tokens first).value =
      Outline.stmts (parseProgram (Lexer.scan source').tokens first').value :=
  Forms.outline_of_printed (legible_of_parseProgram h hplain) (legible_of_parseProgram h' hplain')
    hprinted

/-- A loop that is written with `for` and with `while`, methods, and numerals of one number. -/
theorem outline_of_sexpr_loop :
    let source := "class A < B \x7b init(a) \x7b this.x = -a - 1.50; super.f(); \x7d \x7d " ++
      "for (;;) print fun (x) \x7b return; \x7d (2, nil).y or !true;"
    let source' := "class A < B \x7b init(a)\x7bthis.x=-a-1.5;super.f(); \x7d \x7d // method\n" ++
      "while (true) print fun(x)\x7breturn;\x7d(02.0,nil).y or !true;"
    let program := (parseProgram (Lexer.scan source).tokens 0).value
    let program' := (parseProgram (Lexer.scan source').tokens 7).value
    (∀ e ∈ Parts.stmts program, e.Plain) ∧ program.map Stmt.sexpr = program'.map Stmt.sexpr ∧
      Outline.stmts program = Outline.stmts program' := by
  intro source source' program program'
  have h : (parseProgram (Lexer.scan source).tokens 0).errors = #[] := by decide +kernel
  have h' : (parseProgram (Lexer.scan source').tokens 7).errors = #[] := by decide +kernel
  have hplain : ∀ e ∈ Parts.stmts program, e.Plain := by decide +kernel
  have hplain' : ∀ e ∈ Parts.stmts program', e.Plain := by decide +kernel
  have hprinted : program.map Stmt.sexpr = program'.map Stmt.sexpr := by decide +kernel
  exact ⟨hplain, hprinted, outline_of_sexpr h h' hplain hplain' hprinted⟩

end Grammar
end Lox
