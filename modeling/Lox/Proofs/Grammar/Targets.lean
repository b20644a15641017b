import Lox.Proofs.Grammar.Derivation

/-! # What can be assigned to

The left side of an assignment is read before its `=` is seen. From its tree it
can be told which tokens it derives from: a variable is one identifier, and a
property ends in a dot and an identifier. -/

namespace Lox.Grammar

variable {phrase : Phrase} {p : Place} {n n' : Nat} {ts : List Token} {e left callee : Expr}
  {level : Level}

/-- The tree of an operator with two operands. -/
def IsOperation (e : Expr) : Prop := ∃ op a span b, e = Operator.apply op a span b

/-- The tree of a unary operator. -/
def IsUnary (e : Expr) : Prop := ∃ op span a, e = .unary op span a

/-- What the tree of a phrase tells about the tokens before an assignment. -/
def Phrase.Telling : (phrase : Phrase) → Place → Nat → List Token → phrase.Tree → Nat → Prop
  | .chain _ left, _, n, ts, e, n' => (ts = [] ∧ e = left ∧ n' = n) ∨ IsOperation e
  | .operation _, p, n, ts, e, n' | .operand _, p, n, ts, e, n' | .unary, p, n, ts, e, n' =>
    Derives .call p n ts e n' ∨ IsOperation e ∨ IsUnary e
  | .suffixes callee, p, n, ts, e, n' =>
    (ts = [] ∧ e = callee ∧ n' = n) ∨ (∃ f paren args, e = .call f paren args) ∨
      ∃ o us d t, e = .get o (Token.ident t) ∧ ts = us ++ [d, t] ∧ d.kind = .symbol .dot ∧
        t.kind = .identifier ∧ Derives (.suffixes callee) p n us o n'
  | _, _, _, _, _, _ => True

theorem Derives.telling {a : phrase.Tree} (h : Derives phrase p n ts a n') :
    phrase.Telling p n ts a n' := by
  induction h with
  | noOperator => exact .inl ⟨rfl, rfl, rfl⟩
  | operator _ _ _ _ ih =>
    rcases ih with ⟨-, rfl, -⟩ | hoperation
    · exact .inr ⟨_, _, _, _, rfl⟩
    · exact .inr hoperation
  | operation _ _ ihfirst ihrest =>
    rcases ihrest with ⟨hts, he, hn⟩ | hoperation
    · rw [hts, he, hn, List.append_nil]
      exact ihfirst
    · exact .inr (.inl hoperation)
  | tighter _ _ ih => exact ih
  | tightest _ _ ih => exact ih
  | unary => exact .inr (.inr ⟨_, _, _, rfl⟩)
  | noUnary call => exact .inl call
  | noSuffix => exact .inl ⟨rfl, rfl, rfl⟩
  | @apply _ _ _ l us _ _ r _ _ _ opening arguments few closing _ _ ih =>
    rcases ih with ⟨-, rfl, -⟩ | hcall | ⟨o, ws, d, t, rfl, rfl, hd, ht, ho⟩
    · exact .inr (.inl ⟨_, _, _, rfl⟩)
    · exact .inr (.inl hcall)
    · refine .inr (.inr ⟨o, l :: (us ++ r :: ws), d, t, rfl, by simp, hd, ht, ?_⟩)
      exact .apply opening arguments few closing ho
  | @get _ _ _ d t _ _ _ dot name _ ih =>
    rcases ih with ⟨rfl, rfl, rfl⟩ | hcall | ⟨o, ws, d', t', rfl, rfl, hd, ht, ho⟩
    · exact .inr (.inr ⟨_, [], d, t, rfl, rfl, dot, name, .noSuffix⟩)
    · exact .inr (.inl hcall)
    · exact .inr (.inr ⟨o, d :: t :: ws, d', t', rfl, rfl, hd, ht, .get dot name ho⟩)
  | _ => trivial

/-- A variable is one identifier. -/
theorem operation_var {target : Reference}
    (h : Derives (.operation level) p n ts (.var target) n') :
    ∃ t, ts = [t] ∧ t.kind = .identifier ∧ target = ⟨n, t.ident⟩ ∧ n' = n + 1 := by
  rcases h.telling with hcall | ⟨op, _, _, _, happly⟩ | ⟨_, _, _, hunary⟩
  · cases hcall with
    | call head rest =>
      rcases rest.telling with ⟨rfl, rfl, rfl⟩ | ⟨_, _, _, hcall⟩ | ⟨_, _, _, _, hget, _⟩
      · cases head with
        | var name => exact ⟨_, rfl, name, rfl, rfl⟩
      · cases hcall
      · cases hget
  · cases op <;> cases happly
  · cases hunary

/-- A property is a call with a dot and an identifier behind it. -/
theorem operation_get {o : Expr} {name : Ident}
    (h : Derives (.operation level) p n ts (.get o name) n') :
    ∃ us d t, ts = us ++ [d, t] ∧ name = t.ident ∧ d.kind = .symbol .dot ∧
      t.kind = .identifier ∧ Derives .call p n us o n' := by
  rcases h.telling with hcall | ⟨op, _, _, _, happly⟩ | ⟨_, _, _, hunary⟩
  · cases hcall with
    | @call _ _ us _ _ vs _ _ head rest =>
      rcases rest.telling with ⟨-, rfl, -⟩ | ⟨_, _, _, hcall⟩ |
        ⟨o, ws, d, t, hget, rfl, hd, ht, ho⟩
      · cases head
      · cases hcall
      · cases hget
        exact ⟨us ++ ws, d, t, by simp, rfl, hd, ht, .call head ho⟩
  · cases op <;> cases happly
  · cases hunary

/-- Another property can be read behind a call. -/
def Phrase.Extends (d t : Token) :
    (phrase : Phrase) → Place → Nat → List Token → phrase.Tree → Nat → Prop
  | .suffixes callee, p, n, ts, e, n' =>
    Derives (.suffixes callee) p n (ts ++ [d, t]) (.get e t.ident) n'
  | _, _, _, _, _, _ => True

theorem Derives.extends {d t : Token} (hd : d.kind = .symbol .dot) (ht : t.kind = .identifier)
    {a : phrase.Tree} (h : Derives phrase p n ts a n') : phrase.Extends d t p n ts a n' := by
  induction h with
  | noSuffix => exact .get hd ht .noSuffix
  | apply opening arguments few closing _ _ ih =>
    have h := Derives.apply opening arguments few closing ih
    simpa [Phrase.Extends] using h
  | get dot name _ ih => exact .get dot name ih
  | _ => trivial

theorem operation_of_operand (h : Derives (.operand level) p n ts e n') :
    Derives (.operation level) p n ts e n' := by
  simpa using Derives.operation h .noOperator

/-- A call is an operation of the loosest level. -/
theorem operation_of_call (h : Derives .call p n ts e n') : Derives (.operation .or) p n ts e n' := by
  have hfactor : Derives (.operand .factor) p n ts e n' := .tightest rfl (.noUnary h)
  have hterm : Derives (.operand .term) p n ts e n' := .tighter rfl (operation_of_operand hfactor)
  have hcomparison : Derives (.operand .comparison) p n ts e n' :=
    .tighter rfl (operation_of_operand hterm)
  have hequality : Derives (.operand .equality) p n ts e n' :=
    .tighter rfl (operation_of_operand hcomparison)
  have hand : Derives (.operand .and) p n ts e n' := .tighter rfl (operation_of_operand hequality)
  exact operation_of_operand (.tighter rfl (operation_of_operand hand))

/-- What derives as the object of a property that is assigned to can be read as an operation. -/
theorem operation_of_property {o : Expr} {d t : Token} (h : Derives .call p n ts o n')
    (hd : d.kind = .symbol .dot) (ht : t.kind = .identifier) :
    Derives (.operation .or) p n (ts ++ [d, t]) (.get o t.ident) n' := by
  cases h with
  | call head rest =>
    have hcall := Derives.call head (rest.extends hd ht)
    rw [← List.append_assoc] at hcall
    exact operation_of_call hcall

end Lox.Grammar
