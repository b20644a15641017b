import Lox.Grammar.Program
import Lox.Proofs.Grammar.Complete.Basic
import Lox.Proofs.Syntax.Outline
import Mathlib.Data.List.Forall2

/-! # Holes in a program

A program is parsed twice. The guide has a class where the other text has
something else: a hole stands there. Because a class stands only where a
declaration may stand, the guide tells at which place of the grammar the hole is,
and that before it and behind it both parses take the same way.

Tokens of both texts read alike but for their spans, and none of them is the name
of the class in the hole. -/

namespace Lox

/-- Tokens that read alike, wherever they stand. -/
structure Token.Alike (t t' : Token) : Prop where
  kind : t'.kind = t.kind
  lexeme : t'.lexeme = t.lexeme

/-- A token that reads like another one, and not like the name of a class. -/
structure Token.Like (name : String) (t t' : Token) : Prop extends Token.Alike t t' where
  other : t.lexeme ≠ name

namespace Grammar

open Rule

/-- Tokens that read alike. -/
abbrev Likes (name : String) : List Token → List Token → Prop := List.Forall₂ (Token.Like name)

/-- A list of declarations that is being read: that of the program, or that of a block. -/
inductive Loop where
  | program
  | block (p : Place)

/-- Where the declarations of a list stand. -/
def Loop.place : Loop → Place
  | program => .top
  | block p => p

/-- Reads the declarations of a list, after those already read. -/
def Loop.run : Loop → Nat → Array Stmt → Rule (Array Stmt)
  | program => Grammar.program
  | block p => fun fuel done => declarations fuel p done

/-- The list ends here. -/
def Loop.over : Loop → Cursor → Bool
  | program, c => c.atEnd
  | block _, c => c.atEnd || c.sees (.symbol .rightBrace)

/-- From a cursor the declarations of a list are read up to another one, whatever is read then,
unless the steps are used up. -/
def Loop.Leads (loop : Loop) (done : Array Stmt) (c : Cursor) (done' : Array Stmt) (c' : Cursor) :
    Prop :=
  ∀ fuel, (∃ d, loop.run fuel done c = .error .starved d) ∨
    ∃ fuel' ≤ fuel, loop.run fuel done c = loop.run fuel' done' c'

/-- What the guide has in the hole: a class without methods, and behind it some more declarations.
What stands behind them stands behind the hole in the other text too. -/
structure Hole where
  keyword : Token
  name : Token
  opening : Token
  closing : Token
  extra : List Token
  count : Nat
  behind : List Token
  isKeyword : keyword.kind = .keyword .class_
  isName : name.kind = .identifier
  opens : opening.kind = .symbol .leftBrace
  closes : closing.kind = .symbol .rightBrace
  /-- A list of declarations that is read on without an error reaches the end of the hole. -/
  passes : ∀ (loop : Loop) {fuel : Nat} {done all : Array Stmt} {finish n : Nat}
    {errors : Array Diagnostic} {c' : Cursor},
    loop.run fuel done ⟨extra ++ behind, finish, n, errors⟩ = .ok all c' →
    c'.errors.size = errors.size → ∃ (fuel' : Nat) (more : List Stmt) (n' : Nat),
      fuel' ≤ fuel ∧ more.length = count ∧
        loop.run fuel' (done ++ more.toArray) ⟨behind, finish, n', errors⟩ = .ok all c'

namespace Hole

/-- What the guide has from the hole on. -/
def rest (H : Hole) : List Token :=
  H.keyword :: H.name :: H.opening :: H.closing :: (H.extra ++ H.behind)

variable (H : Hole)

/-- The guide is before the hole. -/
def Ahead (c : Cursor) : Prop := ∃ u, u ≠ [] ∧ c.tokens = u ++ H.rest

/-- The guide is at the hole. -/
def At (c : Cursor) : Prop := c.tokens = H.rest

/-- The guide is behind the hole. -/
def Past (c : Cursor) : Prop := c.tokens.length ≤ H.behind.length

/-- The guide is not inside the hole. -/
def Outside (c : Cursor) : Prop := H.Ahead c ∨ H.At c ∨ H.Past c

/-- The guide comes to the other side of the hole. -/
def Crosses (c c' : Cursor) : Prop := H.Past c' ∧ ¬ H.Past c

instance (c c' : Cursor) : Decidable (H.Crosses c c') :=
  inferInstanceAs (Decidable (c'.tokens.length ≤ H.behind.length ∧
    ¬ c.tokens.length ≤ H.behind.length))

/-- In a list of declarations at this place the guide reads on behind the class without an error. -/
def Reopens (p : Place) : Prop := ∃ (loop : Loop) (fuel : Nat) (done all : Array Stmt)
    (finish n : Nat) (errors : Array Diagnostic) (c' : Cursor), loop.place = p ∧
  loop.run fuel done ⟨H.extra ++ H.behind, finish, n, errors⟩ = .ok all c' ∧
    c'.errors.size = errors.size

variable {H}

theorem length_rest : H.behind.length + 4 ≤ H.rest.length := by
  simp [rest]

theorem Ahead.not_at {c : Cursor} (h : H.Ahead c) : ¬ H.At c := by
  obtain ⟨u, hu, htokens⟩ := h
  intro hat
  have hlength := congrArg List.length (htokens.symm.trans hat)
  have := List.length_pos_iff.mpr hu
  rw [List.length_append] at hlength
  omega

theorem Ahead.not_past {c : Cursor} (h : H.Ahead c) : ¬ H.Past c := by
  obtain ⟨u, -, htokens⟩ := h
  have := H.length_rest
  unfold Past
  rw [htokens, List.length_append]
  omega

theorem At.not_past {c : Cursor} (h : H.At c) : ¬ H.Past c := by
  have := H.length_rest
  unfold Past
  rw [h]
  omega

/-- The guide is not at the hole, but before or behind it. -/
def Off (H : Hole) (c : Cursor) : Prop := H.Ahead c ∨ H.Past c

theorem Off.outside {c : Cursor} (h : H.Off c) : H.Outside c := h.imp id .inr

theorem Off.not_at {c : Cursor} (h : H.Off c) : ¬ H.At c := by
  rcases h with h | h
  · exact h.not_at
  · exact fun hat => hat.not_past h

theorem Outside.off_or_at {c : Cursor} (h : H.Outside c) : H.Off c ∨ H.At c := by
  rcases h with h | h | h
  · exact .inl (.inl h)
  · exact .inr h
  · exact .inl (.inr h)

end Hole

/-- What the other text has in the hole and behind it. -/
structure Filling (H : Hole) where
  /-- All tokens from the hole on. -/
  tokens : List Token
  /-- The tokens behind the hole. -/
  behind : List Token
  /-- The errors that are found in the hole. -/
  errors : Array Diagnostic
  /-- The outlines of the statements that are read in the hole. -/
  added : List Stmt
  finish : Nat
  like : Likes H.name.lexeme H.behind behind
  noElse : Stops (· = .keyword .else_) tokens

namespace Filling

variable {H : Hole} (F : Filling H)

/-- What is left out of the trees of the guide, and what stands there instead. -/
def cut : Cut := ⟨H.name.lexeme, H.count, F.added⟩

/-- A list of declarations at this place is read on behind the hole, with the statements and the
errors of the filling, unless its steps are used up. -/
def Passes (p : Place) : Prop :=
  ∀ n, ∃ (n' : Nat) (more : List Stmt), Outline.stmts more = F.added ∧
    ∀ (loop : Loop) (done : Array Stmt) (errors : Array Diagnostic), loop.place = p →
      loop.Leads done ⟨F.tokens, F.finish, n, errors⟩ (done ++ more.toArray)
        ⟨F.behind, F.finish, n', errors ++ F.errors⟩

/-- Where the parse of the other text is when the guide is at a cursor. -/
inductive Follows (c d : Cursor) : Prop where
  | ahead {u u' : List Token} (some : u ≠ []) (like : Likes H.name.lexeme u u')
      (guide : c.tokens = u ++ H.rest) (tokens : d.tokens = u' ++ F.tokens)
      (finish : d.finish = F.finish)
  | at (guide : c.tokens = H.rest) (tokens : d.tokens = F.tokens) (finish : d.finish = F.finish)
  | past (short : H.Past c) (like : Likes H.name.lexeme c.tokens d.tokens)
      (finish : d.finish = F.finish)

/-- The errors that the other text has on a way of the guide. -/
def told (c c' : Cursor) : Array Diagnostic := if H.Crosses c c' then F.errors else #[]

variable {F} {c c' c'' d : Cursor}

theorem told_trans (h : c'.tokens <:+ c.tokens) (h' : c''.tokens <:+ c'.tokens) :
    F.told c c'' = F.told c c' ++ F.told c' c'' := by
  have hlength := h.length_le
  have hlength' := h'.length_le
  unfold told Hole.Crosses Hole.Past
  by_cases hpast : c'.tokens.length ≤ H.behind.length
  · have hend : c''.tokens.length ≤ H.behind.length := by omega
    simp [hpast, hend]
  · have hstart : ¬ c.tokens.length ≤ H.behind.length := by omega
    simp [hpast, hstart]

theorem told_of_not (h : ¬ H.Crosses c c') : F.told c c' = #[] := if_neg h

/-- Both take a token. -/
theorem Follows.take (h : F.Follows c d) (hoff : H.Off c) {t : Token} {ts : List Token}
    (ht : c.tokens = t :: ts) : ∃ t' ts', d.tokens = t' :: ts' ∧ t.Like H.name.lexeme t' ∧
      F.Follows { c with tokens := ts } { d with tokens := ts' } := by
  cases h with
  | @ahead u u' some like guide tokens finish =>
    cases like with
    | nil => exact absurd rfl some
    | @cons x y us us' hxy hrest =>
      rw [ht] at guide
      obtain ⟨rfl, rfl⟩ := List.cons.inj guide
      refine ⟨y, us' ++ F.tokens, tokens, hxy, ?_⟩
      cases us with
      | nil =>
        cases hrest
        exact .at rfl rfl finish
      | cons z us => exact .ahead (List.cons_ne_nil z us) hrest rfl rfl finish
  | «at» guide tokens finish => exact absurd guide hoff.not_at
  | past short like finish =>
    rw [ht] at like
    cases hd : d.tokens with
    | nil =>
      rw [hd] at like
      cases like
    | cons y ys =>
      rw [hd] at like
      obtain ⟨hxy, hrest⟩ := List.forall₂_cons.mp like
      have hshort : H.Past { c with tokens := ts } := by
        unfold Hole.Past at short ⊢
        rw [ht] at short
        exact Nat.le_of_succ_le short
      exact ⟨y, ys, rfl, hxy, .past hshort hrest finish⟩

/-- Nothing is left of both. -/
theorem Follows.nil (h : F.Follows c d) (hoff : H.Off c) (ht : c.tokens = []) : d.tokens = [] := by
  cases h with
  | ahead some like guide tokens finish => simp_all
  | «at» guide tokens finish => exact absurd guide hoff.not_at
  | past short like finish =>
    rw [ht] at like
    cases hd : d.tokens with
    | nil => rfl
    | cons y ys =>
      rw [hd] at like
      cases like

end Filling

/-- A step over one token leads to the hole at most. -/
theorem Hole.Off.take {H : Hole} {c : Cursor} {t : Token} {ts : List Token} (h : H.Off c)
    (ht : c.tokens = t :: ts) : H.Outside { c with tokens := ts } ∧
      ¬ H.Crosses c { c with tokens := ts } := by
  rcases h with ⟨u, hu, htokens⟩ | hpast
  · obtain _ | ⟨x, us⟩ := u
    · exact absurd rfl hu
    rw [ht] at htokens
    obtain ⟨rfl, rfl⟩ := List.cons.inj htokens
    have hnot : ¬ H.Past { c with tokens := us ++ H.rest } := by
      have := H.length_rest
      unfold Hole.Past
      simp only [List.length_append]
      omega
    refine ⟨?_, fun hcrosses => hnot hcrosses.1⟩
    cases us with
    | nil => exact .inr (.inl rfl)
    | cons y us => exact .inl ⟨y :: us, List.cons_ne_nil y us, rfl⟩
  · refine ⟨.inr (.inr ?_), fun hcrosses => hcrosses.2 hpast⟩
    unfold Hole.Past at hpast ⊢
    rw [ht] at hpast
    exact Nat.le_of_succ_le hpast

end Grammar
end Lox
