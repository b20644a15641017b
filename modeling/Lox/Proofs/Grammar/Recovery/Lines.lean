import Lox.Proofs.Grammar.Bound
import Lox.Proofs.Grammar.Complete.Basic
import Lox.Proofs.Grammar.Recovery.Holes
import Lox.Proofs.Renumber.Parse

/-! # What is read before a semicolon

Tokens without semicolons, braces and the keywords of statements are read in the
same way whatever comes behind the semicolon that ends them. A rule that unwinds
there unwinds before the semicolon or at it. -/

namespace Lox.Grammar

open Rule

variable {α β : Type}

/-- The kinds of tokens inside an expression: no semicolon, no brace and no keyword at which
recovery stops. -/
def TokenKind.Inner (kind : TokenKind) : Prop :=
  kind ≠ .symbol .semicolon ∧ kind ≠ .symbol .leftBrace ∧ kind ≠ .symbol .rightBrace ∧
    startsStatement kind = false

instance (kind : TokenKind) : Decidable (TokenKind.Inner kind) :=
  inferInstanceAs (Decidable (_ ∧ _))

/-- Two texts that are the same up to a semicolon, with the errors found in them before. -/
structure Line where
  semicolon : Token
  behind : List Token
  behind' : List Token
  errors : Array Diagnostic
  errors' : Array Diagnostic
  /-- Where the second text ends. -/
  finish' : Nat
  isSemicolon : semicolon.kind = .symbol .semicolon

namespace Line

variable (L : Line)

/-- The cursors stand at the same token before the semicolon, and the same errors have been found
on the way. -/
inductive Beside (c d : Cursor) : Prop where
  | mk (left : List Token) (more : Array Diagnostic) (inner : ∀ t ∈ left, TokenKind.Inner t.kind)
      (tokens : c.tokens = left ++ L.semicolon :: L.behind)
      (tokens' : d.tokens = left ++ L.semicolon :: L.behind') (nextId : d.nextId = c.nextId)
      (errors : c.errors = L.errors ++ more) (errors' : d.errors = L.errors' ++ more)
      (finish' : d.finish = L.finish')

/-- A rule unwinds in both texts at the same token. -/
def Breaks (r : Rule α) : Prop :=
  ∀ ⦃c d⦄, L.Beside c d → Ends r c (fun _ _ => True) fun halt c' => halt = .unwound →
    ∃ d', r d = .error .unwound d' ∧ L.Beside c' d'

/-- A rule does the same in both texts, and does not come to what is behind the semicolon. -/
def Within (r : Rule α) : Prop :=
  ∀ ⦃c d⦄, L.Beside c d → Ends r c (fun a c' => ∃ d', r d = .ok a d' ∧ L.Beside c' d')
    fun halt c' => halt = .unwound → ∃ d', r d = .error .unwound d' ∧ L.Beside c' d'

variable {L}

theorem Within.breaks {r : Rule α} (h : L.Within r) : L.Breaks r :=
  fun _ _ hcd => (h hcd).imp (fun _ _ _ => trivial) fun _ _ h => h

/-! ## Steps -/

/-- The next token of both texts is inside the line, or it is the semicolon. -/
theorem Beside.head {c d : Cursor} (h : L.Beside c d) :
    (∃ t ts ts', TokenKind.Inner t.kind ∧ c.tokens = t :: ts ∧ d.tokens = t :: ts' ∧
      L.Beside { c with tokens := ts } { d with tokens := ts' }) ∨
    c.tokens = L.semicolon :: L.behind ∧ d.tokens = L.semicolon :: L.behind' := by
  obtain ⟨left, more, inner, tokens, tokens', nextId, errors, errors', finish'⟩ := h
  cases left with
  | nil => exact .inr ⟨tokens, tokens'⟩
  | cons t ts =>
    obtain ⟨ht, hts⟩ := List.forall_mem_cons.mp inner
    exact .inl ⟨t, _, _, ht, tokens, tokens', ⟨ts, more, hts, rfl, rfl, nextId, errors, errors', finish'⟩⟩

theorem Beside.note {c d : Cursor} (h : L.Beside c d) (error : GrammarError) (span : Span) :
    L.Beside (c.note error span) (d.note error span) := by
  obtain ⟨left, more, inner, tokens, tokens', nextId, errors, errors', finish'⟩ := h
  refine ⟨left, more.push (.located (.grammar error) span), inner, tokens, tokens', nextId, ?_, ?_,
    finish'⟩
  · simp [Cursor.note, errors]
  · simp [Cursor.note, errors']

theorem Beside.here {c d : Cursor} (h : L.Beside c d) : d.here = c.here := by
  unfold Cursor.here
  rcases h.head with ⟨t, ts, ts', -, hts, hts', -⟩ | ⟨hts, hts'⟩ <;> rw [hts, hts']

theorem Beside.sees {c d : Cursor} (h : L.Beside c d) (kind : TokenKind) :
    d.sees kind = c.sees kind := by
  unfold Cursor.sees
  rcases h.head with ⟨t, ts, ts', -, hts, hts', -⟩ | ⟨hts, hts'⟩ <;> rw [hts, hts']

/-- No named function is declared in the line. -/
theorem Beside.seesBoth {c d : Cursor} (h : L.Beside c d) {second : TokenKind} :
    c.seesBoth (.keyword .fun_) second = false ∧ d.seesBoth (.keyword .fun_) second = false := by
  have hfirst : ∀ {e : Cursor} {t : Token} {ts : List Token}, e.tokens = t :: ts →
      t.kind ≠ .keyword .fun_ → e.seesBoth (.keyword .fun_) second = false := by
    intro e t ts hts ht
    cases ts <;> simp [Cursor.seesBoth, hts, ht]
  rcases h.head with ⟨t, ts, ts', ht, hts, hts', -⟩ | ⟨hts, hts'⟩
  · have hne : t.kind ≠ .keyword .fun_ := by
      intro hkind
      rw [hkind] at ht
      exact absurd ht (by decide)
    exact ⟨hfirst hts hne, hfirst hts' hne⟩
  · have hne : L.semicolon.kind ≠ .keyword .fun_ := by
      rw [L.isSemicolon]
      nofun
    exact ⟨hfirst hts hne, hfirst hts' hne⟩

theorem within_pure (a : α) : L.Within (pure a) := fun _ _ hcd => ⟨_, rfl, hcd⟩

theorem within_starve : L.Within (starve : Rule α) := fun _ _ _ h => by cases h

theorem within_refuse {error : GrammarError} : L.Within (refuse error : Rule α) := by
  intro c d hcd _
  refine ⟨d.note error d.here, rfl, ?_⟩
  rw [hcd.here]
  exact hcd.note error c.here

theorem within_note {error : GrammarError} {span : Span} : L.Within (note error span) :=
  fun _ _ hcd => ⟨_, rfl, hcd.note error span⟩

theorem within_noteHere {error : GrammarError} : L.Within (noteHere error) := by
  intro c d hcd
  refine ⟨d.note error d.here, rfl, ?_⟩
  rw [hcd.here]
  exact hcd.note error c.here

/-- What follows a rule begins at the same token in both texts. -/
theorem Within.seq {r : Rule α} {k : α → Rule β} {c d : Cursor} (h : L.Within r)
    (hcd : L.Beside c d) (ok : EStateM.Result Halt Cursor β → β → Cursor → Prop)
    (hk : ∀ a c' d', L.Beside c' d' → Ends (k a) c' (ok (k a d')) fun halt c'' => halt = .unwound →
      ∃ d'', k a d' = .error .unwound d'' ∧ L.Beside c'' d'') :
    Ends (r >>= k) c (ok ((r >>= k) d)) fun halt c' => halt = .unwound →
      ∃ d', (r >>= k) d = .error .unwound d' ∧ L.Beside c' d' := by
  rw [ends_bind]
  refine (h hcd).imp ?_ ?_
  · intro a c' ⟨d', hd', hcd'⟩
    rw [bind_of_ok hd']
    exact hk a c' d' hcd'
  · intro halt c' hunwound hhalt
    obtain ⟨d', hd', hcd'⟩ := hunwound hhalt
    exact ⟨d', bind_of_error hd', hcd'⟩

theorem Within.bind {r : Rule α} {k : α → Rule β} (h : L.Within r) (hk : ∀ a, L.Within (k a)) :
    L.Within (r >>= k) := by
  intro c d hcd
  refine h.seq hcd (fun result b c' => ∃ d', result = .ok b d' ∧ L.Beside c' d') ?_
  exact fun a _ _ hcd' => hk a hcd'

theorem Within.bindBreaks {r : Rule α} {k : α → Rule β} (h : L.Within r)
    (hk : ∀ a, L.Breaks (k a)) : L.Breaks (r >>= k) :=
  fun _ _ hcd => h.seq hcd (fun _ _ _ => True) fun a _ _ hcd' => hk a hcd'

theorem Within.map {r : Rule α} {f : α → β} (h : L.Within r) : L.Within (f <$> r) := by
  rw [map_eq_pure_bind]
  exact h.bind fun a => within_pure (f a)

theorem within_fresh : L.Within fresh := by
  intro c d hcd
  obtain ⟨left, more, inner, tokens, tokens', nextId, errors, errors', finish'⟩ := hcd
  refine ⟨{ d with nextId := d.nextId + 1 }, ?_, ?_⟩
  · rw [← nextId]
    rfl
  · exact ⟨left, more, inner, tokens, tokens', congrArg (· + 1) nextId, errors, errors', finish'⟩

theorem within_sees {kind : TokenKind} : L.Within (test (·.sees kind)) := by
  intro c d hcd
  refine ⟨d, ?_, hcd⟩
  show EStateM.Result.ok (d.sees kind) d = _
  rw [hcd.sees]

theorem within_takeIf {γ : Type} {select : TokenKind → Option γ}
    (hselect : select (.symbol .semicolon) = none) : L.Within (takeIf select) := by
  intro c d hcd
  unfold Ends takeIf
  rcases hcd.head with ⟨t, ts, ts', -, hts, hts', hnext⟩ | ⟨hts, hts'⟩
  · rw [hts, hts']
    cases hx : select t.kind with
    | none => simp only [hx]; exact ⟨d, rfl, hcd⟩
    | some x => simp only [hx]; exact ⟨_, rfl, hnext⟩
  · rw [hts, hts']
    simp only [L.isSemicolon, hselect]
    exact ⟨d, rfl, hcd⟩

theorem within_accept {kind : TokenKind} (hkind : kind ≠ .symbol .semicolon) :
    L.Within (accept kind) := by
  intro c d hcd
  unfold Ends accept
  rcases hcd.head with ⟨t, ts, ts', -, hts, hts', hnext⟩ | ⟨hts, hts'⟩
  · rw [hts, hts']
    by_cases ht : t.kind = kind
    · simp only [if_pos ht]
      exact ⟨_, rfl, hnext⟩
    · simp only [if_neg ht]
      exact ⟨d, rfl, hcd⟩
  · have hne : L.semicolon.kind ≠ kind := by
      rw [L.isSemicolon]
      exact hkind.symm
    rw [hts, hts']
    simp only [if_neg hne]
    exact ⟨d, rfl, hcd⟩

/-- A token of another kind is not found in the line. -/
theorem accept_absent {kind : TokenKind} {k : Option Token → Rule β} {c d : Cursor}
    (hcd : L.Beside c d) (hkind : ¬ TokenKind.Inner kind) (hne : kind ≠ .symbol .semicolon) :
    (accept kind >>= k) c = k none c ∧ (accept kind >>= k) d = k none d := by
  rcases hcd.head with ⟨t, ts, ts', ht, hts, hts', -⟩ | ⟨hts, hts'⟩
  · have htkind : t.kind ≠ kind := fun h => hkind (h ▸ ht)
    simp only [Bind.bind, EStateM.bind, accept, hts, hts', if_neg htkind, and_self]
  · have htkind : L.semicolon.kind ≠ kind := by
      rw [L.isSemicolon]
      exact hne.symm
    simp only [Bind.bind, EStateM.bind, accept, hts, hts', if_neg htkind, and_self]

theorem within_absent {kind : TokenKind} {k : Option Token → Rule β}
    (hkind : ¬ TokenKind.Inner kind ∧ kind ≠ .symbol .semicolon) (h : L.Within (k none)) :
    L.Within (accept kind >>= k) := by
  intro c d hcd
  obtain ⟨hc, hd⟩ := accept_absent hcd hkind.1 hkind.2 (k := k)
  unfold Ends
  rw [hc, hd]
  exact h hcd

theorem breaks_absent {kind : TokenKind} {k : Option Token → Rule β}
    (hkind : ¬ TokenKind.Inner kind ∧ kind ≠ .symbol .semicolon) (h : L.Breaks (k none)) :
    L.Breaks (accept kind >>= k) := by
  intro c d hcd
  obtain ⟨hc, hd⟩ := accept_absent hcd hkind.1 hkind.2 (k := k)
  unfold Ends
  rw [hc, hd]
  exact h hcd

theorem breaks_test {f : Cursor → Bool} {k : Bool → Rule β} (seen : Bool)
    (hf : ∀ c d, L.Beside c d → f c = seen ∧ f d = seen) (h : L.Breaks (k seen)) :
    L.Breaks (test f >>= k) := by
  intro c d hcd
  have hstep : ∀ {e : Cursor}, f e = seen → (test f >>= k) e = k seen e := by
    intro e he
    show k (f e) e = _
    rw [he]
  obtain ⟨hc, hd⟩ := hf c d hcd
  unfold Ends
  rw [hstep hc, hstep hd]
  exact h hcd

theorem within_found {γ : Type} {r : Rule (Option γ)} {k : Option γ → Rule β} (h : L.Within r)
    (hsome : ∀ x, L.Within (k (some x))) (hnone : L.Within (k none)) : L.Within (r >>= k) := by
  refine h.bind fun found => ?_
  cases found with
  | none => exact hnone
  | some x => exact hsome x

theorem within_expect {kind : TokenKind} {what : String} (hkind : kind ≠ .symbol .semicolon) :
    L.Within (expect kind what) :=
  within_found (within_accept hkind) (fun t => within_pure t) within_refuse

theorem within_name {what : String} : L.Within (name what) :=
  Within.bind (within_expect (by decide)) fun _ => within_pure _

theorem within_nested {p : Place} {r : Place → Rule α} (h : L.Within (r p.deeper)) :
    L.Within (nested p r) := by
  unfold nested
  split
  · exact within_refuse
  · exact h

theorem breaks_nested {p : Place} {r : Place → Rule α} (h : L.Breaks (r p.deeper)) :
    L.Breaks (nested p r) := by
  unfold nested
  split
  · exact within_refuse.breaks
  · exact h

theorem within_noteIf {reason : Prop} [Decidable reason] {mark : Rule PUnit} {k : PUnit → Rule β}
    (hmark : L.Within mark) (h : L.Within (k ⟨⟩)) :
    L.Within (if reason then mark >>= k else k ⟨⟩) := by
  split
  · exact hmark.bind fun _ => h
  · exact h

/-- The semicolon itself is taken, or the rule unwinds before it. -/
theorem breaks_semicolon {what : String} {a : α} :
    L.Breaks (expect (.symbol .semicolon) what >>= fun _ => pure a) := by
  intro c d hcd
  have hwithin : L.Within (refuse (.expected what) : Rule α) := within_refuse
  have hrefuse := hwithin hcd
  rcases hcd.head with ⟨t, ts, ts', ht, hts, hts', -⟩ | ⟨hts, -⟩
  · have hne : t.kind ≠ .symbol .semicolon := ht.1
    have hstep : ∀ {e : Cursor} {us : List Token}, e.tokens = t :: us →
        (expect (.symbol .semicolon) what >>= fun _ => (pure a : Rule α)) e =
          (refuse (.expected what) : Rule α) e := by
      intro e us he
      simp only [expect, Bind.bind, EStateM.bind, accept, he, if_neg hne]
      rfl
    unfold Ends at hrefuse ⊢
    rw [hstep hts, hstep hts']
    exact hrefuse
  · unfold Ends
    simp only [expect, Bind.bind, EStateM.bind, accept, hts, if_pos L.isSemicolon]
    trivial

/-! ## Expressions -/

theorem within_assignTo (target : Expr) (equals : Span) (value : Expr) :
    L.Within (assignTo target equals value) := by
  cases target with
  | var target => exact within_fresh.bind fun id => within_pure _
  | get object name => exact within_pure _
  | _ => exact within_note.bind fun _ => within_pure _

/-- What the rules of expressions do in a number of steps. -/
structure Reading (L : Line) (fuel : Nat) : Prop where
  expression : ∀ p, L.Within (expression fuel p)
  assignment : ∀ p, L.Within (assignment fuel p)
  operation : ∀ p level, L.Within (operation fuel p level)
  chain : ∀ p level left, L.Within (chain fuel p level left)
  operand : ∀ p level, L.Within (operand fuel p level)
  unary : ∀ p, L.Within (unary fuel p)
  calls : ∀ p callee, L.Within (calls fuel p callee)
  argumentList : ∀ p, L.Within (argumentList fuel p)
  arguments : ∀ p done, L.Within (arguments fuel p done)
  primary : ∀ p, L.Within (primary fuel p)

section

variable {fuel : Nat} (ih : Reading L fuel)
include ih

theorem within_assignment (p : Place) : L.Within (assignment (fuel + 1) p) := by
  rw [assignment]
  refine (ih.operation p .or).bind fun target => ?_
  refine within_found (within_accept (by decide)) (fun equals => ?_) (within_pure target)
  exact (ih.assignment p).bind fun value => within_assignTo target _ value

theorem within_chain (p : Place) (level : Level) (left : Expr) :
    L.Within (chain (fuel + 1) p level left) := by
  rw [chain]
  refine within_found (within_takeIf (by cases level <;> rfl)) (fun found => ?_) (within_pure left)
  exact (ih.operand p level).bind fun right => ih.chain p level _

theorem within_operand (p : Place) (level : Level) : L.Within (operand (fuel + 1) p level) := by
  rw [operand]
  cases level.tighter? with
  | none => exact ih.unary p
  | some tighter => exact ih.operation p tighter

theorem within_unary (p : Place) : L.Within (unary (fuel + 1) p) := by
  rw [unary]
  refine within_found (within_takeIf rfl) (fun found => ?_) ?_
  · exact (within_nested (ih.unary p.deeper)).bind fun operand => within_pure _
  · exact (ih.primary p).bind fun head => ih.calls p head

theorem within_calls (p : Place) (callee : Expr) : L.Within (calls (fuel + 1) p callee) := by
  rw [calls]
  refine within_found (within_accept (by decide)) (fun opened => ?_) ?_
  · refine (ih.argumentList p).bind fun args => ?_
    exact Within.bind (within_expect (by decide)) fun close => ih.calls p _
  · refine within_found (within_accept (by decide)) (fun dot => ?_) (within_pure callee)
    exact within_name.bind fun property => ih.calls p _

theorem within_argumentList (p : Place) : L.Within (argumentList (fuel + 1) p) := by
  rw [argumentList]
  refine within_sees.bind fun seen => ?_
  cases seen with
  | true => exact within_pure []
  | false => exact (ih.arguments p #[]).bind fun args => within_pure _

theorem within_arguments (p : Place) (done : Array Expr) :
    L.Within (arguments (fuel + 1) p done) := by
  rw [arguments]
  refine within_noteIf within_noteHere ((ih.expression p).bind fun arg => ?_)
  exact within_found (within_accept (by decide)) (fun _ => ih.arguments p _) (within_pure _)

theorem within_primary (p : Place) : L.Within (primary (fuel + 1) p) := by
  rw [primary]
  refine within_found (within_takeIf rfl) (fun _ => within_pure _) ?_
  refine within_found (within_accept (by decide))
    (fun _ => within_fresh.bind fun _ => within_pure _) ?_
  refine within_found (within_accept (by decide)) (fun opened => ?_) ?_
  · refine (ih.expression p).bind fun inner => ?_
    exact Within.bind (within_expect (by decide)) fun _ => within_pure _
  refine within_found (within_accept (by decide))
    (fun _ => within_fresh.bind fun _ => within_pure _) ?_
  refine within_found (within_accept (by decide)) (fun _ => ?_) ?_
  · refine Within.bind (within_expect (by decide)) fun _ => within_name.bind fun method => ?_
    exact within_fresh.bind fun _ => within_pure _
  exact within_absent (by decide) within_refuse

end

theorem reading (L : Line) : ∀ fuel, Reading L fuel
  | 0 => by constructor <;> intros <;> exact within_starve
  | fuel + 1 => by
    have ih := reading L fuel
    exact {
      expression := fun p => by
        rw [expression]
        exact within_nested (ih.assignment p.deeper)
      assignment := within_assignment ih
      operation := fun p level => by
        rw [operation]
        exact (ih.operand p level).bind fun left => ih.chain p level left
      chain := within_chain ih
      operand := within_operand ih
      unary := within_unary ih
      calls := within_calls ih
      argumentList := within_argumentList ih
      arguments := within_arguments ih
      primary := within_primary ih }

/-! ## Statements -/

variable (fuel : Nat) (p : Place)

theorem breaks_varDeclaration : L.Breaks (varDeclaration fuel p) := by
  cases fuel with
  | zero => exact within_starve.breaks
  | succ fuel =>
    rw [varDeclaration]
    refine within_name.bindBreaks fun name => ?_
    refine Within.bindBreaks (within_accept (by decide)) fun found => ?_
    cases found with
    | none => exact breaks_semicolon
    | some _ => exact ((reading L fuel).expression p).map.bindBreaks fun _ => breaks_semicolon

theorem breaks_expressionStatement : L.Breaks (expressionStatement fuel p) := by
  cases fuel with
  | zero => exact within_starve.breaks
  | succ fuel =>
    rw [expressionStatement]
    exact ((reading L fuel).expression p).bindBreaks fun _ => breaks_semicolon

theorem breaks_breakStatement (keyword : Span) : L.Breaks (breakStatement p keyword) := by
  unfold breakStatement
  split
  · exact within_note.bindBreaks fun _ => breaks_semicolon
  · exact breaks_semicolon

theorem breaks_returnStatement (keyword : Span) : L.Breaks (returnStatement fuel p keyword) := by
  cases fuel with
  | zero => exact within_starve.breaks
  | succ fuel =>
    rw [returnStatement]
    have hvalue : L.Within (optionalExpression fuel p .semicolon) := by
      cases fuel with
      | zero => exact within_starve
      | succ fuel =>
        rw [optionalExpression]
        refine within_sees.bind fun seen => ?_
        cases seen with
        | true => exact within_pure none
        | false => exact ((reading L fuel).expression p).map
    exact hvalue.bindBreaks fun _ => breaks_semicolon

theorem breaks_statement : L.Breaks (statement fuel p) := by
  cases fuel with
  | zero => exact within_starve.breaks
  | succ fuel =>
    rw [statement]
    refine breaks_nested ?_
    cases fuel with
    | zero => exact within_starve.breaks
    | succ fuel =>
      rw [statementBody]
      refine breaks_absent (by decide) (breaks_absent (by decide) (breaks_absent (by decide) ?_))
      refine Within.bindBreaks (within_accept (by decide)) fun found => ?_
      cases found with
      | some keyword => exact breaks_breakStatement _ _
      | none =>
        exact breaks_absent (by decide) (breaks_absent (by decide)
          (breaks_absent (by decide) (breaks_expressionStatement fuel p.deeper)))

theorem breaks_declared : L.Breaks (declared fuel p) := by
  cases fuel with
  | zero => exact within_starve.breaks
  | succ fuel =>
    rw [declared]
    refine breaks_absent (by decide) (breaks_test false (fun c d hcd => hcd.seesBoth) ?_)
    exact breaks_absent (by decide) (breaks_statement fuel p)

end Line

/-! ## What recovery passes over -/

section

variable {left : List Token} {semi last : Token} {behind : List Token}

theorem skipAfter_line (inner : ∀ t ∈ left, TokenKind.Inner t.kind)
    (hsemi : semi.kind = .symbol .semicolon) (hlast : last.kind ≠ .symbol .semicolon) :
    skipAfter last (left ++ semi :: behind) = behind := by
  induction left generalizing last with
  | nil => cases behind <;> simp [skipAfter, hlast, hsemi, startsStatement]
  | cons t ts ih =>
    obtain ⟨⟨hsymbol, -, -, hstarts⟩, hts⟩ := List.forall_mem_cons.mp inner
    simp [skipAfter, hlast, hstarts, ih hts hsymbol]

/-- Recovery goes on right behind the semicolon. -/
theorem resume_line (inner : ∀ t ∈ left, TokenKind.Inner t.kind)
    (hsemi : semi.kind = .symbol .semicolon) : resume (left ++ semi :: behind) = behind := by
  cases left with
  | nil => cases behind <;> simp [resume, skipAfter, hsemi]
  | cons t ts =>
    obtain ⟨⟨hsymbol, -⟩, hts⟩ := List.forall_mem_cons.mp inner
    exact skipAfter_line hts hsemi hsymbol

end

/-- Tokens that recovery passes over if they are no statement: neither a semicolon nor a brace is
among them, nor a keyword at which recovery stops, except that they may begin with `var`, `print`
or `return`. They do not begin with `else`. -/
structure Skippable (bad : List Token) : Prop where
  some : bad ≠ []
  unmarked : ∀ t ∈ bad, t.kind ≠ .symbol .semicolon ∧ t.kind ≠ .symbol .leftBrace ∧
    t.kind ≠ .symbol .rightBrace
  first : ∀ t ∈ bad.head?, t.kind ≠ .keyword .else_ ∧ (startsStatement t.kind = true →
    t.kind = .keyword .var ∨ t.kind = .keyword .print ∨ t.kind = .keyword .return_)
  later : ∀ t ∈ bad.tail, startsStatement t.kind = false

namespace Skippable

variable {bad : List Token} {t : Token} {ts : List Token}

theorem tail_inner (h : Skippable (t :: ts)) : ∀ u ∈ ts, TokenKind.Inner u.kind := by
  intro u hu
  obtain ⟨hsemi, hleft, hright⟩ := h.unmarked u (List.mem_cons_of_mem t hu)
  exact ⟨hsemi, hleft, hright, h.later u hu⟩

/-- The first token is one inside the line, or a keyword with an expression behind it. -/
theorem head_cases (h : Skippable (t :: ts)) : TokenKind.Inner t.kind ∨
    t.kind = .keyword .var ∨ t.kind = .keyword .print ∨ t.kind = .keyword .return_ := by
  obtain ⟨hsemi, hleft, hright⟩ := h.unmarked t List.mem_cons_self
  cases hstarts : startsStatement t.kind with
  | false => exact .inl ⟨hsemi, hleft, hright, hstarts⟩
  | true => exact .inr ((h.first t rfl).2 hstarts)

end Skippable

/-- Where both texts have unwound, recovery leads behind the semicolon of the second one, and the
same errors have been found. -/
structure Line.Resumes (L : Line) (c d : Cursor) : Prop where
  tokens : resume d.tokens = L.behind'
  nextId : d.nextId = c.nextId
  errors : ∃ more, c.errors = L.errors ++ more ∧ d.errors = L.errors' ++ more
  finish : d.finish = L.finish'

theorem Line.Beside.resumes {L : Line} {c d : Cursor} (h : L.Beside c d) : L.Resumes c d := by
  obtain ⟨left, more, inner, tokens, tokens', nextId, errors, errors', finish'⟩ := h
  exact ⟨by rw [tokens', resume_line inner L.isSemicolon], nextId, ⟨more, errors, errors'⟩, finish'⟩

/-- A rule that unwinds in the first text unwinds in the second one, and recovery leads behind the
semicolon. -/
def Line.Unwinds (L : Line) (r : Rule α) (c d : Cursor) : Prop :=
  ∀ c', r c = .error .unwound c' → ∃ d', r d = .error .unwound d' ∧ L.Resumes c' d'

theorem Line.Breaks.unwinds {L : Line} {r : Rule α} {c d : Cursor} (h : L.Breaks r)
    (hcd : L.Beside c d) : L.Unwinds r c d := by
  intro c' hr
  obtain ⟨d', hd', hend⟩ := (h hcd).of_error hr rfl
  exact ⟨d', hd', hend.resumes⟩

section

variable {c : Cursor} {t : Token} {ts : List Token} {fuel : Nat} {p : Place}

theorem declared_var (hc : c.tokens = t :: ts) (ht : t.kind = .keyword .var) :
    declared (fuel + 1) p c = varDeclaration fuel p { c with tokens := ts } := by
  cases ts <;> simp [declared, Bind.bind, EStateM.bind, accept, test, Cursor.seesBoth, hc, ht]

theorem declared_statement (hc : c.tokens = t :: ts)
    (ht : t.kind = .keyword .print ∨ t.kind = .keyword .return_) :
    declared (fuel + 1) p c = statement fuel p c := by
  rcases ht with ht | ht <;> cases ts <;>
    simp [declared, Bind.bind, EStateM.bind, accept, test, Cursor.seesBoth, hc, ht]

theorem statementBody_print (hc : c.tokens = t :: ts) (ht : t.kind = .keyword .print) :
    statementBody (fuel + 1) p c =
      (expression fuel p >>= fun value => expect (.symbol .semicolon) "';' after value" >>= fun _ =>
        pure (Stmt.print value)) { c with tokens := ts } := by
  simp [statementBody, Bind.bind, EStateM.bind, accept, hc, ht]

theorem statementBody_return (hc : c.tokens = t :: ts) (ht : t.kind = .keyword .return_) :
    statementBody (fuel + 1) p c = returnStatement fuel p t.span { c with tokens := ts } := by
  simp [statementBody, Bind.bind, EStateM.bind, accept, hc, ht]

end

theorem Skippable.declared_unwinds {bad : List Token} (h : Skippable bad) (L : Line) {fuel : Nat}
    {p : Place} {c d : Cursor} (hc : c.tokens = bad ++ L.semicolon :: L.behind)
    (hd : d.tokens = bad ++ L.semicolon :: L.behind') (hn : d.nextId = c.nextId)
    (herrors : c.errors = L.errors) (herrors' : d.errors = L.errors')
    (hfinish : d.finish = L.finish') : L.Unwinds (declared fuel p) c d := by
  obtain _ | ⟨t, ts⟩ := bad
  · exact absurd rfl h.some
  have hnext : L.Beside { c with tokens := ts ++ L.semicolon :: L.behind }
      { d with tokens := ts ++ L.semicolon :: L.behind' } :=
    ⟨ts, #[], h.tail_inner, rfl, rfl, hn, herrors, herrors', hfinish⟩
  obtain _ | fuel := fuel
  · intro c' hrun
    cases hrun
  rcases h.head_cases with hinner | hvar | hstatement
  · have hall : ∀ u ∈ t :: ts, TokenKind.Inner u.kind :=
      List.forall_mem_cons.mpr ⟨hinner, h.tail_inner⟩
    exact (Line.breaks_declared _ p).unwinds
      ⟨t :: ts, #[], hall, hc, hd, hn, herrors, herrors', hfinish⟩
  · unfold Line.Unwinds
    rw [declared_var hc hvar, declared_var hd hvar]
    exact (Line.breaks_varDeclaration fuel p).unwinds hnext
  · unfold Line.Unwinds
    rw [declared_statement hc hstatement, declared_statement hd hstatement]
    obtain _ | fuel := fuel
    · intro c' hrun
      cases hrun
    rw [statement]
    unfold nested
    split
    · -- The nesting is too deep already, and the keyword is the token that is skipped first.
      intro c' hrun
      obtain ⟨-, rfl⟩ := EStateM.Result.error.inj hrun
      refine ⟨d.note .nestingTooDeep d.here, rfl, ?_, hn, ?_, hfinish⟩
      · have hsymbol : t.kind ≠ .symbol .semicolon := (h.unmarked t List.mem_cons_self).1
        show resume d.tokens = _
        rw [hd]
        exact skipAfter_line h.tail_inner L.isSemicolon hsymbol
      · have hhere : d.here = c.here := by
          simp only [Cursor.here, hc, hd, List.cons_append]
        exact ⟨#[.located (.grammar .nestingTooDeep) c.here], by simp [Cursor.note, herrors],
          by simp [Cursor.note, herrors', hhere]⟩
    · dsimp only
      obtain _ | fuel := fuel
      · intro c' hrun
        cases hrun
      rcases hstatement with hprint | hreturn
      · rw [statementBody_print hc hprint, statementBody_print hd hprint]
        refine Line.Breaks.unwinds (Line.Within.bindBreaks ?_ fun _ => Line.breaks_semicolon) hnext
        exact (Line.reading L fuel).expression p.deeper
      · rw [statementBody_return hc hreturn, statementBody_return hd hreturn]
        exact (Line.breaks_returnStatement fuel p.deeper t.span).unwinds hnext

/-- A declaration that fails before a semicolon is left out wherever it stands, with the same
errors, and what comes behind the semicolon is read next. -/
theorem Skippable.left_out {bad : List Token} (h : Skippable bad) {semi : Token}
    (hsemi : semi.kind = .symbol .semicolon) {fuel finish : Nat} {p : Place} {c' : Cursor}
    (hfails : declaration fuel p (.start ⟨bad ++ [semi], finish⟩ 0) = .ok none c')
    (behind : List Token) (finish' n : Nat) :
    ∃ n', ∀ (fuel' : Nat) (errors : Array Diagnostic),
      Gives (declaration fuel' p) ⟨bad ++ semi :: behind, finish', n, errors⟩ none
        ⟨behind, finish', n', errors ++ c'.errors⟩ := by
  refine ⟨c'.nextId + n, fun fuel' errors => ?_⟩
  obtain _ | fuel := fuel
  · cases hfails
  let L : Line := ⟨semi, [], behind, #[], errors, finish', hsemi⟩
  have hunwinds : L.Unwinds (declared fuel p) (.start ⟨bad ++ [semi], finish⟩ 0)
      ⟨bad ++ semi :: behind, finish', 0, errors⟩ :=
    h.declared_unwinds L rfl rfl rfl rfl rfl rfl
  have hleft : declaration (fuel + 1) p ⟨bad ++ semi :: behind, finish', 0, errors⟩ =
      .ok none ⟨behind, finish', c'.nextId, errors ++ c'.errors⟩ := by
    rw [declaration] at hfails ⊢
    unfold Rule.recover at hfails ⊢
    cases hrun : declared fuel p (.start ⟨bad ++ [semi], finish⟩ 0) with
    | ok s c₁ => rw [hrun] at hfails; cases hfails
    | error halt c₁ =>
      rw [hrun] at hfails
      cases halt with
      | starved => cases hfails
      | unwound =>
        obtain ⟨-, rfl⟩ := EStateM.Result.ok.inj hfails
        obtain ⟨⟨ts, finish₁, n₁, errors₁⟩, hd, htokens, hn, ⟨more, hmore, hmore'⟩, hfinish⟩ :=
          hunwinds c₁ hrun
        rw [hd]
        simp_all [L]
  -- The number of the first node and the bound on steps make no difference.
  have hshift := ((shifting (n := 0) (k := n) (ρ := (· + n)) (fun _ _ => rfl) (fuel + 1)).declaration
    p _ (Nat.zero_le _)).of_ok hleft
  have hstart : declaration (fuel + 1) p ⟨bad ++ semi :: behind, finish', n, errors⟩ =
      .ok none ⟨behind, finish', c'.nextId + n, errors ++ c'.errors⟩ := by
    have hahead := hshift.2
    simp only [Cursor.ahead, Nat.zero_add] at hahead
    exact hahead
  exact ((agreeing (fuel + 1) fuel').declaration p).of_ok hstart

end Lox.Grammar
