import Lox.Proofs.Grammar.Complete
import Lox.Proofs.Grammar.Recovery.Lines

/-! # Statements without their semicolon

A statement that its semicolon ends is read up to there. What comes next instead
of the semicolon cannot go on with the statement: one error is found, and the
recovery skips from there. -/

namespace Lox.Grammar

open Rule

variable {α β : Type} {p : Place} {n n' : Nat} {ts us : List Token} {c c' c'' d : Cursor}

/-! ## Failing rules -/

/-- A rule unwinds at a cursor, or its steps are used up. -/
def Fails (rule : Rule α) (c c' : Cursor) : Prop :=
  rule c = .error .unwound c' ∨ ∃ d, rule c = .error .starved d

theorem fails_starve : Fails (starve : Rule α) c c' := .inr ⟨c, rfl⟩

theorem fails_refuse {error : GrammarError} :
    Fails (refuse error : Rule α) c (c.note error c.here) := .inl rfl

theorem Fails.of_step {rule rule' : Rule α} (h : Fails rule' d c') (hstep : rule c = rule' d) :
    Fails rule c c' := by
  unfold Fails at h ⊢
  rw [hstep]
  exact h

theorem Fails.bind {rule : Rule α} {k : α → Rule β} (h : Fails rule c c') :
    Fails (rule >>= k) c c' := by
  rcases h with h | ⟨d, h⟩
  · exact .inl (bind_of_error h)
  · exact .inr ⟨d, bind_of_error h⟩

theorem Fails.map {rule : Rule α} {f : α → β} (h : Fails rule c c') : Fails (f <$> rule) c c' := by
  rw [map_eq_pure_bind]
  exact h.bind

/-- What is read up to a cursor fails there. -/
theorem Gives.bindFails {rule : Rule α} {k : α → Rule β} {a : α} (h : Gives rule c a c')
    (hk : Fails (k a) c' c'') : Fails (rule >>= k) c c'' := by
  rcases h with h | ⟨d, h⟩
  · exact hk.of_step (bind_of_ok h)
  · exact .inr ⟨d, bind_of_error h⟩

theorem Fails.recover {rule : Rule α} (h : Fails rule c c') :
    Gives (Rule.recover rule) c none { c' with tokens := resume c'.tokens } := by
  rcases h with h | ⟨d, h⟩
  · exact .inl (by simp only [Rule.recover, h])
  · exact .inr ⟨d, by simp only [Rule.recover, h]⟩

theorem nested_of_room {rule : Place → Rule α} (hroom : p.depth < maxNesting) :
    nested p rule = rule p.deeper := if_neg (by omega)

theorem accept_of_stops {kind : TokenKind} (h : Stops (· = kind) c.tokens) :
    accept kind c = .ok none c := by
  obtain ⟨ts, finish, n, errors⟩ := c
  cases ts with
  | nil => rfl
  | cons t ts => exact if_neg h

theorem takeIf_of_stops {γ : Type} {select : TokenKind → Option γ}
    (h : Stops (fun kind => (select kind).isSome = true) c.tokens) :
    takeIf select c = .ok none c := by
  obtain ⟨ts, finish, n, errors⟩ := c
  cases ts with
  | nil => rfl
  | cons t ts =>
    have hnone : select t.kind = none := Option.not_isSome_iff_eq_none.mp h
    simp only [takeIf, hnone]

theorem fails_expect {kind : TokenKind} {what : String} (h : Stops (· = kind) c.tokens) :
    Fails (expect kind what) c (c.note (.expected what) c.here) :=
  fails_refuse.of_step (bind_of_ok (accept_of_stops h))

/-! ## No expression -/

/-- Where no primary expression and no unary operator stands, no expression is read. -/
theorem fails_levels (hprimary : ∀ fuel, Fails (primary fuel p) c c')
    (hunary : Stops (fun kind => (unaryOperator? kind).isSome = true) c.tokens) (fuel : Nat) :
    Fails (unary fuel p) c c' ∧ Fails (assignment fuel p) c c' ∧
      ∀ level, Fails (operand fuel p level) c c' ∧ Fails (operation fuel p level) c c' := by
  induction fuel with
  | zero => exact ⟨fails_starve, fails_starve, fun _ => ⟨fails_starve, fails_starve⟩⟩
  | succ fuel ih =>
    obtain ⟨ihunary, -, ihlevel⟩ := ih
    refine ⟨?_, (ihlevel .or).2.bind, fun level => ⟨?_, (ihlevel level).1.bind⟩⟩
    · exact (hprimary fuel).bind.of_step (bind_of_ok (takeIf_of_stops hunary))
    · rw [operand]
      cases level.tighter? with
      | some tighter => exact (ihlevel tighter).2
      | none => exact ihunary

/-- At a token that starts no expression the primary ones refuse. -/
theorem fails_primary (h : Stops (startsExpression · = true) c.tokens) (fuel : Nat) :
    Fails (primary fuel p) c (c.note (.expected "expression") c.here) := by
  cases fuel with
  | zero => exact fails_starve
  | succ fuel =>
    have hnone (kind : TokenKind) (hkind : startsExpression kind = true) :
        accept kind c = .ok none c := by
      refine accept_of_stops (h.imp ?_)
      rintro kind' rfl
      exact hkind
    have hliteral : takeIf literal? c = .ok none c := by
      refine takeIf_of_stops (h.imp fun kind hsome => ?_)
      obtain ⟨value, hvalue⟩ := Option.isSome_iff_exists.mp hsome
      exact (startsExpression_literal hvalue).1
    refine fails_refuse.of_step ?_
    simp only [primary, Bind.bind, EStateM.bind, hliteral, hnone .identifier rfl,
      hnone (.symbol .leftParen) rfl, hnone (.keyword .this) rfl, hnone (.keyword .super) rfl,
      hnone (.keyword .fun_) rfl]

/-- A `fun` without parameters behind it is no expression. -/
theorem fails_primary_fun {f : Token} {finish : Nat} {errors : Array Diagnostic}
    (hf : f.kind = .keyword .fun_) (h : Stops (· = .symbol .leftParen) us) (fuel : Nat) :
    Fails (primary fuel p) ⟨f :: us, finish, n, errors⟩
      (Cursor.note ⟨us, finish, n, errors⟩ (.expected "'(' after 'fun'")
        (Cursor.here ⟨us, finish, n, errors⟩)) := by
  cases fuel with
  | zero => exact fails_starve
  | succ fuel =>
    have hrefused : Fails (expect (.symbol .leftParen) "'(' after 'fun'" >>= fun _ =>
        functionTail fuel p f.span .function >>= fun fn => pure (Expr.lambda fn))
        ⟨us, finish, n, errors⟩ _ := (fails_expect h).bind
    refine hrefused.of_step ?_
    simp [primary, Bind.bind, EStateM.bind, takeIf, accept, literal?, hf]

/-- Where no expression starts, one error is found, and the same is skipped as from the first token
on. -/
theorem fails_expression (h : ¬ Opens startsExpression us)
    (hfun : ∀ f t vs, us = f :: t :: vs → f.kind = .keyword .fun_ → startsStatement t.kind = false)
    (p : Place) (finish : Nat) :
    ∃ error found, resume found = resume us ∧ ∀ (fuel n : Nat) (errors : Array Diagnostic),
      Fails (expression fuel p) ⟨us, finish, n, errors⟩
        ⟨found, finish, n, errors.push error⟩ := by
  by_cases hroom : p.depth < maxNesting
  · have hlevels {error : Diagnostic} {found : List Token}
        (hprimary : ∀ (fuel n : Nat) (errors : Array Diagnostic),
          Fails (primary fuel p.deeper) ⟨us, finish, n, errors⟩
            ⟨found, finish, n, errors.push error⟩)
        (hunary : Stops (fun kind => (unaryOperator? kind).isSome = true) us) (fuel n : Nat)
        (errors : Array Diagnostic) : Fails (expression fuel p) ⟨us, finish, n, errors⟩
          ⟨found, finish, n, errors.push error⟩ := by
      cases fuel with
      | zero => exact fails_starve
      | succ fuel =>
        rw [expression, nested_of_room hroom]
        exact (fails_levels (fun fuel => hprimary fuel n errors) hunary fuel).2.1
    by_cases hstarts : Stops (startsExpression · = true) us
    · refine ⟨.located (.grammar (.expected "expression")) (Cursor.here ⟨us, finish, 0, #[]⟩), us,
        rfl, hlevels (fun fuel n errors => fails_primary hstarts fuel) ?_⟩
      refine hstarts.imp fun kind hsome => ?_
      obtain ⟨op, hop⟩ := Option.isSome_iff_exists.mp hsome
      exact (startsExpression_unary hop).1
    · -- Only a `fun` starts an expression that does not open here.
      obtain _ | ⟨f, us⟩ := us
      · exact absurd trivial hstarts
      have hstart : startsExpression f.kind = true := not_not.mp hstarts
      have hf : f.kind = .keyword .fun_ := by
        by_contra hother
        exact h (.cons hstart hother)
      have hparen : Stops (· = .symbol .leftParen) us := by
        obtain _ | ⟨l, vs⟩ := us
        · trivial
        · intro hl
          exact h ⟨f, _, rfl, hstart, fun _ => ⟨l, vs, rfl, hl⟩⟩
      refine ⟨.located (.grammar (.expected "'(' after 'fun'")) (Cursor.here ⟨us, finish, 0, #[]⟩),
        us, ?_, hlevels (fun fuel n errors => fails_primary_fun hf hparen fuel) ?_⟩
      · obtain _ | ⟨t, vs⟩ := us
        · rfl
        · have hnot := hfun f t vs rfl hf
          simp [resume, skipAfter, hf, hnot]
      · show ¬ (unaryOperator? f.kind).isSome = true
        rw [hf]
        exact Bool.false_ne_true
  · refine ⟨.located (.grammar .nestingTooDeep) (Cursor.here ⟨us, finish, 0, #[]⟩), us, rfl,
      fun fuel n errors => ?_⟩
    cases fuel with
    | zero => exact fails_starve
    | succ fuel =>
      rw [expression, nested, if_pos (by omega)]
      exact fails_refuse

/-! ## What stands before a semicolon -/

/-- A declaration that starts with the token `k`, told apart by the kind of that token. -/
inductive Headed (p : Place) (n : Nat) (k : Token) (ts : List Token) (s : Stmt) (n' : Nat) : Prop
  | var (keyword : k.kind = .keyword .var) (h : Derives .varDeclaration p n (k :: ts) s n')
  | print (room : p.depth < maxNesting) (keyword : k.kind = .keyword .print)
      (h : Derives .printStatement p.deeper n (k :: ts) s n')
  | return_ (room : p.depth < maxNesting) (keyword : k.kind = .keyword .return_)
      (h : Derives .returnStatement p.deeper n (k :: ts) s n')
  | expression (room : p.depth < maxNesting)
      (h : Derives .expressionStatement p.deeper n (k :: ts) s n')
  | function (keyword : k.kind = .keyword .fun_)
      (named : ∃ t us, ts = t :: us ∧ t.kind = .identifier)
  | other (kind : k.kind = .keyword .class_ ∨ k.kind = .keyword .if_ ∨ k.kind = .keyword .while_ ∨
      k.kind = .keyword .for_ ∨ k.kind = .keyword .break_ ∨ k.kind = .symbol .leftBrace)

theorem Derives.headed {k : Token} {s : Stmt} (h : Derives .declaration p n (k :: ts) s n') :
    Headed p n k ts s n' := by
  cases h with
  | classDeclaration h => cases h with | class_ keyword => exact .other (by simp [keyword])
  | function keyword h => exact .function keyword h.starts
  | varDeclaration h =>
    cases h with
    | uninitialized keyword name ending =>
      exact .var keyword (.uninitialized keyword name ending)
    | initialized keyword name equal value ending =>
      exact .var keyword (.initialized keyword name equal value ending)
  | statement h =>
    cases h with
    | nested room h =>
      cases h with
      | expressionStatement h => exact .expression room h
      | printStatement h =>
        cases h with
        | print keyword value ending => exact .print room keyword (.print keyword value ending)
      | returnStatement h =>
        cases h with
        | return_ keyword value ending => exact .return_ room keyword (.return_ keyword value ending)
      | ifStatement h =>
        cases h with | ifThen keyword | ifElse keyword => exact .other (by simp [keyword])
      | whileStatement h => cases h with | while_ keyword => exact .other (by simp [keyword])
      | forStatement h => cases h with | for_ keyword => exact .other (by simp [keyword])
      | breakStatement h => cases h with | break_ keyword => exact .other (by simp [keyword])
      | block h => cases h with | braces _ opening => exact .other (by simp [opening])

/-- A statement that its semicolon ends: an expression, a `print`, a variable or a `return`. -/
inductive Simple (p : Place) (n : Nat) (ts : List Token) : Prop
  | expression {s n'} (h : Derives .expressionStatement p n ts s n')
  | print {s n'} (h : Derives .printStatement p n ts s n')
  | var {s n'} (h : Derives .varDeclaration p n ts s n')
  | return_ {s n'} (h : Derives .returnStatement p n ts s n')

/-- What comes next cannot go on with a statement that has lost its semicolon: a `return` alone goes
on with an expression, a variable alone with `=`, and all others as their last expression does. -/
def Severed (body rest : List Token) : Prop :=
  Stops (· = .symbol .semicolon) rest ∧
    match body with
    | [k] => if k.kind = .keyword .return_ then ¬ Opens startsExpression rest
      else Stops ContinuesExpression rest
    | [k, _] => if k.kind = .keyword .var then Stops (· = .symbol .equal) rest
      else Stops ContinuesExpression rest
    | _ => Stops ContinuesExpression rest

/-! ## The failing statement -/

section

variable {k : Token} {rest body : List Token} {finish : Nat} {errors : Array Diagnostic} {fuel : Nat}

/-- The error that a semicolon is missing. -/
def missing (what : String) (rest : List Token) (finish : Nat) : Diagnostic :=
  .located (.grammar (.expected what)) (Cursor.here ⟨rest, finish, 0, #[]⟩)

/-- An expression and no semicolon behind it. -/
theorem fails_terminated {v : Expr} {what : String} {f : Expr → Stmt}
    (h : Derives .expression p n ts v n') (hrest : Stops ContinuesExpression rest)
    (hsemi : Stops (· = .symbol .semicolon) rest) :
    Fails (expression fuel p >>= fun value => expect (.symbol .semicolon) what >>= fun _ =>
      pure (f value)) ⟨ts ++ rest, finish, n, errors⟩
        ⟨rest, finish, n', errors.push (missing what rest finish)⟩ :=
  ((complete fuel).expression p h hrest).bindFails (fails_expect hsemi).bind

/-- What fails as a declaration is left out, with its error. -/
theorem gives_of_declared {found : List Token} (hfound : resume found = resume rest)
    (h : ∀ fuel, Fails (declared (fuel + 1) p) c ⟨found, finish, n, errors⟩) (fuel : Nat) :
    Gives (declaration fuel p) c none ⟨resume rest, finish, n, errors⟩ := by
  rw [← hfound]
  obtain _ | _ | fuel := fuel
  · exact gives_starve
  · exact .inr ⟨c, rfl⟩
  · exact (h fuel).recover

/-- A statement fails as its body does. -/
theorem fails_statement (hroom : p.depth < maxNesting)
    (h : ∀ fuel, Fails (statementBody (fuel + 1) p.deeper) c c') (fuel : Nat) :
    Fails (statement fuel p) c c' := by
  obtain _ | _ | fuel := fuel
  · exact fails_starve
  · rw [statement, nested_of_room hroom]
    exact fails_starve
  · rw [statement, nested_of_room hroom]
    exact h fuel

theorem sees_of_stops {kind : TokenKind} (h : Stops (· = kind) c.tokens) : c.sees kind = false := by
  obtain ⟨ts, finish, n, errors⟩ := c
  cases ts with
  | nil => rfl
  | cons t ts => exact decide_eq_false h

/-- Where no semicolon comes next, a `return` fails as its value and a semicolon do. -/
theorem fails_returnStatement {span : Span} (hsees : c.sees (.symbol .semicolon) = false)
    (h : ∀ fuel, Fails (expression fuel p >>= fun value =>
      expect (.symbol .semicolon) "';' after return value" >>= fun _ =>
        pure (Stmt.return_ span (some value))) c c') :
    Fails (returnStatement fuel p span) c c' := by
  obtain _ | _ | fuel := fuel
  · exact fails_starve
  · exact .inr ⟨c, rfl⟩
  · have hvalue : optionalExpression (fuel + 1) p .semicolon c = (some <$> expression fuel p) c := by
      simp [optionalExpression, Bind.bind, EStateM.bind, test, hsees]
    let k : Option Expr → Rule Stmt := fun value =>
      expect (.symbol .semicolon) "';' after return value" >>= fun _ => pure (.return_ span value)
    have hbind : (some <$> expression fuel p) >>= k = expression fuel p >>= fun v => k (some v) :=
      bind_map_left some _ _
    refine (h fuel).of_step ?_
    rw [returnStatement]
    refine Eq.trans ?_ (congrFun hbind c)
    simp only [Bind.bind, EStateM.bind, hvalue, k]

theorem name_of_identifier {what : String} {t : Token} (hname : t.kind = .identifier) :
    name what ⟨t :: ts, finish, n, errors⟩ = .ok t.ident ⟨ts, finish, n, errors⟩ := by
  have htaken : accept .identifier ⟨t :: ts, finish, n, errors⟩ =
      .ok (some t) ⟨ts, finish, n, errors⟩ := if_pos hname
  have hexpect : expect .identifier what ⟨t :: ts, finish, n, errors⟩ =
      .ok t ⟨ts, finish, n, errors⟩ := bind_of_ok htaken
  exact bind_of_ok hexpect

/-- A variable without a value and without its semicolon. -/
theorem fails_varDeclaration_alone {t : Token} (hname : t.kind = .identifier)
    (hequal : Stops (· = .symbol .equal) rest) (hsemi : Stops (· = .symbol .semicolon) rest) :
    Fails (varDeclaration fuel p) ⟨t :: rest, finish, n, errors⟩
      ⟨rest, finish, n, errors.push (missing "';' after variable declaration" rest finish)⟩ := by
  cases fuel with
  | zero => exact fails_starve
  | succ fuel =>
    have hnone : accept (.symbol .equal) ⟨rest, finish, n, errors⟩ = .ok none _ :=
      accept_of_stops hequal
    have hrefused : Fails (expect (.symbol .semicolon) "';' after variable declaration" >>= fun _ =>
        pure (Stmt.var t.ident none)) ⟨rest, finish, n, errors⟩ _ := (fails_expect hsemi).bind
    refine hrefused.of_step ?_
    have hname : name "variable name" ⟨t :: rest, finish, n, errors⟩ =
        .ok t.ident ⟨rest, finish, n, errors⟩ := name_of_identifier hname
    rw [varDeclaration, bind_of_ok hname]
    simp only [Bind.bind, EStateM.bind, hnone]
    rfl

/-- A variable fails as its value and a semicolon do. -/
theorem fails_varDeclaration {t q : Token} (hname : t.kind = .identifier)
    (hequal : q.kind = .symbol .equal)
    (h : ∀ fuel, Fails (expression fuel p >>= fun value =>
      expect (.symbol .semicolon) "';' after variable declaration" >>= fun _ =>
        pure (Stmt.var t.ident (some value))) ⟨rest, finish, n, errors⟩ c') :
    Fails (varDeclaration fuel p) ⟨t :: q :: rest, finish, n, errors⟩ c' := by
  cases fuel with
  | zero => exact fails_starve
  | succ fuel =>
    have hname : name "variable name" ⟨t :: q :: rest, finish, n, errors⟩ =
        .ok t.ident ⟨q :: rest, finish, n, errors⟩ := name_of_identifier hname
    have htaken : accept (.symbol .equal) ⟨q :: rest, finish, n, errors⟩ =
        .ok (some q) ⟨rest, finish, n, errors⟩ := if_pos hequal
    let k : Option Expr → Rule Stmt := fun value =>
      expect (.symbol .semicolon) "';' after variable declaration" >>= fun _ =>
        pure (.var t.ident value)
    have hbind : (some <$> expression fuel p) >>= k = expression fuel p >>= fun v => k (some v) :=
      bind_map_left some _ _
    refine (h fuel).of_step ?_
    rw [varDeclaration, bind_of_ok hname]
    refine Eq.trans ?_ (congrFun hbind _)
    simp only [Bind.bind, EStateM.bind, htaken, k]

theorem accept_of_opens (h : Opens startsExpression c.tokens) {kind : TokenKind}
    (hkind : startsExpression kind = false) : accept kind c = .ok none c := by
  obtain ⟨t, us, hts, hstarts, -⟩ := h
  refine accept_of_stops ?_
  rw [hts]
  intro ht
  rw [ht, hkind] at hstarts
  cases hstarts

theorem declared_expression (h : Opens startsExpression c.tokens) :
    declared (fuel + 1) p c = statement fuel p c := by
  have hsees : c.seesBoth (.keyword .fun_) .identifier = false := by
    obtain ⟨t, us, hts, -, hfun⟩ := h
    cases us with
    | nil => simp [Cursor.seesBoth, hts]
    | cons u us =>
      simp only [Cursor.seesBoth, hts]
      by_contra hboth
      simp only [Bool.not_eq_false, Bool.and_eq_true, decide_eq_true_eq] at hboth
      obtain ⟨l, vs, hl, hparen⟩ := hfun hboth.1
      obtain ⟨rfl, -⟩ := List.cons.inj hl
      cases hboth.2.symm.trans hparen
  have hclass : accept (.keyword .class_) c = .ok none c := accept_of_opens h rfl
  have hvar : accept (.keyword .var) c = .ok none c := accept_of_opens h rfl
  simp [declared, Bind.bind, EStateM.bind, test, hsees, hclass, hvar]

theorem statementBody_expression (h : Opens startsExpression c.tokens) :
    statementBody (fuel + 1) p c = expressionStatement fuel p c := by
  have hnone (kind : TokenKind) (hkind : startsExpression kind = false) :
      accept kind c = .ok none c := accept_of_opens h hkind
  simp only [statementBody, Bind.bind, EStateM.bind, hnone (.keyword .for_) rfl,
    hnone (.keyword .if_) rfl, hnone (.keyword .while_) rfl, hnone (.keyword .break_) rfl,
    hnone (.keyword .return_) rfl, hnone (.symbol .leftBrace) rfl, hnone (.keyword .print) rfl]

/-! ### Each of the statements -/

section

variable {s : Stmt} {e : Token}

/-- An expression statement starts as expressions do. -/
theorem Derives.starts_expression (h : Derives .expressionStatement p n (k :: ts) s n') :
    startsExpression k.kind = true := by
  obtain ⟨t, us, heq, hstarts, -⟩ := h.starts
  obtain ⟨rfl, -⟩ := List.cons.inj heq
  exact hstarts

theorem Derives.print_value (h : Derives .declaration p n (k :: (ts ++ [e])) s n')
    (hk : k.kind = .keyword .print) :
    p.depth < maxNesting ∧ ∃ v, Derives .expression p.deeper n ts v n' := by
  cases h.headed with
  | var keyword | return_ _ keyword | function keyword => cases hk.symm.trans keyword
  | other kind => simp [hk] at kind
  | expression _ h => exact absurd (hk ▸ h.starts_expression) (by decide)
  | print room _ h =>
    generalize htokens : k :: (ts ++ [e]) = tokens at h
    cases h with
    | print _ value _ =>
      obtain ⟨-, htail⟩ := List.cons.inj htokens
      obtain ⟨rfl, -⟩ := List.append_inj' htail rfl
      exact ⟨room, _, value⟩

theorem Derives.return_value (h : Derives .declaration p n (k :: (ts ++ [e])) s n')
    (hk : k.kind = .keyword .return_) :
    p.depth < maxNesting ∧ ∃ v, Derives .optionalExpression p.deeper n ts v n' := by
  cases h.headed with
  | var keyword | print _ keyword | function keyword => cases hk.symm.trans keyword
  | other kind => simp [hk] at kind
  | expression _ h => exact absurd (hk ▸ h.starts_expression) (by decide)
  | return_ room _ h =>
    generalize htokens : k :: (ts ++ [e]) = tokens at h
    cases h with
    | return_ _ value _ =>
      obtain ⟨-, htail⟩ := List.cons.inj htokens
      obtain ⟨rfl, -⟩ := List.append_inj' htail rfl
      exact ⟨room, _, value⟩

theorem Derives.of_variable (h : Derives .declaration p n (k :: ts) s n')
    (hk : k.kind = .keyword .var) : Derives .varDeclaration p n (k :: ts) s n' := by
  cases h.headed with
  | var _ h => exact h
  | print _ keyword | return_ _ keyword | function keyword => cases hk.symm.trans keyword
  | other kind => simp [hk] at kind
  | expression _ h => exact absurd (hk ▸ h.starts_expression) (by decide)

theorem Derives.variable_alone {t : Token} (h : Derives .varDeclaration p n [k, t, e] s n') :
    n' = n := by
  generalize htokens : [k, t, e] = tokens at h
  cases h with
  | uninitialized => rfl
  | initialized => simp at htokens

theorem Derives.variable_initial {t q : Token}
    (h : Derives .varDeclaration p n (k :: t :: q :: (ts ++ [e])) s n') :
    ∃ v, Derives .expression p n ts v n' := by
  generalize htokens : k :: t :: q :: (ts ++ [e]) = tokens at h
  cases h with
  | uninitialized => simp at htokens
  | initialized _ _ _ value _ =>
    simp only [List.cons.injEq] at htokens
    obtain ⟨rfl, -⟩ := List.append_inj' htokens.2.2.2 rfl
    exact ⟨_, value⟩

theorem Derives.expression_value (h : Derives .declaration p n (ts ++ [e]) s n')
    (hopens : Opens startsExpression ts) :
    p.depth < maxNesting ∧ ∃ v, Derives .expression p.deeper n ts v n' := by
  obtain ⟨t, us, rfl, hstarts, hfun⟩ := hopens
  cases Derives.headed h with
  | var keyword | print _ keyword | return_ _ keyword =>
    rw [keyword] at hstarts
    cases hstarts
  | function keyword named =>
    obtain ⟨l, vs, rfl, hl⟩ := hfun keyword
    obtain ⟨u, ws, heq, hu⟩ := named
    obtain ⟨rfl, -⟩ := List.cons.inj heq
    cases hl.symm.trans hu
  | other kind =>
    rcases kind with kind | kind | kind | kind | kind | kind <;>
      · rw [kind] at hstarts
        cases hstarts
  | expression room h =>
    generalize htokens : t :: (us ++ [e]) = tokens at h
    cases h with
    | terminated value _ =>
      have hbody : (t :: us) ++ [e] = _ := htokens
      obtain ⟨rfl, -⟩ := List.append_inj' hbody rfl
      exact ⟨room, _, value⟩

end

/-! ### All of them -/

theorem Severed.stops (h : Severed (k :: body) rest)
    (hreturn : k.kind = .keyword .return_ → body ≠ []) (hvar : k.kind = .keyword .var → 1 < body.length) :
    Stops ContinuesExpression rest := by
  obtain ⟨-, h⟩ := h
  obtain _ | ⟨t, _ | ⟨u, us⟩⟩ := body
  · have hnot : k.kind ≠ .keyword .return_ := fun hkind => hreturn hkind rfl
    simpa only [if_neg hnot] using h
  · have hnot : k.kind ≠ .keyword .var := fun hkind => absurd (hvar hkind) (by simp)
    simpa only [if_neg hnot] using h
  · exact h

/-- A declaration without its last token is left out where other tokens come next: one error is
found, what is skipped begins where the token is missing, and the declaration takes the numbers that
it takes otherwise. -/
def LeftOut (p : Place) (finish : Nat) (body : List Token) (semi : Token) (rest : List Token) : Prop :=
  ∃ error, ∀ {n n' : Nat} {s : Stmt}, Derives .declaration p n (body ++ [semi]) s n' →
    ∀ (fuel : Nat) (errors : Array Diagnostic),
      Gives (declaration fuel p) ⟨body ++ rest, finish, n, errors⟩ none
        ⟨resume rest, finish, n', errors.push error⟩

variable {semi t q : Token}

theorem leftOut_print (hk : k.kind = .keyword .print) (hsevered : Severed (k :: ts) rest) :
    LeftOut p finish (k :: ts) semi rest := by
  have hstops : Stops ContinuesExpression rest :=
    hsevered.stops (fun hkind => absurd (hk.symm.trans hkind) (by simp))
      fun hkind => absurd (hk.symm.trans hkind) (by simp)
  refine ⟨missing "';' after value" rest finish, fun h fuel errors => ?_⟩
  obtain ⟨room, v, hvalue⟩ := h.print_value hk
  refine gives_of_declared rfl (fun fuel => ?_) fuel
  refine Fails.of_step (fails_statement room (fun fuel => ?_) fuel) (declared_statement rfl (.inl hk))
  exact (fails_terminated hvalue hstops hsevered.1).of_step (statementBody_print rfl hk)

/-- Without a value the error is the one that an expression would find there. -/
theorem leftOut_return_alone (hk : k.kind = .keyword .return_) (hsevered : Severed [k] rest)
    (hfun : ∀ f t vs, rest = f :: t :: vs → f.kind = .keyword .fun_ → startsStatement t.kind = false) :
    LeftOut p finish [k] semi rest := by
  have hnone : ¬ Opens startsExpression rest := by
    have hcase := hsevered.2
    simpa only [if_pos hk] using hcase
  obtain ⟨error, found, hfound, hfails⟩ := fails_expression hnone hfun p.deeper finish
  refine ⟨error, fun h fuel errors => ?_⟩
  have hdeclared : Derives .declaration p _ (k :: ([] ++ [semi])) _ _ := h
  obtain ⟨room, v, hvalue⟩ := hdeclared.return_value hk
  cases hvalue with
  | someExpression hvalue => exact absurd hvalue.starts (by rintro ⟨t, us, heq, -⟩; cases heq)
  | noExpression =>
    refine gives_of_declared hfound (fun fuel => ?_) fuel
    refine Fails.of_step (fails_statement room (fun fuel => ?_) fuel)
      (declared_statement rfl (.inr hk))
    refine Fails.of_step ?_ (statementBody_return rfl hk)
    exact fails_returnStatement (sees_of_stops hsevered.1) fun fuel => (hfails fuel _ errors).bind

theorem leftOut_return_value (hk : k.kind = .keyword .return_) (hts : ts ≠ [])
    (hsevered : Severed (k :: ts) rest) : LeftOut p finish (k :: ts) semi rest := by
  have hstops : Stops ContinuesExpression rest :=
    hsevered.stops (fun _ => hts) fun hkind => absurd (hk.symm.trans hkind) (by simp)
  refine ⟨missing "';' after return value" rest finish, fun h fuel errors => ?_⟩
  obtain ⟨room, v, hvalue⟩ := h.return_value hk
  cases hvalue with
  | noExpression => exact absurd rfl hts
  | someExpression hvalue =>
    refine gives_of_declared rfl (fun fuel => ?_) fuel
    refine Fails.of_step (fails_statement room (fun fuel => ?_) fuel)
      (declared_statement rfl (.inr hk))
    refine Fails.of_step ?_ (statementBody_return rfl hk)
    refine fails_returnStatement ?_ fun fuel => fails_terminated hvalue hstops hsevered.1
    obtain ⟨u, us, rfl, hstarts, -⟩ := hvalue.starts
    refine decide_eq_false fun hkind => ?_
    rw [hkind] at hstarts
    cases hstarts

theorem leftOut_variable_alone (hk : k.kind = .keyword .var) (hname : t.kind = .identifier)
    (hsevered : Severed [k, t] rest) : LeftOut p finish [k, t] semi rest := by
  have hequal : Stops (· = .symbol .equal) rest := by
    have hcase := hsevered.2
    simpa only [if_pos hk] using hcase
  refine ⟨missing "';' after variable declaration" rest finish, fun h fuel errors => ?_⟩
  obtain rfl := (Derives.of_variable h hk).variable_alone
  refine gives_of_declared rfl (fun fuel => ?_) fuel
  refine Fails.of_step ?_ (declared_var rfl hk)
  exact fails_varDeclaration_alone hname hequal hsevered.1

theorem leftOut_variable_initial (hk : k.kind = .keyword .var) (hname : t.kind = .identifier)
    (hq : q.kind = .symbol .equal) (hsevered : Severed (k :: t :: q :: ts) rest) :
    LeftOut p finish (k :: t :: q :: ts) semi rest := by
  have hstops : Stops ContinuesExpression rest :=
    hsevered.stops (fun _ => List.cons_ne_nil _ _) fun _ => by simp
  refine ⟨missing "';' after variable declaration" rest finish, fun h fuel errors => ?_⟩
  obtain ⟨v, hvalue⟩ := (Derives.of_variable h hk).variable_initial
  refine gives_of_declared rfl (fun fuel => ?_) fuel
  refine Fails.of_step ?_ (declared_var rfl hk)
  exact fails_varDeclaration hname hq fun fuel => fails_terminated hvalue hstops hsevered.1

theorem leftOut_expression (hopens : Opens startsExpression body) (hsevered : Severed body rest) :
    LeftOut p finish body semi rest := by
  have hstops : Stops ContinuesExpression rest := by
    obtain ⟨t, us, rfl, hstarts, -⟩ := hopens
    refine hsevered.stops ?_ ?_ <;>
      · intro hkind
        rw [hkind] at hstarts
        cases hstarts
  refine ⟨missing "';' after expression" rest finish, fun h fuel errors => ?_⟩
  obtain ⟨room, v, hvalue⟩ := h.expression_value hopens
  refine gives_of_declared rfl (fun fuel => ?_) fuel
  have hopens' : Opens startsExpression (body ++ rest) := hopens.append rest
  refine Fails.of_step (fails_statement room (fun fuel => ?_) fuel) (declared_expression hopens')
  refine Fails.of_step ?_ (statementBody_expression hopens')
  cases fuel with
  | zero => exact fails_starve
  | succ fuel => exact fails_terminated hvalue hstops hsevered.1

/-- Wherever a statement that has lost its semicolon would be a declaration, it is left out. -/
theorem unfinished_left_out {q : Place} {m : Nat} (hsimple : Simple q m (body ++ [semi]))
    (hsevered : Severed body rest)
    (hfun : ∀ f t vs, rest = f :: t :: vs → f.kind = .keyword .fun_ → startsStatement t.kind = false)
    (p : Place) (finish : Nat) : LeftOut p finish body semi rest := by
  generalize htokens : body ++ [semi] = tokens at hsimple
  cases hsimple with
  | print h =>
    cases h with
    | @print _ _ k us _ _ _ keyword _ _ =>
      have hbody : body ++ [semi] = (k :: us) ++ [_] := htokens
      obtain ⟨rfl, -⟩ := List.append_inj' hbody rfl
      exact leftOut_print keyword hsevered
  | return_ h =>
    cases h with
    | @return_ _ _ k us _ _ _ keyword value _ =>
      have hbody : body ++ [semi] = (k :: us) ++ [_] := htokens
      obtain ⟨rfl, -⟩ := List.append_inj' hbody rfl
      cases us with
      | nil => exact leftOut_return_alone keyword hsevered hfun
      | cons t us => exact leftOut_return_value keyword (List.cons_ne_nil t us) hsevered
  | var h =>
    cases h with
    | @uninitialized _ _ k t _ keyword name _ =>
      have hbody : body ++ [semi] = [k, t] ++ [_] := htokens
      obtain ⟨rfl, -⟩ := List.append_inj' hbody rfl
      exact leftOut_variable_alone keyword name hsevered
    | @initialized _ _ k t q us _ _ _ keyword name equal _ _ =>
      have hbody : body ++ [semi] = (k :: t :: q :: us) ++ [_] := htokens
      obtain ⟨rfl, -⟩ := List.append_inj' hbody rfl
      exact leftOut_variable_initial keyword name equal hsevered
  | expression h =>
    cases h with
    | terminated value _ =>
      obtain ⟨rfl, -⟩ := List.append_inj' htokens rfl
      exact leftOut_expression value.starts hsevered

end

end Lox.Grammar
