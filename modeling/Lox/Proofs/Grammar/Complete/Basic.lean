import Lox.Proofs.Grammar.Sound.Basic

/-! # Telling phrases apart

With which tokens a phrase starts, and which tokens behind it show that it is
over. A rule looks at one token, or at two after `fun`, to choose what to read. -/

namespace Lox.Grammar

/-- The kinds of tokens with which an expression starts. -/
def startsExpression : TokenKind → Bool
  | .symbol s => s = .leftParen || s = .bang || s = .minus
  | .keyword k => k = .false_ || k = .true_ || k = .nil || k = .this || k = .super || k = .fun_
  | .identifier | .string _ | .number _ => true

/-- The kinds of tokens with which a statement starts. -/
def startsAnyStatement (kind : TokenKind) : Bool :=
  startsExpression kind || kind = .keyword .for_ || kind = .keyword .if_ ||
    kind = .keyword .while_ || kind = .keyword .break_ || kind = .keyword .return_ ||
    kind = .keyword .print || kind = .symbol .leftBrace

/-- The kinds of tokens with which a declaration starts. -/
def startsDeclaration (kind : TokenKind) : Bool :=
  startsAnyStatement kind || kind = .keyword .class_ || kind = .keyword .fun_ ||
    kind = .keyword .var

/-- The first token is of such a kind, and a `fun` that comes first has its
parameters behind it and no name. -/
def Opens (starts : TokenKind → Bool) (ts : List Token) : Prop :=
  ∃ t us, ts = t :: us ∧ starts t.kind = true ∧
    (t.kind = .keyword .fun_ → ∃ l vs, us = l :: vs ∧ l.kind = .symbol .leftParen)

/-- The first tokens of a phrase. -/
def Phrase.Starts : Phrase → List Token → Prop
  | .declaration, ts => ∃ t us, ts = t :: us ∧ startsDeclaration t.kind = true
  | .classDeclaration, ts => ∃ t us, ts = t :: us ∧ t.kind = .keyword .class_
  | .varDeclaration, ts => ∃ t us, ts = t :: us ∧ t.kind = .keyword .var
  | .function, ts => ∃ t us, ts = t :: us ∧ t.kind = .identifier
  | .closure _, ts => ∃ t us, ts = t :: us ∧ t.kind = .symbol .leftParen
  | .block, ts | .printStatement, ts | .ifStatement _, ts | .whileStatement _, ts
  | .forStatement _, ts | .breakStatement, ts | .returnStatement, ts | .statementBody _, ts
  | .statement _, ts => Opens startsAnyStatement ts
  | .expressionStatement, ts | .expression, ts | .assignment, ts | .operation _, ts
  | .operand _, ts | .unary, ts | .call, ts | .primary, ts | .arguments, ts =>
    Opens startsExpression ts
  | _, _ => True

theorem Opens.append {starts : TokenKind → Bool} {ts : List Token} (h : Opens starts ts)
    (us : List Token) : Opens starts (ts ++ us) := by
  obtain ⟨t, vs, rfl, hstarts, hfun⟩ := h
  refine ⟨t, vs ++ us, rfl, hstarts, fun hkind => ?_⟩
  obtain ⟨l, ws, rfl, hl⟩ := hfun hkind
  exact ⟨l, ws ++ us, rfl, hl⟩

theorem Opens.cons {starts : TokenKind → Bool} {t : Token} {ts : List Token}
    (h : starts t.kind = true) (hfun : t.kind ≠ .keyword .fun_) : Opens starts (t :: ts) :=
  ⟨t, ts, rfl, h, fun hkind => absurd hkind hfun⟩

theorem Opens.imp {starts starts' : TokenKind → Bool} {ts : List Token} (h : Opens starts ts)
    (hstarts : ∀ kind, starts kind = true → starts' kind = true) : Opens starts' ts := by
  obtain ⟨t, us, hts, h, hfun⟩ := h
  exact ⟨t, us, hts, hstarts _ h, hfun⟩

theorem startsExpression_literal {kind : TokenKind} {value : Literal}
    (h : literal? kind = some value) :
    startsExpression kind = true ∧ kind ≠ .keyword .fun_ := by
  unfold literal? at h
  split at h <;> simp_all [startsExpression]

theorem startsExpression_unary {kind : TokenKind} {op : UnaryOp}
    (h : unaryOperator? kind = some op) :
    startsExpression kind = true ∧ kind ≠ .keyword .fun_ := by
  unfold unaryOperator? at h
  split at h <;> simp_all [startsExpression]

theorem startsAnyStatement_of_startsExpression (kind : TokenKind)
    (h : startsExpression kind = true) : startsAnyStatement kind = true := by
  simp [startsAnyStatement, h]

/-- The statements that a keyword or a brace tells. -/
theorem Opens.keyword {t : Token} {ts : List Token} {kind : TokenKind} (hkind : t.kind = kind)
    (h : startsAnyStatement kind = true) (hfun : kind ≠ .keyword .fun_) :
    Opens startsAnyStatement (t :: ts) := by
  subst hkind
  exact .cons h hfun

variable {phrase : Phrase} {p : Place} {n n' : Nat} {ts : List Token}

theorem Derives.starts {a : phrase.Tree} (h : Derives phrase p n ts a n') : phrase.Starts ts := by
  induction h with
  | classDeclaration _ ih =>
    obtain ⟨t, us, rfl, hkind⟩ := ih
    exact ⟨t, us, rfl, by simp [startsDeclaration, hkind]⟩
  | function keyword => exact ⟨_, _, rfl, by simp [startsDeclaration, keyword]⟩
  | varDeclaration _ ih =>
    obtain ⟨t, us, rfl, hkind⟩ := ih
    exact ⟨t, us, rfl, by simp [startsDeclaration, hkind]⟩
  | statement _ ih =>
    obtain ⟨t, us, rfl, hstarts, -⟩ := ih
    exact ⟨t, us, rfl, by simp [startsDeclaration, hstarts]⟩
  | class_ keyword => exact ⟨_, _, rfl, keyword⟩
  | named name => exact ⟨_, _, rfl, name⟩
  | closure opening => exact ⟨_, _, rfl, opening⟩
  | braces _ opening => exact .keyword opening rfl nofun
  | uninitialized keyword => exact ⟨_, _, rfl, keyword⟩
  | initialized keyword => exact ⟨_, _, rfl, keyword⟩
  | nested _ _ ih => exact ih
  | expressionStatement _ ih => exact ih.imp startsAnyStatement_of_startsExpression
  | printStatement _ ih => exact ih
  | ifStatement _ ih => exact ih
  | whileStatement _ ih => exact ih
  | forStatement _ ih => exact ih
  | breakStatement _ ih => exact ih
  | returnStatement _ ih => exact ih
  | block _ ih => exact ih
  | print keyword => exact .keyword keyword rfl nofun
  | ifThen keyword => exact .keyword keyword rfl nofun
  | ifElse keyword => exact .keyword keyword rfl nofun
  | while_ keyword => exact .keyword keyword rfl nofun
  | for_ keyword => exact .keyword keyword rfl nofun
  | break_ keyword => exact .keyword keyword rfl nofun
  | return_ keyword => exact .keyword keyword rfl nofun
  | terminated _ _ ih => exact ih.append _
  | expression _ _ ih => exact ih
  | assign name => exact .cons (by rw [name]; rfl) (by rw [name]; nofun)
  | set _ _ _ _ _ ih => exact ih.append _
  | operators _ ih => exact ih
  | operation _ _ ih => exact ih.append _
  | tighter _ _ ih => exact ih
  | tightest _ _ ih => exact ih
  | unary operator =>
    obtain ⟨hstarts, hfun⟩ := startsExpression_unary operator
    exact .cons hstarts hfun
  | noUnary _ ih => exact ih
  | call _ _ ih => exact ih.append _
  | lastArgument _ ih => exact ih
  | moreArguments _ _ _ ih => exact ih.append _
  | literal literal =>
    obtain ⟨hstarts, hfun⟩ := startsExpression_literal literal
    exact .cons hstarts hfun
  | var name => exact .cons (by rw [name]; rfl) (by rw [name]; nofun)
  | grouping opening => exact .cons (by rw [opening]; rfl) (by rw [opening]; nofun)
  | this keyword => exact .cons (by rw [keyword]; rfl) (by rw [keyword]; nofun)
  | super keyword => exact .cons (by rw [keyword]; rfl) (by rw [keyword]; nofun)
  | lambda keyword _ ih =>
    obtain ⟨l, us, rfl, hl⟩ := ih
    exact ⟨_, _, rfl, by rw [keyword]; rfl, fun _ => ⟨l, us, rfl, hl⟩⟩
  | _ => trivial

/-- The next token is of no such kind. -/
def Stops (continues : TokenKind → Prop) : List Token → Prop
  | [] => True
  | t :: _ => ¬ continues t.kind

/-- Kinds with which a call, or an operation of fewer levels than `height`, goes on. -/
def Continues (height : Nat) (kind : TokenKind) : Prop :=
  kind = .symbol .leftParen ∨ kind = .symbol .dot ∨
    ∃ level : Level, level.height < height ∧ (level.operator? kind).isSome = true

/-- Kinds with which an expression goes on. -/
def ContinuesExpression (kind : TokenKind) : Prop := Continues 6 kind ∨ kind = .symbol .equal

theorem Continues.mono {height height' : Nat} {kind : TokenKind} (h : Continues height kind)
    (hle : height ≤ height') : Continues height' kind := by
  rcases h with h | h | ⟨level, hlevel, hsome⟩
  · exact .inl h
  · exact .inr (.inl h)
  · exact .inr (.inr ⟨level, by omega, hsome⟩)

theorem Stops.imp {continues continues' : TokenKind → Prop} {ts : List Token}
    (h : Stops continues ts) (hkind : ∀ kind, continues' kind → continues kind) :
    Stops continues' ts := by
  cases ts with
  | nil => trivial
  | cons t us => exact fun hcontinues => h (hkind _ hcontinues)

/-- An operator of a level continues none of the tighter levels. -/
theorem not_continues_operator {level : Level} {kind : TokenKind} {op : Operator}
    (h : level.operator? kind = some op) : ¬ Continues level.height kind := by
  rintro (rfl | rfl | ⟨other, hlower, hsome⟩)
  · cases level <;> cases h
  · cases level <;> cases h
  · unfold Level.operator? at h
    split at h <;> cases other <;> simp_all [Level.height, Level.operator?]

end Lox.Grammar

/-! # Completeness of the rules

Where tokens derive a tree, the rule reads exactly them, builds that tree and
notes nothing, whatever comes behind them, as long as what comes does not
continue the phrase. A rule may also run out of steps; that the bound of a parse
prevents this is a matter of soundness. -/

namespace Lox.Grammar

open Rule

variable {α β : Type} {c c' c'' : Cursor} {a : α} {b : β}

/-- A rule has a result, unless it runs out of steps. -/
def Gives (rule : Rule α) (c : Cursor) (a : α) (c' : Cursor) : Prop :=
  rule c = .ok a c' ∨ ∃ c'', rule c = .error .starved c''

theorem gives_pure : Gives (pure a) c a c := .inl rfl

theorem gives_starve : Gives starve c a c' := .inr ⟨c, rfl⟩

theorem Gives.of_step {rule rule' : Rule α} {d : Cursor} (h : Gives rule' d a c')
    (hstep : rule c = rule' d) : Gives rule c a c' := by
  unfold Gives at h ⊢
  rw [hstep]
  exact h

theorem Gives.bind {rule : Rule α} {k : α → Rule β} (h : Gives rule c a c')
    (hk : Gives (k a) c' b c'') : Gives (rule >>= k) c b c'' := by
  rcases h with h | ⟨d, h⟩
  · exact hk.of_step (bind_of_ok h)
  · exact .inr ⟨d, bind_of_error h⟩

theorem Gives.map {rule : Rule α} {f : α → β} (h : Gives rule c a c') :
    Gives (f <$> rule) c (f a) c' := by
  rcases h with h | ⟨d, h⟩
  · exact .inl (map_of_ok h)
  · exact .inr ⟨d, by simp only [Functor.map, EStateM.map, h]⟩

theorem Gives.recover {rule : Rule α} (h : Gives rule c a c') :
    Gives (recover rule) c (some a) c' := by
  rcases h with h | ⟨d, h⟩
  · exact .inl (by simp only [Rule.recover, h])
  · exact .inr ⟨d, by simp only [Rule.recover, h]⟩

theorem gives_nested {p : Place} {rule : Place → Rule α} (hroom : p.depth < maxNesting)
    (h : Gives (rule p.deeper) c a c') : Gives (nested p rule) c a c' := by
  unfold nested
  rw [if_neg (by omega)]
  exact h

theorem gives_noteIf {reason : Prop} [Decidable reason] {mark : Rule PUnit} {k : PUnit → Rule β}
    (hreason : ¬ reason) (h : Gives (k ⟨⟩) c b c') :
    Gives (if reason then mark >>= k else k ⟨⟩) c b c' := by
  rw [if_neg hreason]
  exact h

/-! ## Single steps -/

variable {t : Token} {ts : List Token} {finish n : Nat} {errors : Array Diagnostic}
  {kind : TokenKind}

theorem gives_fresh {k : Nat → Rule β} (h : Gives (k n) ⟨ts, finish, n + 1, errors⟩ b c') :
    Gives (fresh >>= k) ⟨ts, finish, n, errors⟩ b c' :=
  h.of_step rfl

theorem gives_test {f : Cursor → Bool} {k : Bool → Rule β} {seen : Bool} (hseen : f c = seen)
    (h : Gives (k seen) c b c') : Gives (test f >>= k) c b c' := by
  subst hseen
  exact h.of_step rfl

theorem gives_takeIf {γ : Type} {select : TokenKind → Option γ} {k : Option (γ × Token) → Rule β}
    {x : γ} (hselect : select t.kind = some x)
    (h : Gives (k (some (x, t))) ⟨ts, finish, n, errors⟩ b c') :
    Gives (takeIf select >>= k) ⟨t :: ts, finish, n, errors⟩ b c' := by
  refine h.of_step ?_
  simp only [bind, EStateM.bind, takeIf, hselect]

theorem gives_takeIf_none {γ : Type} {select : TokenKind → Option γ}
    {k : Option (γ × Token) → Rule β}
    (hselect : Stops (fun kind => (select kind).isSome = true) ts)
    (h : Gives (k none) ⟨ts, finish, n, errors⟩ b c') :
    Gives (takeIf select >>= k) ⟨ts, finish, n, errors⟩ b c' := by
  refine h.of_step ?_
  cases ts with
  | nil => rfl
  | cons t ts =>
    have hnone : select t.kind = none := by simpa [Stops] using hselect
    simp only [bind, EStateM.bind, takeIf, hnone]

theorem gives_accept {k : Option Token → Rule β} (hkind : t.kind = kind)
    (h : Gives (k (some t)) ⟨ts, finish, n, errors⟩ b c') :
    Gives (accept kind >>= k) ⟨t :: ts, finish, n, errors⟩ b c' := by
  refine h.of_step ?_
  simp only [bind, EStateM.bind, accept, if_pos hkind]

theorem gives_accept_none {k : Option Token → Rule β} (hkind : Stops (· = kind) ts)
    (h : Gives (k none) ⟨ts, finish, n, errors⟩ b c') :
    Gives (accept kind >>= k) ⟨ts, finish, n, errors⟩ b c' := by
  refine h.of_step ?_
  cases ts with
  | nil => rfl
  | cons t ts => simp only [bind, EStateM.bind, accept, if_neg hkind]

theorem gives_expect {what : String} {k : Token → Rule β} (hkind : t.kind = kind)
    (h : Gives (k t) ⟨ts, finish, n, errors⟩ b c') :
    Gives (expect kind what >>= k) ⟨t :: ts, finish, n, errors⟩ b c' := by
  rw [expect, bind_assoc]
  exact gives_accept hkind h

theorem gives_name {what : String} {k : Ident → Rule β} (hkind : t.kind = .identifier)
    (h : Gives (k t.ident) ⟨ts, finish, n, errors⟩ b c') :
    Gives (name what >>= k) ⟨t :: ts, finish, n, errors⟩ b c' := by
  rw [name, bind_assoc]
  exact gives_expect hkind h

/-! ## What all rules read -/

/-- A rule reads all that derives from a phrase. -/
def Completes (phrase : Phrase) (p : Place) (rule : Rule phrase.Tree)
    (follow : List Token → Prop) : Prop :=
  ∀ {n ts a n' rest finish errors}, Derives phrase p n ts a n' → follow rest →
    Gives rule ⟨ts ++ rest, finish, n, errors⟩ a ⟨rest, finish, n', errors⟩

/-- A rule reads all that derives from a phrase behind its first token. -/
def CompletesAfter (phrase : Phrase) (p : Place) (rule : Token → Rule phrase.Tree)
    (follow : List Token → Prop) : Prop :=
  ∀ {n k ts a n' rest finish errors}, Derives phrase p n (k :: ts) a n' → follow rest →
    Gives (rule k) ⟨ts ++ rest, finish, n, errors⟩ a ⟨rest, finish, n', errors⟩

/-- What comes next is this symbol. -/
def Next (symbol : Symbol) (ts : List Token) : Prop :=
  ∃ t us, ts = t :: us ∧ t.kind = .symbol symbol

/-- Behind a statement that is opened stands no `else`. -/
def NoElse (opened : Bool) (ts : List Token) : Prop :=
  opened = true → Stops (· = .keyword .else_) ts

/-- The symbols behind an expression. -/
def Closes (symbol : Symbol) : Prop :=
  symbol = .rightParen ∨ symbol = .semicolon ∨ symbol = .comma

theorem not_continues_closing {symbol : Symbol} (h : Closes symbol ∨ symbol = .equal) :
    ¬ Continues 6 (.symbol symbol) := by
  rintro (hparen | hdot | ⟨level, -, hsome⟩)
  · cases hparen
    simp [Closes] at h
  · cases hdot
    simp [Closes] at h
  · rcases h with (rfl | rfl | rfl) | rfl <;> cases level <;> cases hsome

theorem stops_closing {symbol : Symbol} (hkind : t.kind = .symbol symbol) (h : Closes symbol) :
    Stops ContinuesExpression (t :: ts) := by
  rintro (hcontinues | hequal)
  · rw [hkind] at hcontinues
    exact not_continues_closing (.inl h) hcontinues
  · rw [hkind] at hequal
    cases hequal
    simp [Closes] at h

/-- What all rules read in a number of steps. -/
structure Complete (fuel : Nat) : Prop where
  expression : ∀ p, Completes .expression p (expression fuel p) (Stops ContinuesExpression)
  assignment : ∀ p, Completes .assignment p (assignment fuel p) (Stops ContinuesExpression)
  operation : ∀ p level, Completes (.operation level) p (operation fuel p level)
    (Stops (Continues (level.height + 1)))
  chain : ∀ p level left, Completes (.chain level left) p (chain fuel p level left)
    (Stops (Continues (level.height + 1)))
  operand : ∀ p level, Completes (.operand level) p (operand fuel p level)
    (Stops (Continues level.height))
  unary : ∀ p, Completes .unary p (unary fuel p) (Stops (Continues 0))
  calls : ∀ p callee, Completes (.suffixes callee) p (calls fuel p callee) (Stops (Continues 0))
  argumentList : ∀ {p n ts args n' rest finish errors}, Derives .argumentList p n ts args n' →
    args.length ≤ maxArity → Next .rightParen rest →
    Gives (argumentList fuel p) ⟨ts ++ rest, finish, n, errors⟩ args ⟨rest, finish, n', errors⟩
  arguments : ∀ {p n ts args n' rest finish errors done}, Derives .arguments p n ts args n' →
    done.size + args.length ≤ maxArity → Next .rightParen rest →
    Gives (arguments fuel p done) ⟨ts ++ rest, finish, n, errors⟩ (done ++ args.toArray)
      ⟨rest, finish, n', errors⟩
  primary : ∀ p, Completes .primary p (primary fuel p) fun _ => True
  functionTail : ∀ p start role, CompletesAfter (.closure start) p
    (fun _ => functionTail fuel p start role) fun _ => True
  namedFunction : ∀ p role, Completes .function p (namedFunction fuel p role) fun _ => True
  block : ∀ p, CompletesAfter .block p (fun _ => block fuel p) fun _ => True
  declarations : ∀ {p n ts ss n' rest finish errors done}, Derives .declarations p n ts ss n' →
    Stops (· ≠ .symbol .rightBrace) rest →
    Gives (declarations fuel p done) ⟨ts ++ rest, finish, n, errors⟩ (done ++ ss.toArray)
      ⟨rest, finish, n', errors⟩
  declaration : ∀ {p n ts s n' rest finish errors}, Derives .declaration p n ts s n' →
    Stops (· = .keyword .else_) rest →
    Gives (declaration fuel p) ⟨ts ++ rest, finish, n, errors⟩ (some s) ⟨rest, finish, n', errors⟩
  declared : ∀ p, Completes .declaration p (declared fuel p) (Stops (· = .keyword .else_))
  classDeclaration : ∀ p, CompletesAfter .classDeclaration p (fun _ => classDeclaration fuel p)
    fun _ => True
  methods : ∀ {p n ts ms n' rest finish errors done}, Derives .methods p n ts ms n' →
    Next .rightBrace rest →
    Gives (methods fuel p done) ⟨ts ++ rest, finish, n, errors⟩ (done ++ ms.toArray)
      ⟨rest, finish, n', errors⟩
  varDeclaration : ∀ p, CompletesAfter .varDeclaration p (fun _ => varDeclaration fuel p)
    fun _ => True
  statement : ∀ p opened, Completes (.statement opened) p (statement fuel p) (NoElse opened)
  statementBody : ∀ p opened, Completes (.statementBody opened) p (statementBody fuel p)
    (NoElse opened)
  expressionStatement : ∀ p, Completes .expressionStatement p (expressionStatement fuel p)
    fun _ => True
  forStatement : ∀ p opened, CompletesAfter (.forStatement opened) p
    (fun k => forStatement fuel p k.span) (NoElse opened)
  forInitializer : ∀ p, Completes .initializer p (forInitializer fuel p) fun _ => True
  optionalExpression : ∀ p symbol, Closes symbol → Completes .optionalExpression p
    (optionalExpression fuel p symbol) (Next symbol)
  ifStatement : ∀ p opened, CompletesAfter (.ifStatement opened) p (fun _ => ifStatement fuel p)
    (NoElse opened)
  whileStatement : ∀ p opened, CompletesAfter (.whileStatement opened) p
    (fun _ => whileStatement fuel p) (NoElse opened)
  returnStatement : ∀ p, CompletesAfter .returnStatement p
    (fun k => returnStatement fuel p k.span) fun _ => True

end Lox.Grammar
