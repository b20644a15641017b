import Lox.Proofs.Grammar.Places
import Lox.Proofs.Grammar.Targets
import Lox.Proofs.Syntax.Parts

/-! # Where the expressions of a tree are written

Every expression of a tree derives from tokens that stand side by side, and these
derive it also where they are the whole text: it is no deeper there, and no loop
around an expression matters to it. The one expression that derives from no tokens
of its own is the condition of a `for` loop that has none. -/

namespace Lox.Grammar

section

variable {phrase : Phrase} {p q : Place} {m n n' n'' : Nat} {t : Token} {ts us : List Token}
  {e left callee : Expr} {level : Level}

/-! ## Other places -/

/-- The phrases of an expression. The body of a function has statements, but no loop outside of it
matters to them. -/
def Phrase.InExpression : Phrase → Prop
  | .closure _ | .expression | .assignment | .operation _ | .chain _ _ | .operand _ | .unary | .call
  | .suffixes _ | .argumentList | .arguments | .primary => True
  | _ => False

theorem Derives.elsewhere {a : phrase.Tree} (h : Derives phrase p n ts a n')
    (hphrase : phrase.InExpression) (hq : q.depth ≤ p.depth) : Derives phrase q n ts a n' := by
  induction h generalizing q with
  | closure opening parameters few closing body =>
    -- The body is a function's, so at both places it starts outside of all loops.
    exact .closure opening parameters few closing (body.admitted ⟨hq, id⟩)
  | expression room _ ih =>
    exact .expression (Nat.lt_of_le_of_lt hq room) (ih trivial (Nat.succ_le_succ hq))
  | assign name equal _ ih => exact .assign name equal (ih trivial hq)
  | set _ dot name equal _ ihobject ihvalue =>
    exact .set (ihobject trivial hq) dot name equal (ihvalue trivial hq)
  | operators _ ih => exact .operators (ih trivial hq)
  | operation _ _ ihfirst ihrest => exact .operation (ihfirst trivial hq) (ihrest trivial hq)
  | noOperator => exact .noOperator
  | operator operator _ _ ihright ihrest =>
    exact .operator operator (ihright trivial hq) (ihrest trivial hq)
  | tighter next _ ih => exact .tighter next (ih trivial hq)
  | tightest last _ ih => exact .tightest last (ih trivial hq)
  | unary operator room _ ih =>
    exact .unary operator (Nat.lt_of_le_of_lt hq room) (ih trivial (Nat.succ_le_succ hq))
  | noUnary _ ih => exact .noUnary (ih trivial hq)
  | call _ _ ihhead ihrest => exact .call (ihhead trivial hq) (ihrest trivial hq)
  | noSuffix => exact .noSuffix
  | apply opening _ few closing _ iharguments ihrest =>
    exact .apply opening (iharguments trivial hq) few closing (ihrest trivial hq)
  | get dot name _ ih => exact .get dot name (ih trivial hq)
  | noArguments => exact .noArguments
  | someArguments _ ih => exact .someArguments (ih trivial hq)
  | lastArgument _ ih => exact .lastArgument (ih trivial hq)
  | moreArguments _ comma _ ihvalue ihrest =>
    exact .moreArguments (ihvalue trivial hq) comma (ihrest trivial hq)
  | literal literal => exact .literal literal
  | var name => exact .var name
  | grouping opening _ closing ih => exact .grouping opening (ih trivial hq) closing
  | this keyword => exact .this keyword
  | super keyword dot name => exact .super keyword dot name
  | lambda keyword _ ih => exact .lambda keyword (ih trivial hq)
  | _ => exact hphrase.elim

/-- What tokens derive inside of an expression, they derive as a whole text. -/
theorem alone_of_assignment (h : Derives .assignment p n ts e n') (hp : 0 < p.depth) :
    Derives .expression .top n ts e n' :=
  .expression (by decide) (h.elsewhere trivial hp)

theorem operation_of_tighter {tight : Level} (htight : level.tighter? = some tight)
    (h : Derives (.operation tight) p n ts e n') : Derives (.operation level) p n ts e n' :=
  operation_of_operand (.tighter htight h)

/-- An operation of any level is one of the loosest level. -/
theorem loosest_of_operation (h : Derives (.operation level) p n ts e n') :
    Derives (.operation .or) p n ts e n' := by
  have hand (h : Derives (.operation .and) p n ts e n') : Derives (.operation .or) p n ts e n' :=
    operation_of_tighter rfl h
  have hequality (h : Derives (.operation .equality) p n ts e n') := hand (operation_of_tighter rfl h)
  have hcomparison (h : Derives (.operation .comparison) p n ts e n') :=
    hequality (operation_of_tighter rfl h)
  have hterm (h : Derives (.operation .term) p n ts e n') := hcomparison (operation_of_tighter rfl h)
  cases level with
  | or => exact h
  | and => exact hand h
  | equality => exact hequality h
  | comparison => exact hcomparison h
  | term => exact hterm h
  | factor => exact hterm (operation_of_tighter rfl h)

theorem alone_of_operation (h : Derives (.operation level) p n ts e n') (hp : 0 < p.depth) :
    Derives .expression .top n ts e n' :=
  alone_of_assignment (.operators (loosest_of_operation h)) hp

theorem alone_of_unary (h : Derives .unary p n ts e n') (hp : 0 < p.depth) :
    Derives .expression .top n ts e n' :=
  have hfactor : Derives (.operand .factor) p n ts e n' := .tightest rfl h
  alone_of_operation (operation_of_operand hfactor) hp

theorem alone_of_call (h : Derives .call p n ts e n') (hp : 0 < p.depth) :
    Derives .expression .top n ts e n' :=
  alone_of_unary (.noUnary h) hp

theorem call_of_primary (h : Derives .primary p n ts e n') : Derives .call p n ts e n' := by
  simpa using Derives.call h .noSuffix

theorem alone_of_primary (h : Derives .primary p n ts e n') (hp : 0 < p.depth) :
    Derives .expression .top n ts e n' :=
  alone_of_call (call_of_primary h) hp

/-! ## Operators and calls that go on -/

/-- What leans on a tree goes on with what leans on the whole. -/
def Phrase.GoesOn : (phrase : Phrase) → Place → Nat → List Token → phrase.Tree → Nat → Prop
  | .chain level left, p, n, ts, e, n' => ∀ us e' n'',
    Derives (.chain level e) p n' us e' n'' → Derives (.chain level left) p n (ts ++ us) e' n''
  | .suffixes callee, p, n, ts, e, n' => ∀ us e' n'',
    Derives (.suffixes e) p n' us e' n'' → Derives (.suffixes callee) p n (ts ++ us) e' n''
  | _, _, _, _, _, _ => True

theorem Derives.goesOn {a : phrase.Tree} (h : Derives phrase p n ts a n') :
    phrase.GoesOn p n ts a n' := by
  induction h with
  | noOperator => exact fun us e' n'' hrest => hrest
  | operator operator right _ _ ih =>
    intro us e' n'' hrest
    have hall := Derives.operator operator right (ih us e' n'' hrest)
    rwa [← List.append_assoc] at hall
  | noSuffix => exact fun us e' n'' hrest => hrest
  | apply opening arguments few closing _ _ ih =>
    intro us e' n'' hrest
    have hall := Derives.apply opening arguments few closing (ih us e' n'' hrest)
    simpa using hall
  | get dot name _ ih => exact fun us e' n'' hrest => .get dot name (ih us e' n'' hrest)
  | _ => trivial

/-- One more operator with its right operand. -/
theorem operation_snoc {op : Operator} (h : Derives (.operation level) p m us left n)
    (operator : level.operator? t.kind = some op) (right : Derives (.operand level) p n ts e n') :
    Derives (.operation level) p m (us ++ t :: ts) (op.apply left t.span e) n' := by
  cases h with
  | operation first rest =>
    have hmore := rest.goesOn _ _ _ (.operator operator right .noOperator)
    have hall := Derives.operation first hmore
    simpa using hall

/-- More arguments and property names. -/
theorem call_append (h : Derives .call p m us callee n)
    (rest : Derives (.suffixes callee) p n ts e n') : Derives .call p m (us ++ ts) e n' := by
  cases h with
  | call head first =>
    rw [List.append_assoc]
    exact .call head (first.goesOn _ _ _ rest)

end

/-! ## The tokens of an expression -/

variable {ts us : List Token} {es es' : List Expr} {e : Expr}

/-- The tokens of an expression: they stand side by side, and derive it when they stand alone. -/
def OwnTokens (own ts : List Token) (e : Expr) : Prop :=
  own <:+: ts ∧ ∃ n n', Derives .expression .top n own e n'

/-- The condition of a `for` loop among the tokens that has none. -/
def Supplied (ts : List Token) (e : Expr) : Prop :=
  ∃ t ∈ ts, t.kind = .keyword .for_ ∧ e = .literal (.bool true) t.span

/-- Expressions are written in the tokens, or supplied by them. -/
def Written (ts : List Token) (es : List Expr) : Prop :=
  ∀ e ∈ es, Supplied ts e ∨ ∃ own, OwnTokens own ts e

namespace Written

theorem nil : Written ts [] := by simp [Written]

theorem cons (he : ∃ own, OwnTokens own ts e) (hes : Written ts es) : Written ts (e :: es) :=
  List.forall_mem_cons.mpr ⟨.inr he, hes⟩

theorem append (h : Written ts es) (h' : Written ts es') : Written ts (es ++ es') :=
  List.forall_mem_append.mpr ⟨h, h'⟩

/-- Expressions stay written when more tokens stand around theirs. -/
theorem mono (h : Written ts es) (hwithin : ts <:+: us) : Written us es := by
  intro e he
  rcases h e he with ⟨t, ht, hsupplied⟩ | ⟨own, hown, hderives⟩
  · exact .inl ⟨t, hwithin.subset ht, hsupplied⟩
  · exact .inr ⟨own, hown.trans hwithin, hderives⟩

theorem behind (h : Written ts es) (t : Token) : Written (t :: ts) es :=
  h.mono (List.suffix_cons t ts).isInfix

theorem left (h : Written ts es) (us : List Token) : Written (ts ++ us) es :=
  h.mono (List.prefix_append ts us).isInfix

theorem right (h : Written us es) (ts : List Token) : Written (ts ++ us) es :=
  h.mono (List.suffix_append ts us).isInfix

end Written

theorem ownTokens_self {n n' : Nat} (h : Derives .expression .top n ts e n') : OwnTokens ts ts e :=
  ⟨List.infix_rfl, n, n', h⟩

/-- The expressions of the tree of a phrase are written. What leans on a tree asks that those of that
tree are written before it. -/
def Phrase.Writes : (phrase : Phrase) → Place → Nat → List Token → phrase.Tree → Prop
  | .declarations, _, _, ts, ss => Written ts (Parts.stmts ss)
  | .declaration, _, _, ts, s | .classDeclaration, _, _, ts, s | .varDeclaration, _, _, ts, s
  | .statement _, _, _, ts, s | .statementBody _, _, _, ts, s | .expressionStatement, _, _, ts, s
  | .printStatement, _, _, ts, s | .ifStatement _, _, _, ts, s | .whileStatement _, _, _, ts, s
  | .forStatement _, _, _, ts, s | .breakStatement, _, _, ts, s | .returnStatement, _, _, ts, s =>
    Written ts (Parts.stmt s)
  | .methods, _, _, ts, ms => Written ts (Parts.methods ms)
  | .function, _, _, ts, m => Written ts (Parts.method m)
  | .closure _, _, _, ts, fn => Written ts (Parts.lambda fn)
  | .block, _, _, ts, b => Written ts (Parts.stmts b.1)
  | .initializer, _, _, ts, s => Written ts (Parts.initializer s)
  | .optionalExpression, _, _, ts, e => Written ts (Parts.optional e)
  | .argumentList, _, _, ts, es | .arguments, _, _, ts, es => Written ts (Parts.exprs es)
  | .expression, _, _, ts, e => Written ts (Parts.expr e)
  | .assignment, p, _, ts, e | .operation _, p, _, ts, e | .operand _, p, _, ts, e
  | .unary, p, _, ts, e | .call, p, _, ts, e | .primary, p, _, ts, e =>
    0 < p.depth → Written ts (Parts.expr e)
  | .chain level left, p, n, ts, e => 0 < p.depth → ∀ m us, Derives (.operation level) p m us left n →
    Written us (Parts.expr left) → Written (us ++ ts) (Parts.expr e)
  | .suffixes callee, p, n, ts, e => 0 < p.depth → ∀ m us, Derives .call p m us callee n →
    Written us (Parts.expr callee) → Written (us ++ ts) (Parts.expr e)

theorem written_superclass {n n' : Nat} {parent : Option Reference}
    (h : Superclass n ts parent n') : Written ts (parent.map Expr.var).toList := by
  cases h with
  | none => exact .nil
  | @some l t less name =>
    have hvar : Derives .primary Place.top.deeper n [t] (.var ⟨n, t.ident⟩) (n + 1) := .var name
    have hown := ownTokens_self (alone_of_primary hvar (by decide))
    exact (Written.cons ⟨_, hown⟩ .nil).behind l

/-- The expressions of a derived tree are written in its tokens. -/
theorem Derives.writes {phrase : Phrase} {p : Place} {n n' : Nat} {a : phrase.Tree}
    (h : Derives phrase p n ts a n') : phrase.Writes p n ts a := by
  induction h with
  | noDeclaration => exact .nil
  | declarations _ _ ihfirst ihrest => exact (ihfirst.left _).append (ihrest.right _)
  | classDeclaration _ ih => exact ih
  | function _ _ ih => exact ih.behind _
  | varDeclaration _ ih => exact ih
  | statement _ ih => exact ih
  | class_ _ _ superclass _ _ _ ih =>
    show Written _ (Parts.stmt _)
    rw [Parts.stmt_class]
    exact ((((written_superclass superclass).left _).append
      (((ih.left _).behind _).right _)).behind _).behind _
  | noMethod => exact .nil
  | methods _ _ ihfirst ihrest =>
    show Written _ (Parts.methods _)
    rw [Parts.methods_cons]
    exact (ihfirst.left _).append (ihrest.right _)
  | named _ _ ih => exact ih.behind _
  | closure _ _ _ _ _ ih => exact ((ih.behind _).right _).behind _
  | braces _ _ _ _ ih => exact (ih.left _).behind _
  | uninitialized => exact .nil
  | initialized _ _ _ _ _ ih => exact (((ih.left _).behind _).behind _).behind _
  | nested _ _ ih => exact ih
  | expressionStatement _ ih => exact ih
  | printStatement _ ih => exact ih
  | ifStatement _ ih => exact ih
  | whileStatement _ ih => exact ih
  | forStatement _ ih => exact ih
  | breakStatement _ ih => exact ih
  | returnStatement _ ih => exact ih
  | block _ ih => exact ih
  | print _ _ _ ih => exact (ih.left _).behind _
  | ifThen _ _ _ _ _ ihcondition ihbranch =>
    exact (((ihcondition.left _).append ((ihbranch.behind _).right _)).behind _).behind _
  | @ifElse _ _ _ _ _ _ _ _ _ _ _ x _ _ _ _ _ _ _ _ _ _ _ ihcondition ihthen ihelse =>
    have hbranches := (ihthen.left _).append ((ihelse.behind x).right _)
    exact (((ihcondition.left _).append ((hbranches.behind _).right _)).behind _).behind _
  | while_ _ _ _ _ _ ihcondition ihbody =>
    exact (((ihcondition.left _).append ((ihbody.behind _).right _)).behind _).behind _
  | @for_ _ _ k l _ _ _ _ _ _ e _ _ _ r _ _ _ _ keyword _ _ _ _ _ _ _ ihstart ihcondition ihstep
      ihbody =>
    have hclauses := ((ihstep.left _).append ((ihbody.behind r).right _)).behind e
    have hall := (((ihstart.left _).append
      (((ihcondition.left _).append (hclauses.right _)).right _)).behind l).behind k
    intro x hx
    rcases Parts.mem_desugarFor hx with hx | hx | hx | hx | rfl
    · exact hall x (by simp [hx])
    · exact hall x (by simp [hx])
    · exact hall x (by simp [hx])
    · exact hall x (by simp [hx])
    · exact .inl ⟨k, List.mem_cons_self .., keyword, rfl⟩
  | break_ => exact .nil
  | return_ _ _ _ ih =>
    show Written _ (Parts.stmt _)
    rw [Parts.stmt_return]
    exact (ih.left _).behind _
  | terminated _ _ ih => exact ih.left _
  | noInitializer => exact .nil
  | declaring _ ih => exact ih
  | evaluating _ ih => exact ih
  | noExpression => exact .nil
  | someExpression _ ih => exact ih
  | expression _ _ ih => exact ih (Nat.succ_pos _)
  | assign name equal value ih =>
    intro hp
    have hown := ownTokens_self (alone_of_assignment (.assign name equal value) hp)
    exact .cons ⟨_, hown⟩ (((ih hp).behind _).behind _)
  | @set _ _ _ _ _ d t q _ _ _ object dot name equal value ihobject ihvalue =>
    intro hp
    have hown := ownTokens_self (alone_of_assignment (.set object dot name equal value) hp)
    have hvalue := (((ihvalue hp).behind q).behind t).behind d
    exact .cons ⟨_, hown⟩ (((ihobject hp).left _).append (hvalue.right _))
  | operators _ ih => exact ih
  | operation first _ ihfirst ihrest =>
    exact fun hp => ihrest hp _ _ (operation_of_operand first) (ihfirst hp)
  | noOperator =>
    intro _ m us _ hleft
    rwa [List.append_nil]
  | @operator _ _ _ left t op ts _ _ _ _ _ operator right _ ihright ihrest =>
    intro hp m us hbefore hleft
    -- What is read up to here is an operation of its own, and the left side of what follows.
    have hall := operation_snoc hbefore operator right
    have hown := ownTokens_self (alone_of_operation hall hp)
    have hoperands := (hleft.left (t :: ts)).append (((ihright hp).behind t).right us)
    have hrest := ihrest hp m _ hall (Parts.expr_apply .. ▸ .cons ⟨_, hown⟩ hoperands)
    rwa [List.append_assoc] at hrest
  | tighter _ _ ih => exact ih
  | tightest _ _ ih => exact ih
  | unary operator room operand ih =>
    intro hp
    have hown := ownTokens_self (alone_of_unary (.unary operator room operand) hp)
    exact .cons ⟨_, hown⟩ ((ih (Nat.succ_pos _)).behind _)
  | noUnary _ ih => exact ih
  | call head _ ihhead ihrest =>
    exact fun hp => ihrest hp _ _ (call_of_primary head) (ihhead hp)
  | noSuffix =>
    intro _ m us _ hcallee
    rwa [List.append_nil]
  | @apply _ _ callee l ts args _ r us _ _ opening arguments few closing _ iharguments ihrest =>
    intro hp m vs hbefore hcallee
    have hall := call_append hbefore (.apply opening arguments few closing .noSuffix)
    have hown := ownTokens_self (alone_of_call hall hp)
    have hparts := (hcallee.left (l :: (ts ++ [r]))).append (((iharguments.left [r]).behind l).right vs)
    have hrest := ihrest hp m _ hall (.cons ⟨_, hown⟩ hparts)
    simpa using hrest
  | @get _ _ callee d t ts _ _ dot name _ ih =>
    intro hp m us hbefore hcallee
    have hall := call_append hbefore (.get dot name .noSuffix)
    have hown := ownTokens_self (alone_of_call hall hp)
    have hrest := ih hp m _ hall (.cons ⟨_, hown⟩ (hcallee.left [d, t]))
    simpa using hrest
  | noArguments => exact .nil
  | someArguments _ ih => exact ih
  | lastArgument _ ih => exact ih.append .nil
  | moreArguments _ _ _ ihvalue ihrest => exact (ihvalue.left _).append ((ihrest.behind _).right _)
  | @literal p n t v literal =>
    have hprimary : Derives .primary p n [t] (.literal v t.span) n := .literal literal
    exact fun hp => .cons ⟨_, ownTokens_self (alone_of_primary hprimary hp)⟩ .nil
  | var name => exact fun hp => .cons ⟨_, ownTokens_self (alone_of_primary (.var name) hp)⟩ .nil
  | grouping opening inner closing ih =>
    intro hp
    have hown := ownTokens_self (alone_of_primary (.grouping opening inner closing) hp)
    exact .cons ⟨_, hown⟩ ((ih.left _).behind _)
  | this keyword =>
    exact fun hp => .cons ⟨_, ownTokens_self (alone_of_primary (.this keyword) hp)⟩ .nil
  | super keyword dot name =>
    exact fun hp => .cons ⟨_, ownTokens_self (alone_of_primary (.super keyword dot name) hp)⟩ .nil
  | lambda keyword closure ih =>
    intro hp
    have hown := ownTokens_self (alone_of_primary (.lambda keyword closure) hp)
    exact .cons ⟨_, hown⟩ (ih.behind _)

end Lox.Grammar
