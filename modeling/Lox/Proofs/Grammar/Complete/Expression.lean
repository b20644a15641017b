import Lox.Proofs.Grammar.Complete.Basic

/-! # Completeness of the rules of expressions -/

namespace Lox.Grammar

open Rule

variable {fuel : Nat}

theorem append_cons {α : Type} (done : Array α) (a : α) (more : List α) :
    done ++ (a :: more).toArray = done.push a ++ more.toArray := by
  simp

theorem gives_expression (ih : Complete fuel) (p : Place) :
    Completes .expression p (expression (fuel + 1) p) (Stops ContinuesExpression) := by
  intro n ts e n' rest finish errors h hfollow
  rw [expression]
  cases h with
  | expression room assignment => exact gives_nested room (ih.assignment p.deeper assignment hfollow)

theorem gives_assignment (ih : Complete fuel) (p : Place) :
    Completes .assignment p (assignment (fuel + 1) p) (Stops ContinuesExpression) := by
  intro n ts e n' rest finish errors h hfollow
  rw [assignment]
  have hequal {q : Token} {us : List Token} (hq : q.kind = .symbol .equal) :
      Stops (Continues 6) (q :: us) := by
    intro hcontinues
    rw [hq] at hcontinues
    exact not_continues_closing (.inr rfl) hcontinues
  cases h with
  | @assign _ _ t q us e _ name equal value =>
    have htarget : Derives (.operation .or) p n [t] (.var ⟨n, t.ident⟩) (n + 1) :=
      operation_of_call (.call (.var name) .noSuffix)
    refine (ih.operation p .or htarget (hequal equal)).bind ?_
    refine gives_accept equal ?_
    refine (ih.assignment p value hfollow).bind ?_
    exact gives_fresh gives_pure
  | @set _ _ us o n₁ d t q vs e _ object dot name equal value =>
    have htarget := operation_of_property object dot name
    have htokens : us ++ d :: t :: q :: vs ++ rest = us ++ [d, t] ++ q :: (vs ++ rest) := by simp
    rw [htokens]
    refine (ih.operation p .or htarget (hequal equal)).bind ?_
    refine gives_accept equal ?_
    refine (ih.assignment p value hfollow).bind ?_
    exact gives_pure
  | operators operation =>
    refine (ih.operation p .or operation (hfollow.imp fun _ => .inl)).bind ?_
    exact gives_accept_none (hfollow.imp fun _ => .inr) gives_pure

theorem gives_operation (ih : Complete fuel) (p : Place) (level : Level) :
    Completes (.operation level) p (operation (fuel + 1) p level)
      (Stops (Continues (level.height + 1))) := by
  intro n ts e n' rest finish errors h hfollow
  rw [operation]
  cases h with
  | @operation _ _ _ us left _ vs _ _ first more =>
    rw [List.append_assoc]
    refine (ih.operand p level first ?_).bind (ih.chain p level left more hfollow)
    cases more with
    | noOperator => exact hfollow.imp fun kind h => h.mono (Nat.le_succ _)
    | operator operator => exact not_continues_operator operator

theorem gives_chain (ih : Complete fuel) (p : Place) (level : Level) (left : Expr) :
    Completes (.chain level left) p (chain (fuel + 1) p level left)
      (Stops (Continues (level.height + 1))) := by
  intro n ts e n' rest finish errors h hfollow
  rw [chain]
  cases h with
  | noOperator =>
    refine gives_takeIf_none (hfollow.imp ?_) gives_pure
    exact fun kind hsome => .inr (.inr ⟨level, Nat.lt_succ_self _, hsome⟩)
  | operator operator right more =>
    simp only [List.cons_append, List.append_assoc]
    refine gives_takeIf operator ?_
    refine (ih.operand p level right ?_).bind (ih.chain p level _ more hfollow)
    cases more with
    | noOperator => exact hfollow.imp fun kind h => h.mono (Nat.le_succ _)
    | operator operator => exact not_continues_operator operator

theorem gives_operand (ih : Complete fuel) (p : Place) (level : Level) :
    Completes (.operand level) p (operand (fuel + 1) p level)
      (Stops (Continues level.height)) := by
  intro n ts e n' rest finish errors h hfollow
  rw [operand]
  cases h with
  | @tighter _ _ _ level' _ _ _ next operation =>
    rw [next]
    rw [Level.height_tighter next] at hfollow
    exact ih.operation p level' operation hfollow
  | tightest last unary =>
    rw [last]
    exact ih.unary p unary (hfollow.imp fun kind h => h.mono (Nat.zero_le _))

theorem gives_unary (ih : Complete fuel) (p : Place) :
    Completes .unary p (unary (fuel + 1) p) (Stops (Continues 0)) := by
  intro n ts e n' rest finish errors h hfollow
  rw [unary]
  cases h with
  | unary operator room operand =>
    refine gives_takeIf operator ?_
    exact (gives_nested room (ih.unary p.deeper operand hfollow)).bind gives_pure
  | noUnary call =>
    cases call with
    | @call _ _ us callee _ vs _ _ head more =>
      rw [List.append_assoc]
      refine gives_takeIf_none ?_
        ((ih.primary p head trivial).bind (ih.calls p callee more hfollow))
      -- what a primary expression starts with is no unary operator
      cases head with
      | literal literal =>
        intro hsome
        unfold literal? at literal
        split at literal <;> simp_all [unaryOperator?]
      | var name => simp [Stops, name, unaryOperator?]
      | grouping opening => simp [Stops, opening, unaryOperator?]
      | this keyword => simp [Stops, keyword, unaryOperator?]
      | super keyword => simp [Stops, keyword, unaryOperator?]
      | lambda keyword => simp [Stops, keyword, unaryOperator?]

theorem gives_calls (ih : Complete fuel) (p : Place) (callee : Expr) :
    Completes (.suffixes callee) p (calls (fuel + 1) p callee) (Stops (Continues 0)) := by
  intro n ts e n' rest finish errors h hfollow
  rw [calls]
  cases h with
  | noSuffix =>
    refine gives_accept_none (hfollow.imp fun _ => .inl) ?_
    exact gives_accept_none (hfollow.imp fun _ h => .inr (.inl h)) gives_pure
  | @apply _ _ _ l us args _ r vs _ _ opening arguments few closing more =>
    simp only [List.cons_append, List.append_assoc]
    refine gives_accept opening ?_
    refine (ih.argumentList arguments few ⟨r, vs ++ rest, rfl, closing⟩).bind ?_
    exact gives_expect closing (ih.calls p _ more hfollow)
  | get dot name more =>
    simp only [List.cons_append]
    refine gives_accept_none (by simp [Stops, dot]) ?_
    refine gives_accept dot ?_
    exact gives_name name (ih.calls p _ more hfollow)

theorem gives_argumentList (ih : Complete fuel) {p : Place} {n n' finish : Nat}
    {ts rest : List Token} {args : List Expr} {errors : Array Diagnostic}
    (h : Derives .argumentList p n ts args n') (hfew : args.length ≤ maxArity)
    (hnext : Next .rightParen rest) :
    Gives (argumentList (fuel + 1) p) ⟨ts ++ rest, finish, n, errors⟩ args
      ⟨rest, finish, n', errors⟩ := by
  rw [argumentList]
  cases h with
  | noArguments =>
    obtain ⟨r, us, rfl, hr⟩ := hnext
    have hsees : Cursor.sees ⟨[] ++ r :: us, finish, n, errors⟩ (.symbol .rightParen) = true :=
      decide_eq_true hr
    exact gives_test hsees gives_pure
  | someArguments arguments =>
    obtain ⟨t, us, rfl, hstarts, -⟩ := arguments.starts
    have hsees : Cursor.sees ⟨(t :: us) ++ rest, finish, n, errors⟩ (.symbol .rightParen) =
        false := by
      refine decide_eq_false fun hkind => ?_
      rw [hkind] at hstarts
      cases hstarts
    refine gives_test hsees ?_
    refine (ih.arguments arguments (by simpa using hfew) hnext).bind ?_
    rw [Array.empty_append]
    exact gives_pure

theorem gives_arguments (ih : Complete fuel) {p : Place} {n n' finish : Nat}
    {ts rest : List Token} {args : List Expr} {errors : Array Diagnostic} {done : Array Expr}
    (h : Derives .arguments p n ts args n') (hfew : done.size + args.length ≤ maxArity)
    (hnext : Next .rightParen rest) :
    Gives (arguments (fuel + 1) p done) ⟨ts ++ rest, finish, n, errors⟩ (done ++ args.toArray)
      ⟨rest, finish, n', errors⟩ := by
  rw [arguments]
  cases h with
  | lastArgument value =>
    obtain ⟨r, us, rfl, hr⟩ := hnext
    refine gives_noteIf (by simp at hfew; omega) ?_
    refine (ih.expression p value (stops_closing hr (.inl rfl))).bind ?_
    refine gives_accept_none (by simp [Stops, hr]) ?_
    rw [← Array.push_eq_append]
    exact gives_pure
  | @moreArguments _ _ us e _ comma vs more _ value hcomma following =>
    simp only [List.append_assoc, List.cons_append]
    refine gives_noteIf (by simp at hfew; omega) ?_
    refine (ih.expression p value (stops_closing hcomma (.inr (.inr rfl)))).bind ?_
    refine gives_accept hcomma ?_
    rw [append_cons]
    exact ih.arguments following (by simp at hfew ⊢; omega) hnext

theorem gives_primary (ih : Complete fuel) (p : Place) :
    Completes .primary p (primary (fuel + 1) p) fun _ => True := by
  intro n ts e n' rest finish errors h _
  rw [primary]
  have hliteral {t : Token} {us : List Token} {k : Option (Literal × Token) → Rule Expr}
      {c' : Cursor} (hnone : literal? t.kind = none)
      (hk : Gives (k none) ⟨t :: us, finish, n, errors⟩ e c') :
      Gives (takeIf literal? >>= k) ⟨t :: us, finish, n, errors⟩ e c' :=
    gives_takeIf_none (by simp [Stops, hnone]) hk
  have hskip {t : Token} {us : List Token} {kind : TokenKind} {k : Option Token → Rule Expr}
      {c' : Cursor} (hne : t.kind ≠ kind) (hk : Gives (k none) ⟨t :: us, finish, n, errors⟩ e c') :
      Gives (accept kind >>= k) ⟨t :: us, finish, n, errors⟩ e c' :=
    gives_accept_none hne hk
  cases h with
  | literal literal => exact gives_takeIf literal gives_pure
  | var name =>
    refine hliteral (by rw [name]; rfl) ?_
    exact gives_accept name (gives_fresh gives_pure)
  | grouping opening inner closing =>
    simp only [List.cons_append, List.append_assoc, List.nil_append]
    refine hliteral (by rw [opening]; rfl) (hskip (by simp [opening]) ?_)
    refine gives_accept opening ?_
    refine (ih.expression p inner (stops_closing closing (.inl rfl))).bind ?_
    exact gives_expect closing gives_pure
  | this keyword =>
    refine hliteral (by rw [keyword]; rfl) (hskip (by simp [keyword]) (hskip (by simp [keyword]) ?_))
    exact gives_accept keyword (gives_fresh gives_pure)
  | super keyword dot name =>
    refine hliteral (by rw [keyword]; rfl) (hskip (by simp [keyword]) (hskip (by simp [keyword])
      (hskip (by simp [keyword]) ?_)))
    refine gives_accept keyword ?_
    exact gives_expect dot (gives_name name (gives_fresh gives_pure))
  | lambda keyword closure =>
    refine hliteral (by rw [keyword]; rfl) (hskip (by simp [keyword]) (hskip (by simp [keyword])
      (hskip (by simp [keyword]) (hskip (by simp [keyword]) ?_))))
    refine gives_accept keyword ?_
    obtain ⟨l, us, rfl, hl⟩ := closure.starts
    refine gives_expect hl ?_
    exact (ih.functionTail p _ .function closure trivial).bind gives_pure

end Lox.Grammar
