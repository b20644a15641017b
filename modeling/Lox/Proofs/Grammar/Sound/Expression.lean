import Lox.Proofs.Grammar.Sound.Basic

/-! # Soundness of the rules of expressions -/

namespace Lox.Grammar

open Rule

variable {fuel : Nat}

/-- A phrase that is one token. -/
theorem builds_token {phrase : Phrase} {p : Place} {a : phrase.Tree} {c c' : Cursor} {t : Token}
    (ht : c.Takes t c') {c'' : Cursor} (htokens : c''.tokens = c'.tokens)
    (h : Derives phrase p c.nextId [t] a c''.nextId) : Builds phrase p [] c a c'' := by
  obtain ⟨htokens', hshorter, -, -⟩ := ht
  refine ⟨by rw [htokens]; omega, fun _ => ⟨[t], ?_, h⟩⟩
  rw [htokens', htokens, List.singleton_append]

theorem reads_expression (ih : Sound fuel) (p : Place) (c : Cursor)
    (hfuel : 40 * c.tokens.length + 16 ≤ fuel + 1) :
    Reads (expression (fuel + 1) p) c (Builds .expression p [] c) := by
  rw [expression]
  refine reads_nested fun hroom => ?_
  refine (ih.assignment p.deeper c (by omega)).imp ?_
  rintro e c' - ⟨hshort, hassignment⟩
  refine ⟨hshort, fun hclean => ?_⟩
  obtain ⟨ts, hts, hd⟩ := hassignment hclean
  exact ⟨ts, hts, .expression hroom hd⟩

theorem reads_assignTo {p : Place} {c c₁ c₂ c₃ : Cursor} {target value : Expr} {q : Token}
    (herrors₁ : c.errors.size ≤ c₁.errors.size) (hq : c₁.Takes q c₂)
    (hequal : q.kind = .symbol .equal) (herrors₃ : c₂.errors.size ≤ c₃.errors.size)
    (htarget : Builds (.operation .or) p [] c target c₁)
    (hvalue : Builds .assignment p [] c₂ value c₃) :
    Reads (assignTo target q.span value) c₃ (Builds .assignment p [] c) := by
  obtain ⟨hshort₁, htarget⟩ := htarget
  obtain ⟨hshort₃, hvalue⟩ := hvalue
  obtain ⟨htokens, hshorter, hnext, herrors⟩ := hq
  have hshort : c₃.tokens.length < c.tokens.length := by omega
  unfold assignTo
  split
  · refine reads_fresh (reads_pure ⟨hshort, fun hclean => ?_⟩)
    obtain ⟨ts, hts, hvar⟩ := htarget (by dsimp only at hclean; omega)
    obtain ⟨us, hus, hassignment⟩ := hvalue (by dsimp only at hclean; omega)
    obtain ⟨t, rfl, hname, rfl, hnext'⟩ := operation_var hvar
    refine ⟨t :: q :: us, by simp [hts, htokens, hus], ?_⟩
    rw [hnext, hnext'] at hassignment
    exact .assign hname hequal hassignment
  · refine reads_pure ⟨hshort, fun hclean => ?_⟩
    obtain ⟨ts, hts, hget⟩ := htarget (by omega)
    obtain ⟨us, hus, hassignment⟩ := hvalue (by omega)
    obtain ⟨ws, d, t, rfl, rfl, hdot, hname, hobject⟩ := operation_get hget
    refine ⟨ws ++ d :: t :: q :: us, by simp [hts, htokens, hus], ?_⟩
    rw [hnext] at hassignment
    exact .set hobject hdot hname hequal hassignment
  · refine reads_note.bind ?_
    rintro _ c₄ - ⟨htokens₄, -, herrors₄⟩
    refine reads_pure ⟨by rw [htokens₄]; exact hshort, fun hclean => ?_⟩
    omega

theorem reads_assignment (ih : Sound fuel) (p : Place) (c : Cursor)
    (hfuel : 40 * c.tokens.length + 15 ≤ fuel + 1) :
    Reads (assignment (fuel + 1) p) c (Builds .assignment p [] c) := by
  rw [assignment]
  refine (ih.operation p .or c (by simp only [Level.height]; omega)).bind ?_
  rintro target c₁ ⟨htokens₁, herrors₁⟩ htarget
  refine reads_accept ?_ ?_
  · intro q c₂ hq hequal
    have hshorter := hq.shorter
    refine (ih.assignment p c₂ (by omega)).bind ?_
    rintro value c₃ ⟨-, herrors₃⟩ hvalue
    exact reads_assignTo herrors₁ hq hequal herrors₃ htarget hvalue
  · intro _
    obtain ⟨hshort, hoperation⟩ := htarget
    refine reads_pure ⟨hshort, fun hclean => ?_⟩
    obtain ⟨ts, hts, hd⟩ := hoperation hclean
    exact ⟨ts, hts, .operators hd⟩

theorem reads_operation (ih : Sound fuel) (p : Place) (level : Level) (c : Cursor)
    (hfuel : 40 * c.tokens.length + (2 * level.height + 4) ≤ fuel + 1) :
    Reads (operation (fuel + 1) p level) c (Builds (.operation level) p [] c) := by
  rw [operation]
  refine (ih.operand p level c (by omega)).bind ?_
  rintro left c₁ ⟨htokens₁, herrors₁⟩ ⟨hshort, hfirst⟩
  refine (ih.chain p level left c₁ (by omega)).imp ?_
  rintro e c₂ ⟨htokens₂, herrors₂⟩ hrest
  refine ⟨by omega, fun hclean => ?_⟩
  obtain ⟨ts, hts, hleft⟩ := hfirst (by omega)
  obtain ⟨us, hus, hchain⟩ := hrest (by omega)
  refine ⟨ts ++ us, by simp [hts, hus], ?_⟩
  rw [List.nil_append] at hleft ⊢
  exact .operation hleft hchain

theorem reads_chain (ih : Sound fuel) (p : Place) (level : Level) (left : Expr) (c : Cursor)
    (hfuel : 40 * c.tokens.length + 1 ≤ fuel + 1) :
    Reads (chain (fuel + 1) p level left) c fun e c' =>
      c.Reaches c' fun ts => Derives (.chain level left) p c.nextId ts e c'.nextId := by
  rw [chain]
  refine reads_takeIf ?_ ?_
  · rintro op t c₁ ⟨htokens, hshorter, hnext, herrors⟩ hoperator
    have hheight : level.height ≤ 5 := by cases level <;> decide
    refine (ih.operand p level c₁ (by omega)).bind ?_
    rintro right c₂ ⟨htokens₂, herrors₂⟩ ⟨-, hright⟩
    refine (ih.chain p level _ c₂ (by omega)).imp ?_
    rintro e c₃ ⟨htokens₃, herrors₃⟩ hrest hclean
    obtain ⟨ts, hts, hoperand⟩ := hright (by omega)
    obtain ⟨us, hus, hchain⟩ := hrest (by omega)
    refine ⟨t :: (ts ++ us), by simp [htokens, hts, hus], ?_⟩
    rw [hnext] at hoperand
    exact .operator hoperator hoperand hchain
  · exact reads_pure fun _ => ⟨[], rfl, .noOperator⟩

theorem reads_operand (ih : Sound fuel) (p : Place) (level : Level) (c : Cursor)
    (hfuel : 40 * c.tokens.length + (2 * level.height + 3) ≤ fuel + 1) :
    Reads (operand (fuel + 1) p level) c (Builds (.operand level) p [] c) := by
  rw [operand]
  split
  · rename_i tighter htighter
    have hheight := Level.height_tighter htighter
    refine (ih.operation p tighter c (by omega)).imp ?_
    rintro e c' - ⟨hshort, hoperation⟩
    refine ⟨hshort, fun hclean => ?_⟩
    obtain ⟨ts, hts, hd⟩ := hoperation hclean
    exact ⟨ts, hts, .tighter htighter hd⟩
  · rename_i htightest
    refine (ih.unary p c (by omega)).imp ?_
    rintro e c' - ⟨hshort, hunary⟩
    refine ⟨hshort, fun hclean => ?_⟩
    obtain ⟨ts, hts, hd⟩ := hunary hclean
    exact ⟨ts, hts, .tightest htightest hd⟩

theorem reads_unary (ih : Sound fuel) (p : Place) (c : Cursor)
    (hfuel : 40 * c.tokens.length + 2 ≤ fuel + 1) :
    Reads (unary (fuel + 1) p) c (Builds .unary p [] c) := by
  rw [unary]
  refine reads_takeIf ?_ ?_
  · rintro op t c₁ ⟨htokens, hshorter, hnext, herrors⟩ hoperator
    refine (reads_nested fun hroom => (ih.unary p.deeper c₁ (by omega)).imp
      fun e c' _ h => And.intro hroom h).bind ?_
    rintro e c₂ ⟨htokens₂, herrors₂⟩ ⟨hroom, -, hoperand⟩
    refine reads_pure ⟨by omega, fun hclean => ?_⟩
    obtain ⟨ts, hts, hd⟩ := hoperand (by omega)
    refine ⟨t :: ts, by simp [htokens, hts], ?_⟩
    rw [hnext] at hd
    exact .unary hoperator hroom hd
  · refine (ih.primary p c (by omega)).bind ?_
    rintro head c₁ ⟨htokens₁, herrors₁⟩ ⟨hshort, hhead⟩
    refine (ih.calls p head c₁ (by omega)).imp ?_
    rintro e c₂ ⟨htokens₂, herrors₂⟩ hrest
    refine ⟨by omega, fun hclean => ?_⟩
    obtain ⟨ts, hts, hprimary⟩ := hhead (by omega)
    obtain ⟨us, hus, hsuffixes⟩ := hrest (by omega)
    refine ⟨ts ++ us, by simp [hts, hus], ?_⟩
    rw [List.nil_append] at hprimary ⊢
    exact .noUnary (.call hprimary hsuffixes)

theorem reads_calls (ih : Sound fuel) (p : Place) (callee : Expr) (c : Cursor)
    (hfuel : 40 * c.tokens.length + 1 ≤ fuel + 1) :
    Reads (calls (fuel + 1) p callee) c fun e c' =>
      c.Reaches c' fun ts => Derives (.suffixes callee) p c.nextId ts e c'.nextId := by
  rw [calls]
  refine reads_accept ?_ fun _ => reads_accept ?_ fun _ => ?_
  · rintro l c₁ ⟨htokens, hshorter, hnext, herrors⟩ hopening
    refine (ih.argumentList p c₁ (by omega)).bind ?_
    rintro args c₂ ⟨htokens₂, herrors₂⟩ hargs
    refine reads_expect ?_
    rintro r c₃ ⟨htokens₃, hshorter₃, hnext₃, herrors₃⟩ hclosing
    refine (ih.calls p _ c₃ (by omega)).imp ?_
    rintro e c₄ ⟨htokens₄, herrors₄⟩ hrest hclean
    obtain ⟨ts, hts, harguments, hfew⟩ := hargs (by omega)
    obtain ⟨us, hus, hsuffixes⟩ := hrest (by omega)
    refine ⟨l :: (ts ++ r :: us), by simp [htokens, hts, htokens₃, hus], ?_⟩
    rw [hnext] at harguments
    rw [hnext₃] at hsuffixes
    exact .apply hopening harguments hfew hclosing hsuffixes
  · rintro d c₁ ⟨htokens, hshorter, hnext, herrors⟩ hdot
    refine reads_name ?_
    rintro t c₂ ⟨htokens₂, hshorter₂, hnext₂, herrors₂⟩ hname
    refine (ih.calls p _ c₂ (by omega)).imp ?_
    rintro e c₃ ⟨htokens₃, herrors₃⟩ hrest hclean
    obtain ⟨ts, hts, hsuffixes⟩ := hrest (by omega)
    refine ⟨d :: t :: ts, by simp [htokens, htokens₂, hts], ?_⟩
    rw [hnext₂, hnext] at hsuffixes
    exact .get hdot hname hsuffixes
  · exact reads_pure fun _ => ⟨[], rfl, .noSuffix⟩

theorem reads_argumentList (ih : Sound fuel) (p : Place) (c : Cursor)
    (hfuel : 40 * c.tokens.length + 18 ≤ fuel + 1) :
    Reads (argumentList (fuel + 1) p) c fun args c' => c.Reaches c' fun ts =>
      Derives .argumentList p c.nextId ts args c'.nextId ∧ args.length ≤ maxArity := by
  rw [argumentList]
  refine reads_test ?_
  split
  · exact reads_pure fun _ => ⟨[], rfl, .noArguments, Nat.zero_le _⟩
  · refine (ih.arguments p #[] c (by omega)).bind ?_
    rintro args c₁ - hargs
    refine reads_pure fun hclean => ?_
    obtain ⟨ts, hts, more, hmore, hd, hfew⟩ := hargs hclean
    rw [Array.toList_empty, List.nil_append] at hmore
    subst hmore
    exact ⟨ts, hts, .someArguments hd, hfew⟩

theorem reads_arguments (ih : Sound fuel) (p : Place) (done : Array Expr) (c : Cursor)
    (hfuel : 40 * c.tokens.length + 17 ≤ fuel + 1) :
    Reads (arguments (fuel + 1) p done) c fun args c' => c.Reaches c' fun ts =>
      ∃ more, args.toList = done.toList ++ more ∧
        Derives .arguments p c.nextId ts more c'.nextId ∧ args.toList.length ≤ maxArity := by
  rw [arguments]
  refine reads_noteIf reads_noteHere ?_
  rintro c₁ ⟨htokens₁, herrors₁⟩ htokens hnext hfew
  refine (ih.expression p c₁ (by rw [htokens]; omega)).bind ?_
  rintro e c₂ ⟨htokens₂, herrors₂⟩ ⟨hshort, hvalue⟩
  refine reads_accept ?_ fun _ => ?_
  · rintro comma c₃ ⟨htokens₃, hshorter₃, hnext₃, herrors₃⟩ hcomma
    refine (ih.arguments p (done.push e) c₃ (by omega)).imp ?_
    rintro args c₄ ⟨htokens₄, herrors₄⟩ hrest hclean
    obtain ⟨ts, hts, hd⟩ := hvalue (by omega)
    obtain ⟨us, hus, more, hmore, hrest, hcount⟩ := hrest (by omega)
    refine ⟨ts ++ comma :: us, by simp [← htokens, hts, htokens₃, hus], e :: more, ?_, ?_, hcount⟩
    · simp [hmore]
    · rw [hnext] at hd
      rw [hnext₃] at hrest
      exact .moreArguments hd hcomma hrest
  · refine reads_pure fun hclean => ?_
    obtain ⟨ts, hts, hd⟩ := hvalue (by omega)
    rw [hnext] at hd
    refine ⟨ts, by rw [← htokens, hts], [e], by simp, .lastArgument hd, ?_⟩
    have hdone : ¬ maxArity ≤ done.size := fun h => by have := hfew h; omega
    simp only [Array.toList_push, List.length_append, Array.length_toList, List.length_singleton]
    omega

theorem reads_primary (ih : Sound fuel) (p : Place) (c : Cursor)
    (hfuel : 40 * c.tokens.length + 1 ≤ fuel + 1) :
    Reads (primary (fuel + 1) p) c (Builds .primary p [] c) := by
  rw [primary]
  refine reads_takeIf ?literal (reads_accept ?var fun _ => reads_accept ?grouping fun _ =>
    reads_accept ?this fun _ => reads_accept ?super fun _ => reads_accept ?lambda fun _ =>
    reads_refuse)
  case literal =>
    intro value t c₁ ht hliteral
    refine reads_pure (builds_token ht rfl ?_)
    rw [ht.nextId]
    exact .literal hliteral
  case var =>
    intro t c₁ ht hname
    refine reads_fresh (reads_pure (builds_token ht rfl ?_))
    rw [ht.nextId]
    exact .var hname
  case grouping =>
    rintro l c₁ ⟨htokens, hshorter, hnext, herrors⟩ hopening
    refine (ih.expression p c₁ (by omega)).bind ?_
    rintro e c₂ ⟨htokens₂, herrors₂⟩ ⟨-, hinner⟩
    refine reads_expect ?_
    rintro r c₃ ⟨htokens₃, hshorter₃, hnext₃, herrors₃⟩ hclosing
    refine reads_pure ⟨by omega, fun hclean => ?_⟩
    obtain ⟨ts, hts, hd⟩ := hinner (by omega)
    refine ⟨l :: (ts ++ [r]), by simp [htokens, hts, htokens₃], ?_⟩
    rw [hnext] at hd
    rw [hnext₃]
    exact .grouping hopening hd hclosing
  case this =>
    intro k c₁ hk hkeyword
    refine reads_fresh (reads_pure (builds_token hk rfl ?_))
    rw [hk.nextId]
    exact .this hkeyword
  case super =>
    rintro k c₁ ⟨htokens, hshorter, hnext, herrors⟩ hkeyword
    refine reads_expect ?_
    rintro d c₂ ⟨htokens₂, hshorter₂, hnext₂, herrors₂⟩ hdot
    refine reads_name ?_
    rintro t c₃ ⟨htokens₃, hshorter₃, hnext₃, herrors₃⟩ hname
    refine reads_fresh (reads_pure ⟨by dsimp only; omega, fun _ => ?_⟩)
    refine ⟨[k, d, t], by simp [htokens, htokens₂, htokens₃], ?_⟩
    dsimp only
    rw [hnext₃, hnext₂, hnext]
    exact .super hkeyword hdot hname
  case lambda =>
    rintro k c₁ ⟨htokens, hshorter, hnext, herrors⟩ hkeyword
    refine reads_expect ?_
    rintro l c₂ ⟨htokens₂, hshorter₂, hnext₂, herrors₂⟩ hopening
    refine (ih.functionTail p k.span .function l c₂ hopening (by omega)).bind ?_
    rintro fn c₃ ⟨htokens₃, herrors₃⟩ ⟨-, hclosure⟩
    refine reads_pure ⟨by omega, fun hclean => ?_⟩
    obtain ⟨ts, hts, hd⟩ := hclosure (by omega)
    refine ⟨k :: l :: ts, by simp [htokens, htokens₂, hts], ?_⟩
    rw [hnext₂, hnext] at hd
    exact .lambda hkeyword hd

end Lox.Grammar
