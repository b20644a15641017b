import Lox.Proofs.Grammar.Names
import Lox.Proofs.Grammar.Places
import Lox.Proofs.Grammar.Recovery.Fillings

/-! # Where declarations end

Which tokens make up a declaration does not depend on the place at which it is
read, nor on what it is read together with. So a list of declarations falls apart
at the ends of those that are known, and a program with a hole falls apart at the
declaration at the top that has the hole in it. -/

namespace Lox.Grammar

open Rule

/-- The place that asks the least of what is written there. -/
def Place.lenient : Place := ⟨0, true⟩

theorem Place.lenient_admits (p : Place) : Place.lenient.Admits p := ⟨Nat.zero_le _, fun _ => rfl⟩

variable {p p₀ : Place} {n n' n₀ n₀' : Nat} {ts us vs ws : List Token} {s s₀ : Stmt}
  {ss ss₀ : List Stmt}

/-- Two declarations that a text begins with, neither of them before an `else`, are the same. -/
theorem Derives.declaration_unique (h : Derives .declaration p n ts s n')
    (h₀ : Derives .declaration p₀ n₀ us s₀ n₀') (heq : ts ++ vs = us ++ ws)
    (hvs : Stops (· = .keyword .else_) vs) (hws : Stops (· = .keyword .else_) ws) : ts = us := by
  obtain ⟨s₁, k₁, h₁, -⟩ := (h.admitted (Place.lenient_admits p)).renumbered 0
  obtain ⟨s₂, k₂, h₂, -⟩ := (h₀.admitted (Place.lenient_admits p₀)).renumbered 0
  have hrun := h₁.declaration_eq hvs 0 #[]
  rw [heq, h₂.declaration_eq hws 0 #[]] at hrun
  have hrest : ws = vs := congrArg Cursor.tokens (EStateM.Result.ok.inj hrun).2
  rw [hrest] at heq
  exact List.append_cancel_right heq

/-- A list of declarations falls apart at the end of declarations that are known. -/
theorem Derives.split (h : Derives .declarations p n us ss n')
    (h₀ : Derives .declarations p₀ n₀ ts ss₀ n₀') (heq : us ++ vs = ts ++ ws)
    (hvs : Stops (· ≠ .symbol .rightBrace) vs) (hws : Stops (· = .keyword .else_) ws) :
    ∃ us' more ss' k, us = ts ++ us' ∧ ws = us' ++ vs ∧ ss = more ++ ss' ∧
      more.length = ss₀.length ∧ Derives .declarations p n ts more k ∧
        Derives .declarations p k us' ss' n' := by
  induction ss₀ generalizing ts us ss n n₀ with
  | nil =>
    cases h₀
    exact ⟨us, [], ss, n, rfl, heq.symm, rfl, rfl, .noDeclaration, h⟩
  | cons s₀ ss₀ ih =>
    cases h₀ with
    | @declarations _ _ xs _ _ ys _ _ first₀ rest₀ =>
      have hys := stops_declarations rest₀ hws
      cases h with
      | noDeclaration =>
        obtain ⟨t, xs', rfl, hstarts⟩ := first₀.starts
        rw [List.nil_append] at heq
        rw [heq] at hvs
        exact absurd (Loop.not_brace_of_starts hstarts) hvs
      | @declarations _ _ xs' _ _ ys' _ _ first rest =>
        have heq' : xs' ++ (ys' ++ vs) = xs ++ (ys ++ ws) := by
          rw [← List.append_assoc, heq, List.append_assoc]
        obtain rfl := first.declaration_unique first₀ heq'
          (stops_declarations rest (not_else_of_over hvs)) hys
        obtain ⟨us', more, ss', k, rfl, hw, rfl, hmore, hderives, hafter⟩ :=
          ih rest rest₀ (List.append_cancel_left heq')
        refine ⟨us', _ :: more, ss', k, ?_, hw, rfl, ?_, .declarations first hderives, hafter⟩
        · rw [List.append_assoc]
        · rw [List.length_cons, List.length_cons, hmore]

/-- The name of a class is its second token. -/
theorem Derives.className {name : String} (h : Derives .declaration p n ts s n')
    (hclass : s.isClass name = true) :
    ∃ k t rest, ts = k :: t :: rest ∧ t.kind = .identifier ∧ t.lexeme = name := by
  cases h with
  | classDeclaration h =>
    cases h with
    | class_ _ hname => exact ⟨_, _, _, rfl, hname, of_decide_eq_true hclass⟩
  | function => cases hclass
  | varDeclaration h => cases h <;> cases hclass
  | statement h =>
    cases h with
    | nested _ h =>
      cases h with
      | expressionStatement h | printStatement h | ifStatement h | whileStatement h
      | breakStatement h | returnStatement h => cases h <;> cases hclass
      | block => cases hclass
      | forStatement h =>
        cases h with
        | @for_ _ _ _ _ _ i =>
          cases i <;> cases hclass

namespace Hole

variable {H : Hole}

/-- What derives from tokens that do not name the class is left as it is. -/
theorem stmts_of_other (F : Filling H) (h : Derives .declarations p n ts ss n')
    (hother : ∀ t ∈ ts, t.lexeme ≠ H.name.lexeme) (rest : List Stmt) :
    F.cut.stmts 0 (ss ++ rest) = Outline.stmts ss ++ F.cut.stmts 0 rest := by
  have habsent : H.name.lexeme ∉ Names.stmts ss := by
    have hspelled : Spelled (· ≠ H.name.lexeme) ts := fun t ht _ => hother t ht
    exact fun hmem => h.spelled hspelled _ hmem rfl
  induction ss generalizing ts n with
  | nil => rfl
  | cons s ss ih =>
    simp only [Names.stmts, List.mem_append, not_or] at habsent
    cases h with
    | declarations first more =>
      rw [List.cons_append, F.cut.stmts_cons (Cut.isClass_of_absent habsent.1),
        Cut.stmt_of_absent s habsent.1,
        ih more (fun t ht => hother t (List.mem_append_right _ ht)) habsent.2]
      rfl

/-- A declaration at the top that the guide reads from before the hole on does not end inside it. -/
theorem Ahead.outside {finish : Nat} (h : Derives .declaration p n ts s n')
    (hahead : H.Ahead ⟨ts ++ us, finish, n, #[]⟩) (helse : Stops (· = .keyword .else_) us) :
    H.Outside ⟨us, finish, n', #[]⟩ := by
  have hrun := h.declaration_eq helse finish #[]
  have htracks := ((tracking H (40 * (ts ++ us).length + 21)).declaration p
    (F := fun i : Empty => i.elim) (g := fun i => i.elim)).off (.inl hahead) hrun rfl
  exact htracks.1

/-- A program with a hole falls apart at the declaration at the top that has the hole in it, or that
is the class in the hole. -/
theorem split {before : List Token}
    (h : Derives .declarations .top n (before ++ H.rest) ss n')
    (hother : ∀ t ∈ before, t.lexeme ≠ H.name.lexeme) :
    ∃ (u u' w : List Token) (front back : List Stmt) (middle : Stmt) (k k' : Nat),
      before = u ++ u' ∧ ss = front ++ middle :: back ∧
        Derives .declarations .top n u front k ∧ Derives .declarations .top k' w back n' ∧
          (middle.isClass H.name.lexeme = false ∧ (∃ w', H.behind = w' ++ w) ∨
            middle.isClass H.name.lexeme = true ∧ u' = [] ∧ w = H.extra ++ H.behind) := by
  induction ss generalizing before n with
  | nil =>
    generalize htokens : before ++ H.rest = tokens at h
    cases h
    cases before <;> cases htokens
  | cons s ss ih =>
    generalize htokens : before ++ H.rest = tokens at h
    cases h with
    | @declarations _ _ ts _ k us _ _ first more =>
      have helse : Stops (· = .keyword .else_) us := by
        have hends : Stops (· = .keyword .else_) [] := trivial
        have hstops := stops_declarations more hends
        rwa [List.append_nil] at hstops
      cases before with
      | nil =>
        -- At the hole the first declaration is the class.
        have hrun := first.declaration_eq helse 0 #[]
        rw [← htokens] at hrun
        rcases H.gives_class (40 * ([] ++ H.rest).length + 21) .top 0 n #[] with hok | ⟨d, hstarved⟩
        · obtain ⟨hs, hc⟩ := EStateM.Result.ok.inj (hok.symm.trans hrun)
          obtain ⟨rfl, -, rfl, -⟩ := Cursor.mk.inj hc
          obtain rfl := Option.some.inj hs
          exact ⟨[], [], _, [], ss, _, n, n, rfl, rfl, .noDeclaration, more,
            .inr ⟨decide_eq_true rfl, rfl, rfl⟩⟩
        · cases hstarved.symm.trans hrun
      | cons t before =>
        have hahead : H.Ahead ⟨ts ++ us, 0, n, #[]⟩ :=
          ⟨t :: before, List.cons_ne_nil t before, htokens.symm⟩
        have hlater : (∃ u, us = u ++ H.rest) ∨ us.length ≤ H.behind.length := by
          rcases hahead.outside first helse with ⟨u, -, hu⟩ | hat | hpast
          · exact .inl ⟨u, hu⟩
          · exact .inl ⟨[], hat⟩
          · exact .inr hpast
        rcases hlater with ⟨u, rfl⟩ | hshort
        · rw [← List.append_assoc] at htokens
          have hbefore := List.append_cancel_right htokens
          rw [hbefore] at hother
          obtain ⟨v, v', w, front, back, middle, k₁, k₂, rfl, rfl, hfront, hback, hmiddle⟩ :=
            ih more fun t ht => hother t (List.mem_append_right _ ht)
          refine ⟨ts ++ v, v', w, s :: front, back, middle, k₁, k₂, ?_, rfl,
            .declarations first hfront, hback, hmiddle⟩
          rw [hbefore, List.append_assoc]
        · refine ⟨[], t :: before, us, [], ss, s, n, k, rfl, rfl, .noDeclaration, more, .inl ⟨?_, ?_⟩⟩
          · rw [Bool.eq_false_iff]
            intro hclass
            obtain ⟨k', t', rest, rfl, hkind, hname⟩ := first.className hclass
            have hsecond : before ++ H.rest = t' :: (rest ++ us) := (List.cons.inj htokens).2
            cases before with
            | nil =>
              obtain ⟨rfl, -⟩ := List.cons.inj hsecond
              rw [H.isKeyword] at hkind
              cases hkind
            | cons x before =>
              obtain ⟨rfl, -⟩ := List.cons.inj hsecond
              exact hother x (by simp) hname
          · have hsuffix : us <:+ t :: before ++ H.rest := ⟨ts, htokens.symm⟩
            have hbehind : H.behind <:+ t :: before ++ H.rest :=
              ⟨t :: before ++ H.keyword :: H.name :: H.opening :: H.closing :: H.extra, by simp [rest]⟩
            obtain ⟨w', hw'⟩ := List.suffix_of_suffix_length_le hsuffix hbehind hshort
            exact ⟨w', hw'.symm⟩

end Hole

end Lox.Grammar
