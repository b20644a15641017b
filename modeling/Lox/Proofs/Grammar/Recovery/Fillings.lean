import Lox.Proofs.Grammar.Bound
import Lox.Proofs.Grammar.Recovery.Loops
import Lox.Proofs.Renumber.Parse

/-! # What fills a hole

A list of declarations comes to the other side of a hole when it reads on there:
over declarations, with their statements, or over a declaration that fails, with its
errors and without a statement. The guide tells what a program is with such a
filling. -/

namespace Lox.Grammar

open Rule

/-! ## Declarations within any bound -/

section

variable {fuel : Nat} {p : Place} {c c' : Cursor} {s : Stmt} {ts : List Token} {n n' : Nat}

/-- What a declaration reads does not depend on the bound on steps. -/
theorem builds_of_declaration (h : declaration fuel p c = .ok (some s) c') :
    c.Onward c' ∧ Builds .declaration p [] c s c' := by
  have hreads := (sound (40 * c.tokens.length + 21)).declaration p c (Nat.le_refl _)
  unfold Reads at hreads
  rcases ((agreeing fuel _).declaration p).of_ok h with hok | ⟨d, hstarved⟩
  · exact hreads.of_ok hok
  · cases (hreads.of_error hstarved).1

theorem errors_of_declaration (h : declaration fuel p c = .ok none c') :
    c.errors.size < c'.errors.size := by
  have hreads := (sound (40 * c.tokens.length + 21)).declaration p c (Nat.le_refl _)
  unfold Reads at hreads
  rcases ((agreeing fuel _).declaration p).of_ok h with hok | ⟨d, hstarved⟩
  · exact (hreads.of_ok hok).2.1
  · cases (hreads.of_error hstarved).1

/-- A declaration that is read to the end of a text without an error is derived from the text. -/
theorem derives_of_declaration (h : declaration fuel p c = .ok (some s) c')
    (hend : c'.tokens = []) (hclean : c'.errors.size = c.errors.size) :
    Derives .declaration p c.nextId c.tokens s c'.nextId := by
  obtain ⟨us, hus, hderives⟩ := (builds_of_declaration h).2.2 hclean
  rw [hend, List.append_nil] at hus
  rw [hus]
  exact hderives

/-- With steps enough a declaration is read to its end. -/
theorem Derives.declaration_eq (h : Derives .declaration p n ts s n') {rest : List Token}
    (helse : Stops (· = .keyword .else_) rest) (finish : Nat) (errors : Array Diagnostic) :
    declaration (40 * (ts ++ rest).length + 21) p ⟨ts ++ rest, finish, n, errors⟩ =
      .ok (some s) ⟨rest, finish, n', errors⟩ := by
  have hreads := (sound (40 * (ts ++ rest).length + 21)).declaration p
    ⟨ts ++ rest, finish, n, errors⟩ (Nat.le_refl _)
  unfold Reads at hreads
  rcases (complete (40 * (ts ++ rest).length + 21)).declaration h helse with hok | ⟨d, hstarved⟩
  · exact hok
  · cases (hreads.of_error hstarved).1

/-- What tokens derive with the numbers from `n` on, they derive with those from `m` on. -/
theorem Derives.renumbered (h : Derives .declaration p n ts s n') (m : Nat) :
    ∃ s' m', Derives .declaration p m ts s' m' ∧ Outline.stmt s' = Outline.stmt s := by
  have hshift (k : Nat) := (shifting (n := 0) (k := k) (ρ := (· + k)) (fun _ _ => rfl)
    (40 * ts.length + 21)).declaration p ⟨ts, 0, 0, #[]⟩ (Nat.le_refl 0)
  simp only [Cursor.ahead, Nat.zero_add] at hshift
  have hends : Stops (· = .keyword .else_) [] := trivial
  have hrest := h.declaration_eq hends 0 #[]
  rw [List.append_nil] at hrest
  -- With the numbers from zero on the declaration is read too, for else it would not be from `n` on.
  have hzero := hshift n
  unfold Ends at hzero
  cases hrun : declaration (40 * ts.length + 21) p ⟨ts, 0, 0, #[]⟩ with
  | error halt d =>
    rw [hrun, hrest] at hzero
    cases hzero.2
  | ok s₀ d =>
    rw [hrun, hrest] at hzero
    obtain ⟨hs, hd⟩ := EStateM.Result.ok.inj hzero.2
    cases s₀ with
    | none => cases hs
    | some s₀ =>
      obtain ⟨hend, hfinish, -, hclean⟩ := Cursor.mk.inj hd
      have hm := ((hshift m).of_ok hrun).2
      refine ⟨_, _, derives_of_declaration hm hend.symm ?_, ?_⟩
      · dsimp only
        rw [← hclean]
      · rw [Option.some.inj hs, Outline.stmt_renumber, Outline.stmt_renumber]

theorem Derives.renumbered_list {ss : List Stmt} (h : Derives .declarations p n ts ss n') (m : Nat) :
    ∃ ss' m', Derives .declarations p m ts ss' m' ∧ Outline.stmts ss' = Outline.stmts ss := by
  induction ss generalizing ts n m with
  | nil =>
    cases h
    exact ⟨[], m, .noDeclaration, rfl⟩
  | cons s ss ih =>
    cases h with
    | declarations first rest =>
      obtain ⟨s', k, hfirst, hs⟩ := first.renumbered m
      obtain ⟨ss', m', hrest, hss⟩ := ih rest k
      refine ⟨s' :: ss', m', .declarations hfirst hrest, ?_⟩
      rw [Outline.stmts_eq_map, Outline.stmts_eq_map] at hss ⊢
      rw [List.map_cons, List.map_cons, hs, hss]

end

/-! ## Leading on -/

/-- At the end of a list stands no `else`. -/
theorem not_else_of_over {ts : List Token} (h : Stops (· ≠ .symbol .rightBrace) ts) :
    Stops (· = .keyword .else_) ts :=
  h.imp fun kind hkind => by
    rw [hkind]
    nofun

namespace Loop

variable {loop : Loop} {done done' done'' : Array Stmt} {c c' c'' : Cursor}

theorem Leads.refl : loop.Leads done c done c := fun fuel => .inr ⟨fuel, Nat.le_refl fuel, rfl⟩

theorem Leads.trans (h : loop.Leads done c done' c') (h' : loop.Leads done' c' done'' c'') :
    loop.Leads done c done'' c'' := by
  intro fuel
  rcases h fuel with hstarved | ⟨fuel', hle, hstep⟩
  · exact .inl hstarved
  · rw [hstep]
    rcases h' fuel' with hstarved | ⟨fuel'', hle', hstep'⟩
    · exact .inl hstarved
    · exact .inr ⟨fuel'', Nat.le_trans hle' hle, hstep'⟩

/-- One declaration, or none, is read. -/
theorem leads_declaration {result : Option Stmt}
    (h : ∀ fuel, Gives (declaration fuel loop.place) c result c') (hc : c.tokens ≠ [])
    (hbrace : Stops (· = .symbol .rightBrace) c.tokens) :
    loop.Leads done c (result.elim done done.push) c' := by
  intro fuel
  cases fuel with
  | zero => cases loop <;> exact .inl ⟨c, rfl⟩
  | succ fuel =>
    rw [run_more (not_over hc hbrace)]
    rcases h fuel with hok | ⟨d, hstarved⟩
    · refine .inr ⟨fuel, Nat.le_succ fuel, ?_⟩
      rw [bind_of_ok hok]
      cases result <;> rfl
    · exact .inl ⟨d, bind_of_error hstarved⟩

theorem not_brace_of_starts {t : Token} (h : startsDeclaration t.kind = true) :
    t.kind ≠ .symbol .rightBrace := by
  intro hbrace
  rw [hbrace] at h
  cases h

/-- All declarations are read. -/
theorem leads_declarations {ss : List Stmt} {ts behind : List Token} {n n' finish : Nat}
    {errors : Array Diagnostic} (h : Derives .declarations loop.place n ts ss n')
    (helse : Stops (· = .keyword .else_) behind) :
    loop.Leads done ⟨ts ++ behind, finish, n, errors⟩ (done ++ ss.toArray)
      ⟨behind, finish, n', errors⟩ := by
  induction ss generalizing ts n done with
  | nil =>
    cases h
    rw [Array.append_empty]
    exact .refl
  | cons s ss ih =>
    cases h with
    | @declarations _ _ us _ _ vs _ _ first rest =>
      obtain ⟨t, ws, rfl, hstarts⟩ := first.starts
      rw [append_cons, List.append_assoc]
      refine Leads.trans ?_ (ih rest)
      have hfollow : Stops (· = .keyword .else_) (vs ++ behind) := stops_declarations rest helse
      have hread (fuel : Nat) : Gives (declaration fuel loop.place)
          ⟨t :: (ws ++ (vs ++ behind)), finish, n, errors⟩ (some s) _ :=
        (complete fuel).declaration first hfollow
      exact leads_declaration hread (List.cons_ne_nil _ _) (not_brace_of_starts hstarts)

theorem stops_of_over (h : loop.over c = true) : Stops (· ≠ .symbol .rightBrace) c.tokens := by
  obtain ⟨ts, finish, n, errors⟩ := c
  cases ts with
  | nil => trivial
  | cons t ts =>
    cases loop with
    | program => cases h
    | block p => exact not_not_intro (of_decide_eq_true h)

theorem moves_run (H : Hole) (loop : Loop) (fuel : Nat) (done : Array Stmt) :
    Moves (loop.run fuel done) := by
  have hnone : ∀ i : Empty, (i.elim : Filling H).SameStmts done i.elim := fun i => i.elim
  cases loop with
  | program => exact (tracks_program H fuel (g := fun i => i.elim) hnone).moves
  | block p => exact ((tracking H fuel).declarations (g := fun i => i.elim) p hnone).moves

/-- A list that is read to its end without an error are declarations. -/
theorem derives_of_run (H : Hole) (loop : Loop) {fuel : Nat} {done all : Array Stmt} {c c' : Cursor}
    (hrun : loop.run fuel done c = .ok all c') (hclean : c'.errors.size = c.errors.size) :
    ∃ ts ss n', c.tokens = ts ++ c'.tokens ∧ Derives .declarations loop.place c.nextId ts ss n' ∧
      Stops (· ≠ .symbol .rightBrace) c'.tokens := by
  induction fuel generalizing done c with
  | zero => cases loop <;> cases hrun
  | succ fuel ih =>
    cases hover : loop.over c with
    | true =>
      rw [run_over hover] at hrun
      obtain ⟨-, rfl⟩ := EStateM.Result.ok.inj hrun
      exact ⟨[], [], c.nextId, rfl, .noDeclaration, stops_of_over hover⟩
    | false =>
      rw [run_more hover] at hrun
      cases hd : declaration fuel loop.place c with
      | error halt c₁ =>
        rw [bind_of_error hd] at hrun
        cases hrun
      | ok result c₁ =>
        rw [bind_of_ok hd] at hrun
        cases result with
        | none =>
          have hgrown := errors_of_declaration hd
          obtain ⟨-, hmoves⟩ := ((loop.moves_run H fuel done).ends c₁).of_ok hrun
          omega
        | some s =>
          obtain ⟨⟨-, honward⟩, -, hreaches⟩ := builds_of_declaration hd
          obtain ⟨-, hmoves⟩ := ((loop.moves_run H fuel _).ends c₁).of_ok hrun
          obtain ⟨us, hus, hfirst⟩ := hreaches (by omega)
          obtain ⟨ts, ss, n', hts, hrest, hover'⟩ := ih hrun (by omega)
          refine ⟨us ++ ts, s :: ss, n', ?_, .declarations hfirst hrest, hover'⟩
          rw [hus, hts, List.append_assoc]

end Loop

/-! ## A hole in a program -/

/-- A parse without errors comes to its end. -/
theorem run_of_parseProgram {stream : TokenStream} {first : Nat}
    (h : (parseProgram stream first).errors = #[]) : ∃ all c,
      program (stepBound stream.tokens.length) #[] (.start stream first) = .ok all c ∧
        c.tokens = [] ∧ c.errors = #[] ∧ (parseProgram stream first).value = all.toList := by
  have hreads := reads_start stream first
  unfold Reads Ends at hreads
  unfold parseProgram parse at h ⊢
  cases hrule : program (stepBound stream.tokens.length) #[] (.start stream first) with
  | ok all c =>
    rw [hrule] at hreads h
    exact ⟨all, c, rfl, hreads.2.1, h, rfl⟩
  | error halt c =>
    rw [hrule] at hreads h
    obtain ⟨-, -, herrors⟩ := hreads
    have hclean : c.errors = #[] := h
    rw [hclean] at herrors
    exact absurd herrors (Nat.not_lt_zero _)

namespace Hole

variable {H : Hole}

/-- A text up to the hole begins before it or at it. -/
theorem ahead_or_at (before : List Token) (finish first : Nat) :
    H.Ahead (.start ⟨before ++ H.rest, finish⟩ first) ∨
      H.At (.start ⟨before ++ H.rest, finish⟩ first) := by
  cases before with
  | nil => exact .inr rfl
  | cons t ts => exact .inl ⟨t :: ts, List.cons_ne_nil t ts, rfl⟩

/-- The guide tells the place of the hole, and with it what each filling makes of the program. -/
theorem parse (H : Hole) {before : List Token} {finish first : Nat}
    (h : (parseProgram ⟨before ++ H.rest, finish⟩ first).errors = #[]) :
    ∃ p, H.Reopens p ∧ ∀ (F : Filling H) {before' : List Token} (first' : Nat),
      Likes H.name.lexeme before before' → F.Passes p →
        Outline.stmts (parseProgram ⟨before' ++ F.tokens, F.finish⟩ first').value =
            F.cut.stmts 0 (parseProgram ⟨before ++ H.rest, finish⟩ first).value ∧
          (parseProgram ⟨before' ++ F.tokens, F.finish⟩ first').errors = F.errors := by
  obtain ⟨all, c', hrun, hend, hclean, hvalue⟩ := run_of_parseProgram h
  have htracks := tracks_program H (stepBound (before ++ H.rest).length)
    (F := fun x : Filling H × Nat => x.1) (g := Prod.snd) fun _ => Filling.sameStmts_empty
  have hstart := H.ahead_or_at before finish first
  have hclean' : c'.errors.size = (Cursor.start ⟨before ++ H.rest, finish⟩ first).errors.size := by
    rw [hclean]
    rfl
  have hpast : H.Past c' := by
    unfold Past
    rw [hend]
    exact Nat.zero_le _
  have hcross : H.Crosses (.start ⟨before ++ H.rest, finish⟩ first) c' := by
    rcases hstart with hahead | hat
    · exact ⟨hpast, hahead.not_past⟩
    · exact ⟨hpast, hat.not_past⟩
  obtain ⟨p, hopen, hyields⟩ : ∃ p, H.Reopens p ∧ ∀ (x : Filling H × Nat) d,
      x.1.Follows (.start ⟨before ++ H.rest, finish⟩ first) d → x.1.Passes p →
        x.1.Yields x.1.SameStmts (program x.2 #[]) all
          (.start ⟨before ++ H.rest, finish⟩ first) c' d := by
    rcases hstart with hahead | hat
    · obtain ⟨-, htrack⟩ := htracks.off (.inl hahead) hrun hclean'
      obtain ⟨p, hopen, hyields⟩ := htrack fun _ => rfl
      exact ⟨p, hopen hcross, fun x d hfollows hpasses => hyields x d hfollows fun _ => hpasses⟩
    · obtain ⟨-, htrack⟩ := htracks.at hat hrun hclean'
      obtain ⟨p, hopen, hyields⟩ := htrack fun _ => rfl
      exact ⟨p, hopen hcross, fun x d hfollows hpasses => hyields x d hfollows fun _ => hpasses⟩
  refine ⟨p, hopen, fun F before' first' hlike hpasses => ?_⟩
  have hfollows : F.Follows (.start ⟨before ++ H.rest, finish⟩ first)
      (.start ⟨before' ++ F.tokens, F.finish⟩ first') := by
    cases before with
    | nil =>
      cases hlike
      exact .at rfl rfl rfl
    | cons t ts => exact .ahead (List.cons_ne_nil t ts) hlike rfl rfl rfl
  have htold : F.told (.start ⟨before ++ H.rest, finish⟩ first) c' = F.errors := if_pos hcross
  rcases hyields (F, stepBound (before' ++ F.tokens).length) _ hfollows hpasses with
    ⟨d', hstarved⟩ | ⟨b, d', hd', hsame, -, herrors⟩
  · have hreads := reads_start ⟨before' ++ F.tokens, F.finish⟩ first'
    unfold Reads at hreads
    cases (hreads.of_error hstarved).1
  · have houtline := hsame []
    rw [hvalue]
    unfold parseProgram Rule.parse
    simp only at hd'
    rw [hd']
    simp_all [Cut.stmts, Cursor.start]

/-- What is read on without an error behind the hole are declarations. -/
theorem Reopens.derives {p : Place} (h : H.Reopens p) : ∃ n ts ss n' rest,
    H.extra ++ H.behind = ts ++ rest ∧ Derives .declarations p n ts ss n' ∧
      Stops (· ≠ .symbol .rightBrace) rest := by
  obtain ⟨loop, fuel, done, all, finish, n, errors, c', rfl, hrun, hclean⟩ := h
  obtain ⟨ts, ss, n', hsplit, hderives, hover⟩ := loop.derives_of_run H hrun hclean
  exact ⟨n, ts, ss, n', c'.tokens, hsplit, hderives, hover⟩

theorem Reopens.noElse {p : Place} (h : H.Reopens p) :
    Stops (· = .keyword .else_) (H.extra ++ H.behind) := by
  obtain ⟨n, ts, ss, n', rest, hsplit, hderives, hover⟩ := h.derives
  rw [hsplit]
  exact stops_declarations hderives (not_else_of_over hover)

end Hole

/-- Where a declaration may stand: a class without methods, of a name that is not used elsewhere,
can be put there. -/
def MayDeclare (before behind : List Token) : Prop :=
  ∃ (keyword name opening closing : Token) (finish first : Nat),
    keyword.kind = .keyword .class_ ∧ name.kind = .identifier ∧
      opening.kind = .symbol .leftBrace ∧ closing.kind = .symbol .rightBrace ∧
      (∀ t ∈ before ++ behind, t.lexeme ≠ name.lexeme) ∧
      (parseProgram ⟨before ++ keyword :: name :: opening :: closing :: behind, finish⟩
        first).errors = #[]

end Lox.Grammar
