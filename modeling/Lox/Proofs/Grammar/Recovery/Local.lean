import Lox.Proofs.Grammar.Recovery.Fillings
import Lox.Proofs.Grammar.Recovery.Lines

/-! # Recovery is local

A declaration that fails before its semicolon is left out, and nothing else of the
program is read in another way: the statements are those of the program without
it, and the errors are those that are found in the declaration alone. -/

namespace Lox.Grammar

open Rule

section

variable {name : String} {ts ts' : List Token}

theorem likes_of_alike (h : List.Forall₂ Token.Alike ts ts')
    (hother : ∀ t ∈ ts, t.lexeme ≠ name) : Likes name ts ts' := by
  induction h with
  | nil => exact .nil
  | cons halike _ ih =>
    obtain ⟨ht, hts⟩ := List.forall_mem_cons.mp hother
    exact .cons ⟨halike, ht⟩ (ih hts)

theorem stops_of_alike {continues : TokenKind → Prop} (h : List.Forall₂ Token.Alike ts ts')
    (hstops : Stops continues ts) : Stops continues ts' := by
  cases h with
  | nil => trivial
  | cons halike _ =>
    show ¬ continues _
    rw [halike.kind]
    exact hstops

end

/-! ## Fillings without anything behind them -/

namespace Filling

variable {H : Hole} {F : Filling H} {p : Place}

/-- Nothing stands in the hole. -/
theorem passes_nothing (htokens : F.tokens = F.behind) (hadded : F.added = [])
    (herrors : F.errors = #[]) : F.Passes p := by
  intro n
  refine ⟨n, [], hadded.symm, fun loop done errors _ => ?_⟩
  rw [htokens, herrors, Array.append_empty, Array.append_empty]
  exact .refl

/-- A declaration without errors stands in the hole. -/
theorem passes_declaration {good : List Token} {n n' : Nat} {s : Stmt}
    (h : Derives .declaration p n good s n') (htokens : F.tokens = good ++ F.behind)
    (helse : Stops (· = .keyword .else_) F.behind) (hadded : F.added = [Outline.stmt s])
    (herrors : F.errors = #[]) : F.Passes p := by
  intro m
  obtain ⟨s', m', hderives, hs⟩ := h.renumbered m
  refine ⟨m', [s'], ?_, fun loop done errors hplace => ?_⟩
  · rw [hadded, ← hs]
    rfl
  · subst hplace
    have hlist : Derives .declarations loop.place m good [s'] m' := by
      have hsingle := Derives.declarations hderives .noDeclaration
      rwa [List.append_nil] at hsingle
    rw [htokens, herrors, Array.append_empty]
    exact Loop.leads_declarations hlist helse

/-- A declaration that fails before its semicolon stands in the hole. -/
theorem passes_failing {bad : List Token} (hbad : Skippable bad) {semi : Token}
    (hsemi : semi.kind = .symbol .semicolon) {fuel finish : Nat} {c : Cursor}
    (hfails : declaration fuel p (.start ⟨bad ++ [semi], finish⟩ 0) = .ok none c)
    (htokens : F.tokens = bad ++ semi :: F.behind) (hadded : F.added = [])
    (herrors : F.errors = c.errors) : F.Passes p := by
  intro n
  obtain ⟨n', hleft⟩ := hbad.left_out hsemi hfails F.behind F.finish n
  refine ⟨n', [], hadded.symm, fun loop done errors hplace => ?_⟩
  subst hplace
  rw [htokens, herrors, Array.append_empty]
  have hskipped (fuel' : Nat) := hleft fuel' errors
  refine Loop.leads_declaration hskipped ?_ ?_
  · exact List.append_ne_nil_of_right_ne_nil _ (List.cons_ne_nil _ _)
  · obtain _ | ⟨t, ts⟩ := bad
    · exact absurd rfl hbad.some
    · exact (hbad.unmarked t List.mem_cons_self).2.2

end Filling

/-! ## A failing declaration -/

/-- Wherever a declaration may stand, one that fails before its semicolon changes nothing around
it. The statements are those of the text without it, in which there is no error, and the errors are
those that are found when it is parsed alone at its place. The place is one where what is a
declaration there can stand in the text without an error. -/
theorem failing_declaration_is_local {before behind : List Token} (h : MayDeclare before behind) :
    ∃ place : Place,
      (∀ (good : List Token) (fuel finish : Nat) (s : Stmt) (c : Cursor),
        declaration fuel place (.start ⟨good, finish⟩ 0) = .ok (some s) c → c.tokens = [] →
        c.errors = #[] → ∀ finish' first,
          (parseProgram ⟨before ++ (good ++ behind), finish'⟩ first).errors = #[]) ∧
      ∀ (bad : List Token) (semi : Token) (fuel finish : Nat) (c : Cursor),
        Skippable bad → semi.kind = .symbol .semicolon →
        declaration fuel place (.start ⟨bad ++ [semi], finish⟩ 0) = .ok none c →
        ∀ (before₁ behind₁ before₂ behind₂ : List Token) (finish₁ finish₂ first₁ first₂ : Nat),
          List.Forall₂ Token.Alike before before₁ → List.Forall₂ Token.Alike behind behind₁ →
          List.Forall₂ Token.Alike before before₂ → List.Forall₂ Token.Alike behind behind₂ →
          let spoilt := parseProgram ⟨before₁ ++ (bad ++ semi :: behind₁), finish₁⟩ first₁
          let whole := parseProgram ⟨before₂ ++ behind₂, finish₂⟩ first₂
          Outline.stmts spoilt.value = Outline.stmts whole.value ∧ spoilt.errors = c.errors ∧
            whole.errors = #[] := by
  obtain ⟨keyword, name, opening, closing, finish₀, first₀, hkeyword, hname, hopening, hclosing,
    hother, hclean⟩ := h
  obtain ⟨hbefore, hbehind⟩ := List.forall_mem_append.mp hother
  let H : Hole := {
    keyword, name, opening, closing, behind
    extra := []
    count := 0
    isKeyword := hkeyword
    isName := hname
    opens := hopening
    closes := hclosing
    passes := fun _ fuel _ _ _ n _ _ hrun _ => ⟨fuel, [], n, Nat.le_refl _, rfl, hrun⟩ }
  obtain ⟨place, hreopens, hfill⟩ := H.parse hclean
  have hsame : ∀ ts : List Token, List.Forall₂ Token.Alike ts ts :=
    fun ts => List.forall₂_same.mpr fun t _ => ⟨rfl, rfl⟩
  refine ⟨place, ?_, ?_⟩
  · intro good fuel finish s c hgood hend hsilent finish' first
    have hderives := derives_of_declaration hgood hend (by rw [hsilent]; rfl)
    let filled : Filling H := {
      tokens := good ++ behind
      behind
      errors := #[]
      added := [Outline.stmt s]
      finish := finish'
      like := likes_of_alike (hsame behind) hbehind
      noElse := by
        obtain ⟨t, ts, hts, hstarts⟩ := hderives.starts
        obtain rfl : good = t :: ts := hts
        intro helse
        rw [helse] at hstarts
        cases hstarts }
    exact (hfill filled first (likes_of_alike (hsame before) hbefore)
      (Filling.passes_declaration hderives rfl hreopens.noElse rfl rfl)).2
  intro bad semi fuel finish c hbad hsemi hfails before₁ behind₁ before₂ behind₂ finish₁ finish₂
    first₁ first₂ hbefore₁ hbehind₁ hbefore₂ hbehind₂
  -- What stands in the hole: the failing declaration, or nothing.
  let spoilt : Filling H := {
    tokens := bad ++ semi :: behind₁
    behind := behind₁
    errors := c.errors
    added := []
    finish := finish₁
    like := likes_of_alike hbehind₁ hbehind
    noElse := by
      obtain _ | ⟨t, ts⟩ := bad
      · exact absurd rfl hbad.some
      · exact (hbad.first t rfl).1 }
  let whole : Filling H := {
    tokens := behind₂
    behind := behind₂
    errors := #[]
    added := []
    finish := finish₂
    like := likes_of_alike hbehind₂ hbehind
    noElse := stops_of_alike hbehind₂ hreopens.noElse }
  obtain ⟨hvalue₁, herrors₁⟩ := hfill spoilt first₁ (likes_of_alike hbefore₁ hbefore)
    (Filling.passes_failing hbad hsemi hfails rfl rfl rfl)
  obtain ⟨hvalue₂, herrors₂⟩ := hfill whole first₂ (likes_of_alike hbefore₂ hbefore)
    (Filling.passes_nothing rfl rfl rfl)
  exact ⟨hvalue₁.trans hvalue₂.symm, herrors₁, herrors₂⟩

/-- In the body of a loop, `while ( a ) { … break ; }`, a variable without a name is left out, and
the `break` behind it is still in the loop. -/
theorem failing_variable_in_loop :
    let before : List Token := [⟨.keyword .while_, "while", ⟨0, 5⟩⟩,
      ⟨.symbol .leftParen, "(", ⟨6, 7⟩⟩, ⟨.identifier, "a", ⟨8, 9⟩⟩,
      ⟨.symbol .rightParen, ")", ⟨10, 11⟩⟩, ⟨.symbol .leftBrace, "\x7b", ⟨12, 13⟩⟩]
    let bad : List Token := [⟨.keyword .var, "var", ⟨14, 17⟩⟩, ⟨.keyword .nil, "nil", ⟨18, 21⟩⟩]
    let semi : Token := ⟨.symbol .semicolon, ";", ⟨22, 23⟩⟩
    let behind : List Token := [⟨.keyword .break_, "break", ⟨24, 29⟩⟩,
      ⟨.symbol .semicolon, ";", ⟨30, 31⟩⟩, ⟨.symbol .rightBrace, "\x7d", ⟨32, 33⟩⟩]
    let spoilt := parseProgram ⟨before ++ (bad ++ semi :: behind), 33⟩ 0
    let whole := parseProgram ⟨before ++ behind, 33⟩ 0
    Outline.stmts spoilt.value = Outline.stmts whole.value ∧
      spoilt.errors = #[.located (.grammar (.expected "variable name")) ⟨18, 21⟩] ∧
      whole.errors = #[] := by
  intro before bad semi behind
  have hplace : MayDeclare before behind := by
    refine ⟨⟨.keyword .class_, "class", ⟨13, 13⟩⟩, ⟨.identifier, "b", ⟨13, 13⟩⟩,
      ⟨.symbol .leftBrace, "\x7b", ⟨13, 13⟩⟩, ⟨.symbol .rightBrace, "\x7d", ⟨13, 13⟩⟩, 33, 0, rfl,
      rfl, rfl, rfl, by decide, ?_⟩
    decide +kernel
  have hbad : Skippable bad := by
    refine ⟨List.cons_ne_nil _ _, by decide, ?_, by decide⟩
    rintro t ⟨⟩
    decide
  have hsame : ∀ ts : List Token, List.Forall₂ Token.Alike ts ts :=
    fun ts => List.forall₂_same.mpr fun t _ => ⟨rfl, rfl⟩
  obtain ⟨place, -, hlocal⟩ := failing_declaration_is_local hplace
  exact hlocal bad semi 4 23 _ hbad rfl rfl before behind before behind 33 33 0 0 (hsame _) (hsame _)
    (hsame _) (hsame _)

end Lox.Grammar
