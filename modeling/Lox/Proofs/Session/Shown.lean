import Lox.Proofs.Grammar.Marks
import Lox.Proofs.Grammar.Progress
import Lox.Proofs.Scope.Elsewhere
import Lox.Proofs.Scope.Violations
import Lox.Proofs.Session.Blame
import Lox.Proofs.Token.Slices

/-! # Where the errors of a parse stand

An error is noted at a token, or at the end of the text where no token is left.
So what holds of the spans of all tokens and of the end of the text holds of the
spans of all errors. -/

namespace Lox.Grammar

open Rule

variable {good : Span → Prop} {α β : Type} {c : Cursor}

/-- A diagnostic tells of an error of the grammar at a good span. -/
def Noted (good : Span → Prop) (d : Diagnostic) : Prop :=
  ∃ error span, d = .located (.grammar error) span ∧ good span

/-- What is ahead and what has been noted stands at good spans. -/
structure Cursor.Sited (good : Span → Prop) (c : Cursor) : Prop where
  tokens : Grammar.Sited good c.tokens
  finish : good (.point c.finish)
  errors : ∀ d ∈ c.errors, Noted good d

namespace Cursor.Sited

theorem here (h : c.Sited good) : good c.here := by
  unfold Cursor.here
  split
  · next t rest htokens =>
    exact h.tokens t (htokens ▸ List.mem_cons_self ..)
  · exact h.finish

theorem note (h : c.Sited good) (error : GrammarError) {span : Span} (hspan : good span) :
    (c.note error span).Sited good where
  tokens := h.tokens
  finish := h.finish
  errors d hd := by
    rcases Array.mem_push.mp hd with hd | rfl
    · exact h.errors d hd
    · exact ⟨error, span, rfl, hspan⟩

/-- Some tokens have been taken. -/
theorem taken (h : c.Sited good) {rest : List Token} (hrest : rest <:+ c.tokens) :
    { c with tokens := rest }.Sited good where
  tokens t ht := h.tokens t (hrest.subset ht)
  finish := h.finish
  errors := h.errors

end Cursor.Sited

/-- A rule notes errors at good spans only. -/
def Siting (good : Span → Prop) (r : Rule α) : Prop :=
  ∀ c, c.Sited good → Ends r c (fun _ c' => c'.Sited good) fun _ c' => c'.Sited good

theorem siting_bind {r : Rule α} {k : α → Rule β} (h : Siting good r)
    (hk : ∀ a, Siting good (k a)) : Siting good (r >>= k) := by
  intro c hc
  rw [ends_bind]
  exact (h c hc).imp (fun a c' hc' => hk a c' hc') fun _ _ hstopped => hstopped

theorem siting_takeIf (select : TokenKind → Option α) : Siting good (takeIf select) := by
  intro c hc
  unfold Ends takeIf
  cases htokens : c.tokens with
  | nil => exact hc
  | cons t rest =>
    dsimp only
    cases select t.kind with
    | none => exact hc
    | some a => exact hc.taken (htokens ▸ List.suffix_cons t rest)

/-- A token that is taken stands at a good span. -/
theorem siting_accepted {kind : TokenKind} {k : Option Token → Rule β}
    (hsome : ∀ t, good t.span → Siting good (k (some t))) (hnone : Siting good (k none)) :
    Siting good (accept kind >>= k) := by
  intro c hc
  rw [ends_bind]
  unfold Ends accept
  cases htokens : c.tokens with
  | nil => exact hnone c hc
  | cons t rest =>
    by_cases hkind : t.kind = kind
    · simp only [if_pos hkind]
      have ht : good t.span := hc.tokens t (htokens ▸ List.mem_cons_self ..)
      exact hsome t ht _ (hc.taken (htokens ▸ List.suffix_cons t rest))
    · simp only [if_neg hkind]
      exact hnone c hc

theorem siting_accept (kind : TokenKind) : Siting good (accept kind) := by
  have hpure (result : Option Token) : Siting good (pure result) := fun _ hc => hc
  have haccepted : Siting good (accept kind >>= pure) :=
    siting_accepted (fun t _ => hpure (some t)) (hpure none)
  rwa [bind_pure] at haccepted

theorem siting_recover {r : Rule α} (h : Siting good r) : Siting good (recover r) := by
  intro c hc
  have hends := h c hc
  unfold Ends at hends ⊢
  unfold Rule.recover
  cases hr : r c with
  | ok a c' =>
    rw [hr] at hends
    exact hends
  | error halt c' =>
    rw [hr] at hends
    cases halt with
    | unwound => exact hends.taken (resume_suffix c'.tokens)
    | starved => exact hends

theorem siting_stepwise (good : Span → Prop) : Stepwise good fun _ r => Siting good r where
  pure _ _ hc := hc
  starve _ hc := hc
  refuse error _ hc := hc.note error hc.here
  note error _ hspan _ hc := hc.note error hspan
  noteHere error _ hc := hc.note error hc.here
  test _ _ hc := hc
  takeIf := siting_takeIf
  accept := siting_accept
  accepted := siting_accepted
  fresh _ hc := ⟨hc.tokens, hc.finish, hc.errors⟩
  bind := siting_bind
  recover := siting_recover

theorem siting_wholeExpression (good : Span → Prop) (fuel : Nat) :
    Siting good (wholeExpression fuel) := by
  intro c hc
  have hends := ((siting_stepwise good).throughout fuel).expression .top c hc
  have hnoted {c : Cursor} (hc : c.Sited good) :
      (if c.atEnd then c else c.note .trailingTokens c.here).Sited good := by
    split
    · exact hc
    · exact hc.note _ hc.here
  unfold Ends at hends ⊢
  unfold wholeExpression
  cases hrule : expression fuel .top c with
  | ok e c' =>
    rw [hrule] at hends
    exact hnoted hends
  | error halt c' =>
    rw [hrule] at hends
    exact hnoted hends

variable {stream : TokenStream} (htokens : Sited good stream.tokens)
  (hfinish : good (.point stream.finish))
include htokens hfinish

theorem sited_start (first : Nat) : (Cursor.start stream first).Sited good :=
  ⟨htokens, hfinish, fun _ hd => absurd hd (Array.not_mem_empty _)⟩

theorem Siting.parse {r : Rule α} (h : Siting good r) (default_ : α) (first : Nat) :
    ∀ d ∈ (r.parse default_ stream first).errors, Noted good d := by
  have hends := h _ (sited_start htokens hfinish first)
  unfold Ends at hends
  unfold Rule.parse
  cases hrule : r (.start stream first) with
  | ok a c =>
    rw [hrule] at hends
    exact hends.errors
  | error halt c =>
    rw [hrule] at hends
    exact hends.errors

/-- Every error in a program is noted at a token or at the end. -/
theorem noted_parseProgram (first : Nat) :
    ∀ d ∈ (parseProgram stream first).errors, Noted good d :=
  ((siting_stepwise good).program _ #[]).parse htokens hfinish #[] first

theorem noted_parseExpression (first : Nat) :
    ∀ d ∈ (parseExpression stream first).errors, Noted good d :=
  (siting_wholeExpression good _).parse htokens hfinish none first

end Lox.Grammar

/-! # Where errors of the text are shown

Faults of reading stand where the characters do, errors of the grammar at tokens
or at the end, and errors of the scopes at spans of the tree, which mark tokens.
So all of them fit the text that they are told of, and are shown in it where
they start. -/

namespace Lox

/-- A diagnostic tells of an error of a text at a place of this text. -/
def Diagnostic.Placed (source : String) (d : Diagnostic) : Prop :=
  ∃ cause span, d = .located cause span ∧ cause.phase ≠ .running ∧ span.Fits source

theorem Marks.fits {source : String} {span : Span} (h : Marks source span) : span.Fits source := by
  obtain ⟨a, ha, b, hb, rfl⟩ := h
  exact (Lexer.token_fits ha).cover (Lexer.token_fits hb)

/-! ## Reading -/

section

variable {source : String} {first : Nat} {d : Diagnostic}

theorem placed_of_fault (h : d ∈ (Lexer.scan source).faults) : d.Placed source := by
  obtain ⟨error, span, rfl, hfits⟩ := Lexer.fault_fits h
  exact ⟨_, span, rfl, nofun, hfits⟩

theorem placed_of_noted (h : Grammar.Noted (Span.Fits · source) d) : d.Placed source := by
  obtain ⟨error, span, rfl, hfits⟩ := h
  exact ⟨_, span, rfl, nofun, hfits⟩

theorem Reading.placed {α : Type} {parse : TokenStream → Nat → Grammar.Parsed α}
    (hstatic : ∀ e ∈ (parse (Lexer.scan source).tokens first).errors, e.isStatic = true)
    (hnoted : ∀ e ∈ (parse (Lexer.scan source).tokens first).errors,
      Grammar.Noted (Span.Fits · source) e)
    (h : d ∈ (Reading.of parse source first).report.static) : d.Placed source := by
  have hreport : (Reading.of parse source first).report.static =
      #[] ++ (Lexer.scan source).faults ++ (parse (Lexer.scan source).tokens first).errors := by
    rw [Reading.of, Report.addAll_static hstatic, Report.addAll_static (faults_static source)]
    rfl
  rw [hreport, Array.empty_append] at h
  rcases Array.mem_append.mp h with hfault | herror
  · exact placed_of_fault hfault
  · exact placed_of_noted (hnoted d herror)

theorem sited_tokens (source : String) :
    Grammar.Sited (Span.Fits · source) (Lexer.scan source).tokens.tokens :=
  fun _ => Lexer.token_fits

theorem readProgram_placed (h : d ∈ (readProgram source first).report.static) : d.Placed source :=
  Reading.placed (parseProgram_static first (Lexer.scan source).tokens).2
    (Grammar.noted_parseProgram (sited_tokens source) (Lexer.finish_fits source) first) h

theorem readExpression_placed (h : d ∈ (readExpression source first).report.static) :
    d.Placed source :=
  Reading.placed (parseExpression_static first (Lexer.scan source).tokens).2
    (Grammar.noted_parseExpression (sited_tokens source) (Lexer.finish_fits source) first) h

end

/-! ## Walking -/

namespace Scope

variable {source : String} {d : Diagnostic}

/-- What a tree without strays makes a walk report marks tokens. -/
theorem placed_of_still {w : Walk} {os : List Occurrence} (hreports : w.errors = reports os)
    (hstill : w = Respan.walk (strays source) #[] w) (h : d ∈ w.errors) : d.Placed source := by
  have herrors : w.errors.map (Diagnostic.respan (strays source)) = w.errors.map id := by
    rw [Array.map_id]
    exact (congrArg Walk.errors hstill).symm
  have hsame := Array.map_inj_left.mp herrors d h
  rw [hreports] at h
  obtain ⟨o, -, hreport⟩ := List.mem_filterMap.mp (List.mem_toArray.mp h)
  obtain ⟨⟨error, span⟩, -, rfl⟩ := Option.map_eq_some_iff.mp hreport
  have hspan : strays source span = span := (Diagnostic.located.inj hsame).2
  exact ⟨_, span, rfl, nofun, (strays_eq_iff.mp hspan).fits⟩

theorem walk_start (σ : Span → Span) : Respan.walk σ #[] .start = .start := by
  simp [Respan.walk, Walk.start]

theorem placed_of_program {ss : List Stmt} (hstill : Respan.stmts (strays source) ss = ss)
    (h : d ∈ (program ss).errors) : d.Placed source := by
  have hwalk := Respan.walk_stmts (strays source) #[] ss .start
  rw [hstill, walk_start] at hwalk
  have hreports : (program ss).errors = reports (Occurrences.stmts [] ss) :=
    Eq.trans (reports_stmts ss .start) (Array.empty_append ..)
  exact placed_of_still hreports hwalk h

theorem placed_of_wholeExpression {e : Expr} (hstill : Respan.expr (strays source) e = e)
    (h : d ∈ (wholeExpression e).errors) : d.Placed source := by
  have hwalk := Respan.walk_expr (strays source) #[] e .start
  rw [hstill, walk_start] at hwalk
  exact placed_of_still (reports_wholeExpression e) hwalk h

end Scope

/-! ## Answers -/

namespace Draft

/-- All that is wrong with the text of a draft has a place in it. -/
structure Placed (source : String) (draft : Draft) : Prop where
  report : ∀ d ∈ draft.report.static, d.Placed source
  walk : draft.report.hadError = false → ∀ walk, draft.walk = some walk →
    ∀ d ∈ walk.errors, d.Placed source

theorem placed (fuel : Nat) (input : Input) (first : Nat) :
    (input.draft fuel first).Placed input.source := by
  cases input with
  | program source =>
    refine ⟨fun d => readProgram_placed, fun hread walk hwalk d => ?_⟩
    obtain rfl := Option.some.inj hwalk
    exact Scope.placed_of_program (still_readProgram hread)
  | expression source =>
    refine ⟨fun d => readExpression_placed, fun hread walk hwalk d => ?_⟩
    obtain ⟨e, he, rfl⟩ := Option.map_eq_some_iff.mp hwalk
    exact Scope.placed_of_wholeExpression (still_readExpression hread he)

end Draft

namespace Session

variable {s s' : Session} {fuel : Nat} {input : Input} {a : Answer} {d : Diagnostic}

theorem placed_of_answer (hanswer : s.answer fuel input = some (a, s'))
    (hd : d ∈ a.faults.static) : d.Placed input.source := by
  have hfair := draft_fair fuel s.nextId input
  have hplaced := Draft.placed fuel input s.nextId
  rw [answer_eq_settle] at hanswer
  cases settled_of_settle hanswer with
  | unread =>
    rw [hfair.refuse] at hd
    exact hplaced.report d hd
  | @unscoped walk hwalk hread =>
    rw [hfair.refuse, Report.addAll_static (hfair.static walk hwalk)] at hd
    rcases Array.mem_append.mp hd with hd | hd
    · exact hplaced.report d hd
    · exact hplaced.walk hread walk hwalk d hd
  | done hwalk hread hscope hdone =>
    have hfine : a.faults.hadError = false := (done_fine hfair hwalk hread hscope hdone).1
    have hempty : a.faults.static = #[] := by simpa [Report.hadError] using hfine
    rw [hempty] at hd
    exact absurd hd (Array.not_mem_empty d)

/-- **Static diagnostics point at the right place.** Whatever a session is given, a static diagnostic
of its answer has a span that starts and stops between two characters of the text, and it is shown
with the line on which the span starts, with the number of this line, and with a caret that stands as
many characters from the start of the line as the span does. -/
theorem static_errors_shown_in_place (hanswer : s.answer fuel input = some (a, s'))
    (hd : d ∈ a.faults.static) :
    ∃ cause span, d = .located cause span ∧ cause.phase ≠ .running ∧ span.Fits input.source ∧
      ∃ spot : Text.Spot input.source span.start,
        span.location input.source = ⟨spot.number, Text.width spot.front⟩ ∧
        Text.lineStart input.source (spot.number - 1) + (span.location input.source).column =
          span.start ∧
        d.display input.source = spot.shown d.message := by
  obtain ⟨cause, span, rfl, hphase, hfits⟩ := placed_of_answer hanswer hd
  obtain ⟨spot, hlocation, hexcerpt⟩ := Diagnostic.excerpt_of_fits hfits cause.message
  refine ⟨cause, span, rfl, hphase, hfits, spot, hlocation, ?_, hexcerpt⟩
  rw [hlocation, Text.Spot.number, Nat.add_sub_cancel_left]
  exact spot.start_add

/-- The second line has a character of two bytes before the error and two carriage returns at its
end. -/
theorem static_errors_shown_in_place_behind_umlaut :
    let source := "print 1;\r\nprint \"ü\" = 2;\r\r\n"
    let d : Diagnostic := .located (.grammar .invalidAssignmentTarget) ⟨21, 22⟩
    ∃ a s', (start .reliable fun _ => 0).answer 30 (.program source) = some (a, s') ∧
      d ∈ a.faults.static ∧
      (∃ cause span, d = .located cause span ∧ cause.phase ≠ .running ∧ span.Fits source ∧
        ∃ spot : Text.Spot source span.start,
          span.location source = ⟨spot.number, Text.width spot.front⟩ ∧
          Text.lineStart source (spot.number - 1) + (span.location source).column = span.start ∧
          d.display source = spot.shown d.message) ∧
      d.display source = "Error: Invalid assignment target.\n\n" ++
        "    2 | print \"ü\" = 2;\n" ++ "                  ^-- Here.\n" := by
  intro source d
  have hfaults : ((start .reliable fun _ => 0).answer 30 (.program source)).map
      (fun told => told.1.faults.static) = some #[d] := by
    decide +kernel
  obtain ⟨⟨a, s'⟩, hanswer, hstatic⟩ := Option.map_eq_some_iff.mp hfaults
  have hd : d ∈ a.faults.static := by
    rw [show a.faults.static = #[d] from hstatic]
    exact Array.mem_singleton.mpr rfl
  exact ⟨a, s', hanswer, hd, static_errors_shown_in_place hanswer hd, by decide +kernel⟩

end Session
end Lox
