import Lox.Proofs.Grammar.Bound
import Lox.Proofs.Grammar.Sound
import Lox.Proofs.Grammar.Stepwise

/-! # Parsing comes to an end

The rules only ever move forward in a text, and never past its end. A declaration
that is not read is skipped, so that at least one token is taken for every
declaration. Hence the rules come to an end in every text, whatever its tokens are,
and a declaration is left out only together with an error. -/

namespace Lox.Grammar

open Rule

variable {α β : Type} {stream : TokenStream} {current : Nat} {c c' c'' : Cursor}

/-- A cursor stands before the token of this number, or at the end of the text, which comes after
all tokens. -/
structure Cursor.StandsAt (stream : TokenStream) (current : Nat) (c : Cursor) : Prop where
  inside : current ≤ stream.tokens.length
  tokens : c.tokens = stream.tokens.drop current
  finish : c.finish = stream.finish

/-- Rules have led on from the cursor before a token: not back, not out of the text, and what had
been noted is still noted. -/
def Cursor.LeadsOn (stream : TokenStream) (current : Nat) (c c' : Cursor) : Prop :=
  ∃ next, current ≤ next ∧ c'.StandsAt stream next ∧ c.errors.toList <+: c'.errors.toList

/-- Wherever in a text a rule is used it leads on, and it has noted an error when it unwinds. -/
def Forward (stream : TokenStream) (r : Rule α) : Prop :=
  ∀ current c, c.StandsAt stream current → Ends r c (fun _ c' => c.LeadsOn stream current c')
    fun halt c' => c.LeadsOn stream current c' ∧ (halt = .unwound → c.errors.size < c'.errors.size)

/-! ## Standing in a text -/

theorem standsAt_start (stream : TokenStream) (first : Nat) :
    (Cursor.start stream first).StandsAt stream 0 :=
  ⟨Nat.zero_le _, List.drop_zero.symm, rfl⟩

namespace Cursor.StandsAt

theorem length (h : c.StandsAt stream current) :
    c.tokens.length = stream.tokens.length - current := by
  rw [h.tokens, List.length_drop]

theorem atEnd (h : c.StandsAt stream current) (hend : c.tokens = []) :
    current = stream.tokens.length := by
  have hlength := h.length
  have hinside := h.inside
  rw [hend, List.length_nil] at hlength
  omega

/-- What is left of the tokens stands later in the text. -/
theorem later (h : c.StandsAt stream current) (htokens : c'.tokens <:+ c.tokens)
    (hfinish : c'.finish = c.finish) : ∃ next, current ≤ next ∧ c'.StandsAt stream next := by
  obtain ⟨taken, htaken⟩ := htokens
  have hdrop : c'.tokens = stream.tokens.drop (current + taken.length) := by
    rw [← List.drop_drop, ← h.tokens, ← htaken, List.drop_left]
  have hlength := congrArg List.length htaken
  rw [List.length_append, h.length] at hlength
  have hinside := h.inside
  exact ⟨current + taken.length, Nat.le_add_right .., by omega, hdrop, hfinish.trans h.finish⟩

theorem leadsOn (h : c.StandsAt stream current) (htokens : c'.tokens <:+ c.tokens)
    (hfinish : c'.finish = c.finish) (herrors : c.errors.toList <+: c'.errors.toList) :
    c.LeadsOn stream current c' := by
  obtain ⟨next, hnext, hc'⟩ := h.later htokens hfinish
  exact ⟨next, hnext, hc', herrors⟩

/-- Nothing has been taken. -/
theorem stays (h : c.StandsAt stream current) : c.LeadsOn stream current c :=
  ⟨current, Nat.le_refl _, h, List.prefix_rfl⟩

/-- One more error has been noted. -/
theorem note (h : c.StandsAt stream current) (error : GrammarError) (span : Span) :
    c.LeadsOn stream current (c.note error span) :=
  h.leadsOn List.suffix_rfl rfl ⟨[_], Array.toList_push.symm⟩

end Cursor.StandsAt

theorem leadsOn_trans {next : Nat} (hnext : current ≤ next)
    (herrors : c.errors.toList <+: c'.errors.toList) (h : c'.LeadsOn stream next c'') :
    c.LeadsOn stream current c'' := by
  obtain ⟨last, hlast, hc'', herrors'⟩ := h
  exact ⟨last, Nat.le_trans hnext hlast, hc'', herrors.trans herrors'⟩

/-! ## All rules -/

theorem forward_bind {r : Rule α} {k : α → Rule β} (h : Forward stream r)
    (hk : ∀ a, Forward stream (k a)) : Forward stream (r >>= k) := by
  intro current c hc
  rw [ends_bind]
  refine (h current c hc).imp ?_ fun _ _ hstopped => hstopped
  intro a c' ⟨next, hnext, hc', herrors⟩
  refine (hk a next c' hc').imp ?_ ?_
  · intro b c'' hleads
    exact leadsOn_trans hnext herrors hleads
  · intro halt c'' ⟨hleads, hunwound⟩
    have hsize : c.errors.size ≤ c'.errors.size := herrors.length_le
    exact ⟨leadsOn_trans hnext herrors hleads, fun h => Nat.lt_of_le_of_lt hsize (hunwound h)⟩

theorem forward_recover {r : Rule α} (h : Forward stream r) : Forward stream (recover r) := by
  intro current c hc
  have hends := h current c hc
  unfold Ends at hends ⊢
  unfold Rule.recover
  cases hr : r c with
  | ok a c' =>
    rw [hr] at hends
    exact hends
  | error halt c' =>
    rw [hr] at hends
    obtain ⟨⟨next, hnext, hc', herrors⟩, hunwound⟩ := hends
    cases halt with
    | unwound =>
      have hskipped : c'.LeadsOn stream next { c' with tokens := resume c'.tokens } :=
        hc'.leadsOn (resume_suffix c'.tokens) rfl List.prefix_rfl
      exact leadsOn_trans hnext herrors hskipped
    | starved => exact ⟨⟨next, hnext, hc', herrors⟩, hunwound⟩

theorem forward_takeIf (select : TokenKind → Option α) : Forward stream (takeIf select) := by
  intro current c hc
  obtain ⟨ts, finish, n, errors⟩ := c
  unfold Ends takeIf
  cases ts with
  | nil => exact hc.stays
  | cons t ts =>
    dsimp only
    cases select t.kind with
    | none => exact hc.stays
    | some a => exact hc.leadsOn (List.suffix_cons t ts) rfl List.prefix_rfl

theorem forward_accept (kind : TokenKind) : Forward stream (accept kind) := by
  intro current c hc
  obtain ⟨ts, finish, n, errors⟩ := c
  unfold Ends accept
  cases ts with
  | nil => exact hc.stays
  | cons t ts =>
    by_cases hkind : t.kind = kind
    · simp only [if_pos hkind]
      exact hc.leadsOn (List.suffix_cons t ts) rfl List.prefix_rfl
    · simp only [if_neg hkind]
      exact hc.stays

/-- Rules lead on wherever they note an error. -/
theorem forward_stepwise (stream : TokenStream) :
    Stepwise (fun _ => True) fun _ r => Forward stream r where
  pure _ _ _ hc := hc.stays
  starve _ _ hc := ⟨hc.stays, fun h => by cases h⟩
  refuse error _ c hc := by
    refine ⟨hc.note error c.here, fun _ => ?_⟩
    simp [Cursor.note]
  note error span _ _ _ hc := hc.note error span
  noteHere error _ c hc := hc.note error c.here
  test _ _ _ hc := hc.stays
  takeIf := forward_takeIf
  accept := forward_accept
  accepted hsome hnone := forward_bind (forward_accept _) fun result => by
    cases result with
    | none => exact hnone
    | some t => exact hsome t trivial
  fresh _ _ hc := hc.leadsOn List.suffix_rfl rfl List.prefix_rfl
  bind := forward_bind
  recover := forward_recover

theorem forward_throughout (stream : TokenStream) (fuel : Nat) :
    Throughout (fun _ r => Forward stream r) fuel :=
  (forward_stepwise stream).throughout fuel

/-! ## The bound on steps -/

theorem agrees_program : ∀ (fuel fuel' : Nat) (done : Array Stmt),
    Agrees (program fuel done) (program fuel' done)
  | 0, _, _ => agrees_starve
  | _ + 1, 0, _ => starve_agrees
  | fuel + 1, fuel' + 1, done => by
    rw [program, program]
    refine agrees_test (.refl _) (((agreeing fuel fuel').declaration .top).bind fun declared => ?_)
    cases declared with
    | none => exact agrees_program fuel fuel' done
    | some s => exact agrees_program fuel fuel' (done.push s)

/-- A rule that has steps enough within two bounds does the same within both. -/
theorem Agrees.eq {r r' : Rule α} (h : Agrees r r') (hr : ∀ d, r c ≠ .error .starved d)
    (hr' : ∀ d, r' c ≠ .error .starved d) : r c = r' c := by
  rcases h c with ⟨d, hd⟩ | ⟨d, hd⟩ | hsame
  · exact absurd hd (hr d)
  · exact absurd hd (hr' d)
  · exact hsame

theorem Reads.not_starved {r : Rule α} {post : α → Cursor → Prop} (h : Reads r c post)
    (d : Cursor) : r c ≠ .error .starved d := by
  intro hstarved
  cases (Ends.of_error h hstarved).1

theorem recover_not_unwound {r : Rule α} (d : Cursor) : recover r c ≠ .error .unwound d := by
  unfold recover
  intro h
  cases hr : r c with
  | ok a c' =>
    rw [hr] at h
    cases h
  | error halt c' =>
    rw [hr] at h
    cases halt <;> cases h

theorem declaration_not_unwound {fuel : Nat} {p : Place} (d : Cursor) :
    declaration fuel p c ≠ .error .unwound d := by
  cases fuel with
  | zero => exact fun h => by cases h
  | succ fuel => exact recover_not_unwound d

/-- A program is never given up: the declarations that do not fit are skipped. -/
theorem program_not_unwound (fuel : Nat) (done : Array Stmt) (c d : Cursor) :
    program fuel done c ≠ .error .unwound d := by
  induction fuel generalizing done c with
  | zero => exact fun h => by cases h
  | succ fuel ih =>
    rw [program]
    by_cases hend : c.atEnd = true
    · rw [show (test Cursor.atEnd >>= _ : Rule (Array Stmt)) c = _ from bind_of_ok rfl, hend]
      exact fun h => by cases h
    · rw [show (test Cursor.atEnd >>= _ : Rule (Array Stmt)) c = _ from bind_of_ok rfl, if_neg hend]
      cases hrule : declaration fuel .top c with
      | ok result c' =>
        rw [bind_of_ok hrule]
        cases result with
        | none => exact ih done c'
        | some s => exact ih (done.push s) c'
      | error halt c' =>
        rw [bind_of_error hrule]
        intro h
        obtain ⟨rfl, -⟩ := EStateM.Result.error.inj h
        exact declaration_not_unwound c' hrule

/-- A program is read to the end of its text, within every bound that is large enough. -/
theorem program_ends (stream : TokenStream) (first : Nat) :
    ∃ all c, c.StandsAt stream stream.tokens.length ∧
      ∀ fuel, stepBound stream.tokens.length ≤ fuel →
        program fuel #[] (.start stream first) = .ok all c := by
  have hreads (fuel : Nat) (hfuel : stepBound stream.tokens.length ≤ fuel) :=
    reads_program fuel #[] (.start stream first) (by
      simp only [Cursor.start, stepBound] at hfuel ⊢
      omega)
  have hsame (fuel : Nat) (hfuel : stepBound stream.tokens.length ≤ fuel) :=
    (agrees_program fuel (stepBound stream.tokens.length) #[]).eq (hreads fuel hfuel).not_starved
      (hreads _ (Nat.le_refl _)).not_starved
  have hforward := (forward_stepwise stream).program (stepBound stream.tokens.length) #[] 0
    (.start stream first) (standsAt_start stream first)
  cases hrule : program (stepBound stream.tokens.length) #[] (.start stream first) with
  | ok all c =>
    obtain ⟨next, -, hc, -⟩ := Ends.of_ok hforward hrule
    obtain ⟨-, hend, -⟩ := Ends.of_ok (hreads _ (Nat.le_refl _)) hrule
    rw [hc.atEnd hend] at hc
    exact ⟨all, c, hc, fun fuel hfuel => (hsame fuel hfuel).trans hrule⟩
  | error halt c =>
    cases halt with
    | unwound => exact absurd hrule (program_not_unwound _ _ _ c)
    | starved => exact absurd hrule ((hreads _ (Nat.le_refl _)).not_starved c)

/-- An expression is read or found wrong, within every bound that is large enough. -/
theorem expression_ends (stream : TokenStream) (first : Nat) :
    ∃ result c current, c.StandsAt stream current ∧
      ∀ fuel, stepBound stream.tokens.length ≤ fuel →
        (∀ d, expression fuel .top (.start stream first) ≠ .error .starved d) ∧
          wholeExpression fuel (.start stream first) = .ok result c := by
  have hreads (fuel : Nat) (hfuel : stepBound stream.tokens.length ≤ fuel) :=
    (sound fuel).expression .top (.start stream first) (by
      simp only [Cursor.start, stepBound] at hfuel ⊢
      omega)
  have hsame (fuel : Nat) (hfuel : stepBound stream.tokens.length ≤ fuel) :
      wholeExpression fuel (.start stream first) =
        wholeExpression (stepBound stream.tokens.length) (.start stream first) := by
    unfold wholeExpression
    rw [((agreeing fuel (stepBound stream.tokens.length)).expression .top).eq
      (hreads fuel hfuel).not_starved (hreads _ (Nat.le_refl _)).not_starved]
  have hstands : ∃ result c current, c.StandsAt stream current ∧
      wholeExpression (stepBound stream.tokens.length) (.start stream first) = .ok result c := by
    have hforward := (forward_throughout stream (stepBound stream.tokens.length)).expression .top 0
      (.start stream first) (standsAt_start stream first)
    have hnoted {c : Cursor} {next : Nat} (hc : c.StandsAt stream next) :
        (if c.atEnd then c else c.note .trailingTokens c.here).StandsAt stream next := by
      split
      · exact hc
      · exact ⟨hc.inside, hc.tokens, hc.finish⟩
    unfold Ends at hforward
    unfold wholeExpression
    cases hrule : expression (stepBound stream.tokens.length) .top (.start stream first) with
    | ok e c =>
      rw [hrule] at hforward
      obtain ⟨next, -, hc, -⟩ := hforward
      exact ⟨_, _, next, hnoted hc, rfl⟩
    | error halt c =>
      rw [hrule] at hforward
      obtain ⟨⟨next, -, hc, -⟩, -⟩ := hforward
      exact ⟨_, _, next, hnoted hc, rfl⟩
  obtain ⟨result, c, current, hc, hrule⟩ := hstands
  exact ⟨result, c, current, hc, fun fuel hfuel =>
    ⟨(hreads fuel hfuel).not_starved, (hsame fuel hfuel).trans hrule⟩⟩

/-- Wherever in a text a declaration is read, at least one token is taken, if there is one, and an
error is noted if there is no result. -/
theorem declaration_moves_on (p : Place) (hc : c.StandsAt stream current) :
    ∃ result c' next, c'.StandsAt stream next ∧ current ≤ next ∧
      (current < stream.tokens.length → current < next) ∧
      c.errors.toList <+: c'.errors.toList ∧
      (result = none → c.errors.size < c'.errors.size) ∧
      ∀ fuel, declaration fuel p c = .ok result c' ∨
        fuel < 40 * c.tokens.length + 21 ∧ ∃ d, declaration fuel p c = .error .starved d := by
  let bound := 40 * c.tokens.length + 21
  have hreads := (sound bound).declaration p c (Nat.le_refl _)
  have hforward := (forward_throughout stream bound).declaration p current c hc
  cases hrule : declaration bound p c with
  | error halt c' =>
    cases halt with
    | unwound => exact absurd hrule (declaration_not_unwound c')
    | starved => exact absurd hrule (hreads.not_starved c')
  | ok result c' =>
    obtain ⟨next, hnext, hc', herrors⟩ := Ends.of_ok hforward hrule
    obtain ⟨-, hresult⟩ := Ends.of_ok hreads hrule
    have hshorter : 0 < c.tokens.length → c'.tokens.length < c.tokens.length := by
      intro hsome
      cases result with
      | none => exact hresult.2 hsome
      | some s => exact hresult.1
    rw [hc.length, hc'.length] at hshorter
    refine ⟨result, c', next, hc', hnext, fun hinside => by omega, herrors, ?_, fun fuel => ?_⟩
    · rintro rfl
      exact hresult.1
    · rcases ((agreeing bound fuel).declaration p).of_ok hrule with hsame | hstarved
      · exact .inl hsame
      · refine .inr ⟨Nat.lt_of_not_le fun henough => ?_, hstarved⟩
        obtain ⟨d, hd⟩ := hstarved
        exact ((sound fuel).declaration p c henough).not_starved d hd

/-- **Parsing makes progress in every text.** Whatever its tokens are, a program is read to the end
of the text, and an expression is read or found wrong, within every bound on steps from the one of
`stepBound` on. No rule, wherever in the text and with whatever bound it is used, goes back or leaves
the text. Where a declaration is read, at least one token is taken if there is one, and it has a
result or has noted an error; it runs out of steps only within a bound that is too small. -/
theorem parsing_makes_progress (stream : TokenStream) (first : Nat) :
    (∃ all c, c.StandsAt stream stream.tokens.length ∧
      parseProgram stream first = ⟨all.toList, c.errors, c.nextId⟩ ∧
      ∀ fuel, stepBound stream.tokens.length ≤ fuel →
        program fuel #[] (.start stream first) = .ok all c) ∧
    (∃ result c current, c.StandsAt stream current ∧
      parseExpression stream first = ⟨result, c.errors, c.nextId⟩ ∧
      ∀ fuel, stepBound stream.tokens.length ≤ fuel →
        (∀ d, expression fuel .top (.start stream first) ≠ .error .starved d) ∧
          wholeExpression fuel (.start stream first) = .ok result c) ∧
    (∀ fuel, Throughout (fun _ r => Forward stream r) fuel) ∧
    ∀ (p : Place) (current : Nat) (c : Cursor), c.StandsAt stream current →
      ∃ result c' next, c'.StandsAt stream next ∧ current ≤ next ∧
        (current < stream.tokens.length → current < next) ∧
        c.errors.toList <+: c'.errors.toList ∧
        (result = none → c.errors.size < c'.errors.size) ∧
        ∀ fuel, declaration fuel p c = .ok result c' ∨
          fuel < 40 * c.tokens.length + 21 ∧ ∃ d, declaration fuel p c = .error .starved d := by
  obtain ⟨all, c, hc, hprogram⟩ := program_ends stream first
  obtain ⟨result, c', current, hc', hexpression⟩ := expression_ends stream first
  refine ⟨⟨all, c, hc, ?_, hprogram⟩, ⟨result, c', current, hc', ?_, hexpression⟩,
    forward_throughout stream, fun p current c hc => declaration_moves_on p hc⟩
  · simp only [parseProgram, parse, hprogram _ (Nat.le_refl _)]
  · simp only [parseExpression, parse, (hexpression _ (Nat.le_refl _)).2]

/-- At the `)` that a text begins with, nothing is read, the `)` is skipped, and an error tells so. -/
theorem parsing_makes_progress_stray_paren :
    let stream : TokenStream := ⟨[⟨.symbol .rightParen, ")", ⟨0, 1⟩⟩, ⟨.keyword .fun_, "fun", ⟨1, 4⟩⟩], 4⟩
    let c : Cursor := .start stream 0
    c.StandsAt stream 0 ∧ ∃ result c' next, c'.StandsAt stream next ∧ 0 < next ∧
      (result = none → c.errors.size < c'.errors.size) ∧
      declaration (40 * c.tokens.length + 21) .top c = .ok result c' := by
  intro stream c
  have hc : c.StandsAt stream 0 := standsAt_start stream 0
  obtain ⟨-, -, -, hdeclaration⟩ := parsing_makes_progress stream 0
  obtain ⟨result, c', next, hc', -, hmoved, -, herrors, hfuel⟩ := hdeclaration .top 0 c hc
  refine ⟨hc, result, c', next, hc', hmoved (by decide), herrors, ?_⟩
  rcases hfuel (40 * c.tokens.length + 21) with hrule | ⟨hsmall, -⟩
  · exact hrule
  · exact absurd hsmall (Nat.lt_irrefl _)

end Lox.Grammar
