import Lox.Diagnostic.Report
import Lox.Proofs.Grammar.Recovery.Boundaries
import Lox.Proofs.Grammar.Recovery.Local
import Lox.Proofs.Grammar.Recovery.Unfinished

/-! # One missing semicolon

Where a statement lacks its semicolon, recovery skips the token that stands there
instead, and what follows up to a semicolon or to a keyword with which a statement
starts. It may stop within the statement that follows. If whole statements are left
of that one, there is no other error, and no other statement is lost. -/

namespace Lox.Grammar

open Rule

variable {p q : Place} {n n' m m' : Nat} {ts us vs : List Token} {s : Stmt} {ss : List Stmt}

/-! ## Declarations in sequence -/

theorem Derives.declarations_append {k : Nat} {ss' : List Stmt}
    (h : Derives .declarations p n ts ss k) (h' : Derives .declarations p k us ss' n') :
    Derives .declarations p n (ts ++ us) (ss ++ ss') n' := by
  induction ss generalizing ts n with
  | nil =>
    cases h
    exact h'
  | cons s ss ih =>
    cases h with
    | @declarations _ _ xs _ _ ys _ _ first rest =>
      rw [List.append_assoc]
      exact .declarations first (ih rest)

theorem Derives.singleton (h : Derives .declaration p n ts s n') :
    Derives .declarations p n ts [s] n' := by
  have hlist := Derives.declarations h .noDeclaration
  rwa [List.append_nil] at hlist

theorem Derives.declaration_of_singleton (h : Derives .declarations p n ts [s] n') :
    Derives .declaration p n ts s n' := by
  cases h with
  | declarations first rest =>
    cases rest
    rwa [List.append_nil]

/-- Declarations that are known by themselves are so within a longer list. -/
theorem Derives.known {ss₀ : List Stmt} (h : Derives .declarations p n (ts ++ us) ss n')
    (h₀ : Derives .declarations q m ts ss₀ m') (hus : Stops (· = .keyword .else_) us) :
    ∃ more ss' k, ss = more ++ ss' ∧ more.length = ss₀.length ∧
      Derives .declarations p n ts more k ∧ Derives .declarations p k us ss' n' := by
  have heq : (ts ++ us) ++ [] = ts ++ us := List.append_nil _
  obtain ⟨us', more, ss', k, hts, -, hss, hmore, hfirst, hrest⟩ := h.split h₀ heq trivial hus
  obtain rfl := List.append_cancel_left hts
  exact ⟨more, ss', k, hss, hmore, hfirst, hrest⟩

/-- Declarations at any place are declarations at the place that asks the least. -/
theorem Derives.leniently (h : Derives .declarations p n ts ss n') (k : Nat) :
    ∃ ss' k', Derives .declarations .lenient k ts ss' k' ∧ ss'.length = ss.length := by
  obtain ⟨ss', k', h', hss⟩ := (h.admitted (Place.lenient_admits p)).renumbered_list k
  refine ⟨ss', k', h', ?_⟩
  have hlength := congrArg List.length hss
  rwa [Outline.stmts_eq_map, Outline.stmts_eq_map, List.length_map, List.length_map] at hlength

/-! ## Holes before declarations -/

/-- A list of declarations that is read on without an error begins with those that are known. -/
theorem Loop.passes (H : Hole) (loop : Loop) {ss₀ : List Stmt} {behind : List Token}
    (h₀ : Derives .declarations q m ts ss₀ m') (helse : Stops (· = .keyword .else_) behind)
    {fuel finish : Nat} {done all : Array Stmt} {errors : Array Diagnostic} {c' : Cursor}
    (hrun : loop.run fuel done ⟨ts ++ behind, finish, n, errors⟩ = .ok all c')
    (hclean : c'.errors.size = errors.size) : ∃ (fuel' : Nat) (more : List Stmt) (n' : Nat),
      fuel' ≤ fuel ∧ more.length = ss₀.length ∧
        loop.run fuel' (done ++ more.toArray) ⟨behind, finish, n', errors⟩ = .ok all c' := by
  obtain ⟨us, ss, k, hsplit, hderives, hover⟩ := loop.derives_of_run H hrun hclean
  obtain ⟨-, more, -, k', -, -, -, hmore, hfirst, -⟩ := hderives.split h₀ hsplit.symm hover helse
  have hleads : loop.Leads done ⟨ts ++ behind, finish, n, errors⟩ (done ++ more.toArray)
      ⟨behind, finish, k', errors⟩ := Loop.leads_declarations hfirst helse
  rcases hleads fuel with ⟨d, hstarved⟩ | ⟨fuel', hle, hstep⟩
  · cases hstarved.symm.trans hrun
  · exact ⟨fuel', more, k', hle, hmore, hstep.symm.trans hrun⟩

/-- Where a declaration may stand before others there is a hole before them. -/
theorem MayDeclare.hole {before behind : List Token} {ss₀ : List Stmt}
    (h : MayDeclare before (ts ++ behind)) (h₀ : Derives .declarations q m ts ss₀ m')
    (helse : Stops (· = .keyword .else_) behind) : ∃ H : Hole, H.extra = ts ∧ H.behind = behind ∧
      H.count = ss₀.length ∧ (∀ t ∈ before ++ (ts ++ behind), t.lexeme ≠ H.name.lexeme) ∧
        ∃ finish first, (parseProgram ⟨before ++ H.rest, finish⟩ first).errors = #[] := by
  obtain ⟨keyword, name, opening, closing, finish, first, hkeyword, hname, hopening, hclosing,
    hother, hclean⟩ := h
  let bare : Hole := {
    keyword, name, opening, closing
    extra := []
    count := 0
    behind := ts ++ behind
    isKeyword := hkeyword
    isName := hname
    opens := hopening
    closes := hclosing
    passes := fun _ fuel _ _ _ n _ _ hrun _ => ⟨fuel, [], n, Nat.le_refl _, rfl, hrun⟩ }
  let H : Hole := { bare with
    extra := ts
    count := ss₀.length
    behind
    passes := fun loop _ _ _ _ _ _ _ hrun hsize => loop.passes bare h₀ helse hrun hsize }
  exact ⟨H, rfl, rfl, rfl, hother, finish, first, hclean⟩

/-! ## Statements that a semicolon ends -/

/-- An expression, a `print`, a variable or a `return`. -/
def EndsInSemicolon : Stmt → Prop
  | .expression _ => True
  | .print _ => True
  | .var _ _ => True
  | .return_ _ _ => True
  | _ => False

theorem Derives.simple (h : Derives .declaration p n ts s n') (hs : EndsInSemicolon s) :
    ∃ q, Simple q n ts := by
  cases h with
  | classDeclaration h => cases h; exact hs.elim
  | function => exact hs.elim
  | varDeclaration h => exact ⟨p, .var h⟩
  | statement h =>
    cases h with
    | nested _ h =>
      cases h with
      | expressionStatement h => exact ⟨_, .expression h⟩
      | printStatement h => exact ⟨_, .print h⟩
      | returnStatement h => exact ⟨_, .return_ h⟩
      | ifStatement h | whileStatement h | breakStatement h => cases h <;> exact hs.elim
      | block => exact hs.elim
      | forStatement h =>
        cases h with
        | @for_ _ _ _ _ _ i => cases i <;> exact hs.elim

theorem Simple.length (h : Simple p n ts) : 2 ≤ ts.length := by
  cases h with
  | expression h =>
    cases h with
    | terminated value _ =>
      obtain ⟨t, us, rfl, -⟩ := value.starts
      simp
  | print h => cases h; simp
  | var h => cases h <;> simp
  | return_ h => cases h; simp

/-- Behind a `fun` with which a declaration starts comes no keyword. -/
theorem Derives.behind_fun (h : Derives .declaration p n ts s n') {f t : Token} {us : List Token}
    (hts : ts ++ vs = f :: t :: us) (hf : f.kind = .keyword .fun_) :
    startsStatement t.kind = false := by
  obtain ⟨k, ws, rfl, -⟩ := h.starts
  obtain ⟨rfl, hrest⟩ := List.cons.inj hts
  cases h.headed with
  | var keyword | print _ keyword | return_ _ keyword => cases hf.symm.trans keyword
  | other kind => simp [hf] at kind
  | function _ named =>
    obtain ⟨u, xs, rfl, hu⟩ := named
    obtain ⟨rfl, -⟩ := List.cons.inj hrest
    rw [hu]
    rfl
  | expression _ h =>
    obtain ⟨k', xs, heq, -, hparen⟩ := h.starts
    obtain ⟨rfl, rfl⟩ := List.cons.inj heq
    obtain ⟨l, ys, rfl, hl⟩ := hparen hf
    obtain ⟨rfl, -⟩ := List.cons.inj hrest
    rw [hl]
    rfl

/-- A statement of a list that has lost its semicolon: what follows the statement, what a recovery
from there leaves of that, and what is behind it. -/
structure Lapse (before body : List Token) (semi : Token) (next left behind : List Token) :
    Prop where
  /-- The statement is an expression, a `print`, a variable or a `return`. -/
  statement : ∃ p n s n', EndsInSemicolon s ∧ Derives .declaration p n (body ++ [semi]) s n'
  /-- One statement follows, or the text is at its end. -/
  following : (∃ p n s n', Derives .declaration p n next s n') ∨ next = [] ∧ behind = []
  /-- What follows cannot go on with the statement. -/
  severed : Severed body (next ++ behind)
  /-- Recovery stops where whole statements are left of what follows. -/
  resumes : resume (next ++ behind) = left ++ behind
  leaves : ∃ p n ss n', Derives .declarations p n left ss n'
  noElse : Stops (· = .keyword .else_) behind
  /-- The statements stand in a list of declarations, and so may the ones that are left. -/
  place : MayDeclare before (body ++ semi :: (next ++ (left ++ behind)))

/-! ## Both texts as fillings -/

section

variable {before body next left behind : List Token} {semi : Token}

/-- What stands in the list where a semicolon is missing, read at the place of the list. -/
structure Lapse.At (body : List Token) (semi : Token) (next left : List Token) (place : Place)
    (s : Stmt) (ss rest : List Stmt) : Prop where
  statement : ∃ k k', Derives .declaration place k (body ++ [semi]) s k'
  following : ∃ k k', Derives .declarations place k next ss k'
  one : ss.length ≤ 1
  remaining : ∃ k k', Derives .declarations place k left rest k'

/-- The list falls apart into the statement, the one that follows, and what recovery leaves. -/
theorem Lapse.known (h : Lapse before body semi next left behind) :
    ∃ s following remaining k k₁ k₂, Derives .declaration .lenient 0 (body ++ [semi]) s k ∧
      Derives .declarations .lenient k next following k₁ ∧ following.length ≤ 1 ∧
        Derives .declarations .lenient k₁ left remaining k₂ := by
  obtain ⟨p, n, s, n', -, hs⟩ := h.statement
  obtain ⟨s', k, hs', -⟩ := (hs.admitted (Place.lenient_admits p)).renumbered 0
  obtain ⟨following, k₁, hfollowing, hone⟩ : ∃ following k₁,
      Derives .declarations .lenient k next following k₁ ∧ following.length ≤ 1 := by
    rcases h.following with ⟨q, m, t, m', ht⟩ | ⟨rfl, -⟩
    · obtain ⟨ts, k₁, hts, hlength⟩ := ht.singleton.leniently k
      exact ⟨ts, k₁, hts, Nat.le_of_eq hlength⟩
    · exact ⟨[], k, .noDeclaration, Nat.zero_le 1⟩
  obtain ⟨q, m, ss, m', hss⟩ := h.leaves
  obtain ⟨remaining, k₂, hremaining, -⟩ := hss.leniently k₁
  exact ⟨s', following, remaining, k, k₁, k₂, hs', hfollowing, hone, hremaining⟩

/-- No `else` stands behind the statement that has lost its semicolon. -/
theorem Lapse.noElse_next (h : Lapse before body semi next left behind) (us : List Token)
    (hus : Stops (· = .keyword .else_) us) : Stops (· = .keyword .else_) (next ++ us) := by
  rcases h.following with ⟨q, m, t, m', ht⟩ | ⟨rfl, -⟩
  · exact stops_declarations ht.singleton hus
  · exact hus

theorem Lapse.at_place (h : Lapse before body semi next left behind) {place : Place}
    {us rest : List Token} (hlist : Derives .declarations place n us ss n')
    (hsplit : body ++ [semi] ++ (next ++ left) ++ behind = us ++ rest)
    (hover : Stops (· ≠ .symbol .rightBrace) rest) :
    ∃ s ss rest, Lapse.At body semi next left place s ss rest := by
  obtain ⟨s, following, remaining, k, k₁, k₂, hs, hfollowing, hone, hremaining⟩ := h.known
  have hall := hs.singleton.declarations_append (hfollowing.declarations_append hremaining)
  obtain ⟨us', all, ss', j, -, -, -, -, hlisted, -⟩ :=
    hlist.split hall hsplit.symm hover h.noElse
  have hempty : Stops (· = .keyword .else_) [] := trivial
  have hleft : Stops (· = .keyword .else_) left := by
    have hstops := stops_declarations hremaining hempty
    rwa [List.append_nil] at hstops
  obtain ⟨more, others, j, -, hmore, hbody, hrest⟩ :=
    hlisted.known hs.singleton (h.noElse_next left hleft)
  obtain ⟨ss, rest, j', -, hlength, hnext, hafter⟩ := hrest.known hfollowing hleft
  obtain ⟨s', rfl⟩ := List.length_eq_one_iff.mp hmore
  exact ⟨s', ss, rest, ⟨n, j, hbody.declaration_of_singleton⟩, ⟨j, j', hnext⟩, hlength ▸ hone,
    ⟨j', _, hafter⟩⟩

/-- Behind a `fun` with which the text goes on comes no keyword. -/
theorem Lapse.behind_fun (h : Lapse before body semi next left behind) (f t : Token)
    (us : List Token) (hrest : next ++ behind = f :: t :: us) (hf : f.kind = .keyword .fun_) :
    startsStatement t.kind = false := by
  rcases h.following with ⟨p, n, s, n', hs⟩ | ⟨rfl, rfl⟩
  · exact hs.behind_fun hrest hf
  · cases hrest

theorem Lapse.body_starts (h : Lapse before body semi next left behind) :
    ∃ t us, body = t :: us ∧ startsDeclaration t.kind = true := by
  obtain ⟨p, n, s, n', hends, hs⟩ := h.statement
  obtain ⟨q, hsimple⟩ := hs.simple hends
  obtain ⟨t, us, hus, hstarts⟩ := hs.starts
  obtain _ | ⟨b, bs⟩ := body
  · exact absurd hsimple.length (by simp)
  · obtain ⟨rfl, -⟩ := List.cons.inj hus
    exact ⟨b, bs, rfl, hstarts⟩

/-- With the semicolon, all statements are read. -/
theorem Filling.passes_whole {H : Hole} {F : Filling H} {place : Place} {s : Stmt}
    {ss rest : List Stmt} (h : Lapse before body semi next left behind)
    (hat : Lapse.At body semi next left place s ss rest)
    (htokens : F.tokens = body ++ semi :: (next ++ behind)) (hbehind : F.behind = behind)
    (hadded : F.added = Outline.stmts (s :: ss)) (herrors : F.errors = #[]) : F.Passes place := by
  intro n
  obtain ⟨k, k', hs⟩ := hat.statement
  obtain ⟨j, j', hss⟩ := hat.following
  obtain ⟨s', n₁, hs', hsame⟩ := hs.renumbered n
  obtain ⟨ss', n₂, hss', hsame'⟩ := hss.renumbered_list n₁
  refine ⟨n₂, s' :: ss', ?_, fun loop done errors hplace => ?_⟩
  · rw [hadded]
    exact congrArg₂ List.cons hsame hsame'
  · subst hplace
    have hall := hs'.singleton.declarations_append hss'
    have hread : body ++ semi :: (next ++ behind) = body ++ [semi] ++ next ++ behind := by simp
    rw [htokens, hbehind, herrors, Array.append_empty, hread]
    exact Loop.leads_declarations hall h.noElse

/-- Without it, the statement is left out, and those that recovery leaves are read. -/
theorem Filling.passes_spoilt {H : Hole} {F : Filling H} {place : Place} {s : Stmt}
    {ss rest : List Stmt} {error : Diagnostic} (h : Lapse before body semi next left behind)
    (hat : Lapse.At body semi next left place s ss rest)
    (hfails : ∀ {n n' : Nat} {s : Stmt}, Derives .declaration place n (body ++ [semi]) s n' →
      ∀ (fuel : Nat) (errors : Array Diagnostic),
        Gives (declaration fuel place) ⟨body ++ (next ++ behind), F.finish, n, errors⟩ none
          ⟨resume (next ++ behind), F.finish, n', errors.push error⟩)
    (htokens : F.tokens = body ++ (next ++ behind)) (hbehind : F.behind = behind)
    (hadded : F.added = Outline.stmts rest) (herrors : F.errors = #[error]) : F.Passes place := by
  intro n
  obtain ⟨k, k', hs⟩ := hat.statement
  obtain ⟨j, j', hrest⟩ := hat.remaining
  obtain ⟨s', n₁, hs', -⟩ := hs.renumbered n
  obtain ⟨rest', n₂, hrest', hsame⟩ := hrest.renumbered_list n₁
  refine ⟨n₂, rest', hadded ▸ hsame, fun loop done errors hplace => ?_⟩
  subst hplace
  obtain ⟨t, us, rfl, hstarts⟩ := h.body_starts
  have hleft := @Loop.leads_declaration loop done _ _ none
    (fun fuel => hfails hs' fuel errors) (List.cons_ne_nil _ _) (Loop.not_brace_of_starts hstarts)
  rw [h.resumes] at hleft
  rw [htokens, hbehind, herrors]
  exact hleft.trans (Loop.leads_declarations hrest' h.noElse)

/-! ## The statements around -/

/-- What derives from tokens that do not name the class is left as it is to the end. -/
theorem Hole.stmts_of_rest {H : Hole} (F : Filling H) (h : Derives .declarations p n ts ss n')
    (hother : ∀ t ∈ ts, t.lexeme ≠ H.name.lexeme) : F.cut.stmts 0 ss = Outline.stmts ss := by
  have hrest := Hole.stmts_of_other F h hother []
  rwa [List.append_nil, Cut.stmts, List.append_nil] at hrest

/-- A cut in a program that has a class in a hole changes one statement at the top, in which the
hole is, or else it changes the class and the statements behind it that are in the hole, too. -/
theorem Hole.cut_around {H : Hole} {finish first : Nat}
    (hclean : (parseProgram ⟨before ++ H.rest, finish⟩ first).errors = #[])
    (hother : ∀ t ∈ before ++ (H.extra ++ H.behind), t.lexeme ≠ H.name.lexeme)
    (hextra : Derives .declarations p n H.extra ss n') (hcount : ss.length = H.count)
    (helse : Stops (· = .keyword .else_) H.behind) :
    ∃ (u u' w w' : List Token) (front back : List Stmt) (k k' k'' : Nat),
      before = u ++ u' ∧ H.behind = w' ++ w ∧ Derives .declarations .top first u front k ∧
        Derives .declarations .top k' w back k'' ∧
          ∃ one : Filling H → List Stmt, (∀ F : Filling H,
            F.cut.stmts 0 (parseProgram ⟨before ++ H.rest, finish⟩ first).value =
              Outline.stmts front ++ one F ++ Outline.stmts back) ∧
            ((∀ F, (one F).length = 1) ∨ u' = [] ∧ w' = [] ∧ ∀ F, one F = F.added) := by
  have hprogram := derivesProgram_of_parseProgram hclean
  have hbefore : ∀ t ∈ before, t.lexeme ≠ H.name.lexeme :=
    fun t ht => hother t (List.mem_append_left _ ht)
  obtain ⟨u, u', w, front, back, middle, k, k', rfl, hvalue, hfront, hback, hmiddle⟩ :=
    Hole.split hprogram hbefore
  have hu : ∀ t ∈ u, t.lexeme ≠ H.name.lexeme :=
    fun t ht => hbefore t (List.mem_append_left _ ht)
  rw [hvalue]
  rcases hmiddle with ⟨hinside, w', hw⟩ | ⟨hclass, rfl, rfl⟩
  · refine ⟨u, u', w, w', front, back, k, k', _, rfl, hw, hfront, hback,
      fun F => [F.cut.stmt middle], fun F => ?_, .inl fun F => rfl⟩
    have hother' : ∀ t ∈ w, t.lexeme ≠ H.name.lexeme := fun t ht =>
      hother t (List.mem_append_right _ (List.mem_append_right _ (by simp [hw, ht])))
    rw [Hole.stmts_of_other F hfront hu, F.cut.stmts_cons hinside,
      Hole.stmts_of_rest F hback hother', List.append_assoc]
    rfl
  · obtain ⟨more, back, j, rfl, hmore, -, hback⟩ := hback.known hextra helse
    refine ⟨u, [], H.behind, [], front, back, k, j, _, rfl, rfl, hfront, hback,
      fun F => F.added, fun F => ?_, .inr ⟨rfl, rfl, fun F => rfl⟩⟩
    have hother' : ∀ t ∈ H.behind, t.lexeme ≠ H.name.lexeme := fun t ht =>
      hother t (List.mem_append_right _ (List.mem_append_right _ ht))
    rw [Hole.stmts_of_other F hfront hu, F.cut.stmts_class hclass (hmore.trans hcount),
      Hole.stmts_of_rest F hback hother', List.append_assoc]
    rfl

end

/-! ## One missing semicolon -/

/-- The semicolon of a statement in a list is left out, so that what follows cannot go on with it,
and recovery stops where whole statements are left of the statement that follows. Then there is one
error, and all statements at the top are there but for the one in which the semicolon is missing and
the one that follows it. -/
theorem missing_semicolon_is_one_error {before body next left behind : List Token} {semi : Token}
    (h : Lapse before body semi next left behind) (finish first : Nat) :
    let whole := parseProgram ⟨before ++ (body ++ semi :: (next ++ behind)), finish⟩ first
    let spoilt := parseProgram ⟨before ++ (body ++ (next ++ behind)), finish⟩ first
    whole.errors = #[] ∧ (∃ error, spoilt.errors = #[error]) ∧
      ∃ (u u' w w' : List Token) (front back one others : List Stmt) (k k' k'' : Nat),
        before = u ++ u' ∧ behind = w' ++ w ∧ Derives .declarations .top first u front k ∧
          Derives .declarations .top k' w back k'' ∧
          Outline.stmts whole.value = Outline.stmts front ++ one ++ Outline.stmts back ∧
          Outline.stmts spoilt.value = Outline.stmts front ++ others ++ Outline.stmts back ∧
          (one.length = 1 ∨ u' = [] ∧ w' = [] ∧ one.length ≤ 2) := by
  intro whole spoilt
  have hplace : MayDeclare before (body ++ [semi] ++ (next ++ left) ++ behind) := by
    simpa using h.place
  obtain ⟨s₀, following, remaining, k, k₁, k₂, hs₀, hfollowing, -, hremaining⟩ := h.known
  have hextra := hs₀.singleton.declarations_append (hfollowing.declarations_append hremaining)
  obtain ⟨H, hH, hbehind, hcount, hother, finish₀, first₀, hclean⟩ := hplace.hole hextra h.noElse
  obtain ⟨place, hreopens, hfill⟩ := H.parse hclean
  obtain ⟨n, ts, ss, n', rest, hsplit, hlist, hover⟩ := hreopens.derives
  rw [hH, hbehind] at hsplit
  obtain ⟨s, following', remaining', hat⟩ := h.at_place hlist hsplit hover
  obtain ⟨p, m, s₁, m', hends, hs₁⟩ := h.statement
  obtain ⟨q, hsimple⟩ := hs₁.simple hends
  obtain ⟨error, hfails⟩ := unfinished_left_out hsimple h.severed h.behind_fun place finish
  subst hbehind
  obtain ⟨hbefore, hafter⟩ := List.forall_mem_append.mp hother
  have hlike : Likes H.name.lexeme H.behind H.behind := likes_of_alike
    (List.forall₂_same.mpr fun t _ => ⟨rfl, rfl⟩) (List.forall_mem_append.mp hafter).2
  have hlike' : Likes H.name.lexeme before before :=
    likes_of_alike (List.forall₂_same.mpr fun t _ => ⟨rfl, rfl⟩) hbefore
  have hnoElse (us : List Token) : Stops (· = .keyword .else_) (body ++ us) := by
    obtain ⟨t, ts, rfl, hstarts⟩ := h.body_starts
    intro helse
    rw [helse] at hstarts
    cases hstarts
  let complete : Filling H := {
    tokens := body ++ semi :: (next ++ H.behind)
    behind := H.behind
    errors := #[]
    added := Outline.stmts (s :: following')
    finish
    like := hlike
    noElse := hnoElse _ }
  let broken : Filling H := {
    tokens := body ++ (next ++ H.behind)
    behind := H.behind
    errors := #[error]
    added := Outline.stmts remaining'
    finish
    like := hlike
    noElse := hnoElse _ }
  obtain ⟨hvalue, herrors⟩ := hfill complete first hlike'
    (Filling.passes_whole h hat rfl rfl rfl rfl)
  obtain ⟨hvalue', herrors'⟩ := hfill broken first hlike'
    (Filling.passes_spoilt h hat hfails rfl rfl rfl rfl)
  rw [← hH] at hextra hother
  obtain ⟨u, u', w, w', front, back, j, j', j'', hu, hw, hfront, hback, one, hcut, hone⟩ :=
    H.cut_around hclean hother hextra hcount.symm h.noElse
  obtain ⟨front', j₁, hfront', hsame⟩ := hfront.renumbered_list first
  refine ⟨herrors, ⟨error, herrors'⟩, u, u', w, w', front', back, one complete, one broken, j₁, j',
    j'', hu, hw, hfront', hback, ?_, ?_, ?_⟩
  · rw [hsame]
    exact hvalue.trans (hcut complete)
  · rw [hsame]
    exact hvalue'.trans (hcut broken)
  · rcases hone with hone | ⟨hu', hw', hone⟩
    · exact .inl (hone complete)
    · refine .inr ⟨hu', hw', ?_⟩
      rw [hone complete]
      show (Outline.stmts (s :: following')).length ≤ 2
      rw [Outline.stmts_eq_map, List.length_map]
      exact Nat.succ_le_succ hat.one

/-- In `while ( a ) { print b while ( c ) print d ; break ; }` recovery stops at the second `print`,
which is left of the inner loop. -/
theorem missing_semicolon_in_loop :
    let keyword (word : Keyword) (text : String) (start : Nat) : Token :=
      ⟨.keyword word, text, ⟨start, start + text.length⟩⟩
    let symbol (symbol : Symbol) (text : String) (start : Nat) : Token :=
      ⟨.symbol symbol, text, ⟨start, start + 1⟩⟩
    let name (text : String) (start : Nat) : Token := ⟨.identifier, text, ⟨start, start + 1⟩⟩
    let before : List Token := [keyword .while_ "while" 0, symbol .leftParen "(" 6, name "a" 7,
      symbol .rightParen ")" 8, symbol .leftBrace "\x7b" 10]
    let body : List Token := [keyword .print "print" 12, name "b" 18]
    let semi : Token := symbol .semicolon ";" 19
    let left : List Token := [keyword .print "print" 31, name "d" 37, symbol .semicolon ";" 38]
    let next : List Token := [keyword .while_ "while" 21, symbol .leftParen "(" 27, name "c" 28,
      symbol .rightParen ")" 29] ++ left
    let behind : List Token := [keyword .break_ "break" 40, symbol .semicolon ";" 45,
      symbol .rightBrace "\x7d" 47]
    Lapse before body semi next left behind ∧
      (parseProgram ⟨before ++ (body ++ semi :: (next ++ behind)), 48⟩ 0).errors = #[] ∧
      ∃ error, (parseProgram ⟨before ++ (body ++ (next ++ behind)), 48⟩ 0).errors = #[error] := by
  intro keyword symbol name before body semi left next behind
  have hbody := derives_of_declaration
    (show declaration 20 .top (.start ⟨body ++ [semi], 0⟩ 0) = .ok (some _) _ from rfl) rfl rfl
  have hnext := derives_of_declaration
    (show declaration 40 .top (.start ⟨next, 0⟩ 0) = .ok (some _) _ from rfl) rfl rfl
  have hleft := derives_of_declaration
    (show declaration 20 .top (.start ⟨left, 0⟩ 0) = .ok (some _) _ from rfl) rfl rfl
  have hsevered : Severed body (next ++ behind) := by
    refine ⟨by simp [Stops, next, keyword], ?_⟩
    rintro ((h | h | ⟨level, -, h⟩) | h)
    · cases h
    · cases h
    · cases level <;> cases h
    · cases h
  have hplace : MayDeclare before (body ++ semi :: (next ++ (left ++ behind))) := by
    refine ⟨keyword .class_ "class" 11, name "e" 11, symbol .leftBrace "\x7b" 11,
      symbol .rightBrace "\x7d" 11, 48, 0, rfl, rfl, rfl, rfl, by decide, ?_⟩
    decide +kernel
  have hlapse : Lapse before body semi next left behind := {
    statement := ⟨_, _, _, _, by trivial, hbody⟩
    following := .inl ⟨_, _, _, _, hnext⟩
    severed := hsevered
    resumes := rfl
    leaves := ⟨_, _, _, _, hleft.singleton⟩
    noElse := by simp [Stops, behind, keyword]
    place := hplace }
  obtain ⟨hwhole, hspoilt, -⟩ := missing_semicolon_is_one_error hlapse 48 0
  exact ⟨hlapse, hwhole, hspoilt⟩

/-- In `{ print a } print b ; print c ;` recovery skips the brace. The statement behind the block is
read inside it, and at the end of the text the block is lost with all that it has come to hold. -/
theorem missing_semicolon_loses_brace :
    let keyword (start : Nat) : Token := ⟨.keyword .print, "print", ⟨start, start + 5⟩⟩
    let symbol (symbol : Symbol) (text : String) (start : Nat) : Token :=
      ⟨.symbol symbol, text, ⟨start, start + 1⟩⟩
    let name (text : String) (start : Nat) : Token := ⟨.identifier, text, ⟨start, start + 1⟩⟩
    let before : List Token := [symbol .leftBrace "\x7b" 0, keyword 2, name "a" 8]
    let behind : List Token := [symbol .rightBrace "\x7d" 10, keyword 12, name "b" 18,
      symbol .semicolon ";" 19, keyword 21, name "c" 27, symbol .semicolon ";" 28]
    let whole := parseProgram ⟨before ++ symbol .semicolon ";" 9 :: behind, 29⟩ 0
    let spoilt := parseProgram ⟨before ++ behind, 29⟩ 0
    whole.errors = #[] ∧ whole.value.length = 3 ∧
      spoilt.errors = #[.located (.grammar (.expected "';' after value")) ⟨10, 11⟩,
        .located (.grammar (.expected "'\x7d' after block")) ⟨29, 29⟩] ∧
      (Report.empty.addAll spoilt.errors).distinct.length = 2 ∧ spoilt.value.length = 0 := by
  intro keyword symbol name before behind whole spoilt
  have herrors : spoilt.errors = #[.located (.grammar (.expected "';' after value")) ⟨10, 11⟩,
      .located (.grammar (.expected "'\x7d' after block")) ⟨29, 29⟩] := by decide +kernel
  refine ⟨by decide +kernel, by decide +kernel, herrors, ?_, by decide +kernel⟩
  rw [herrors]
  -- The two places are in order and lie far apart.
  unfold Report.distinct Report.sorted
  rw [List.mergeSort_of_pairwise (by decide)]
  rfl

end Lox.Grammar
