import Lox.Proofs.Grammar.Complete
import Lox.Proofs.Grammar.Recovery.Expressions
import Lox.Proofs.Grammar.Recovery.Statements

/-! # Lists of declarations track the guide

A hole stands in a list of declarations. There the guide reads the class, and the
other text passes over what fills the hole. Both then read on behind the hole, the
other text with as many errors more as the filling has. -/

namespace Lox.Grammar

open Rule

variable {H : Hole} {J : Type} {F : J → Filling H} {fuel : Nat} {g : J → Nat}

/-! ## At the hole -/

/-- The class in the hole is read without an error, if there are steps enough. -/
theorem Hole.gives_class (H : Hole) (fuel : Nat) (p : Place) (finish n : Nat)
    (errors : Array Diagnostic) :
    Gives (declaration fuel p) ⟨H.rest, finish, n, errors⟩
      (some (.class_ H.name.ident none [])) ⟨H.extra ++ H.behind, finish, n, errors⟩ := by
  cases fuel with
  | zero => exact gives_starve
  | succ fuel =>
    rw [declaration]
    refine Gives.recover ?_
    cases fuel with
    | zero => exact gives_starve
    | succ fuel =>
      have hclass : Derives .classDeclaration p n [H.keyword, H.name, H.opening, H.closing]
          (.class_ H.name.ident none []) n :=
        Derives.class_ H.isKeyword H.isName .none H.opens .noMethod H.closes
      rw [declared]
      exact gives_accept H.isKeyword ((complete fuel).classDeclaration p hclass trivial)

/-- Nothing more is read of a list that ends. -/
theorem Loop.run_over {loop : Loop} {c : Cursor} (h : loop.over c = true) (done : Array Stmt) :
    loop.run (fuel + 1) done c = .ok done c := by
  cases loop with
  | program =>
    have hend : c.atEnd = true := h
    simp only [Loop.run, Grammar.program, test, Bind.bind, EStateM.bind, if_pos hend]
    rfl
  | block p =>
    have hend : (c.atEnd || c.sees (.symbol .rightBrace)) = true := h
    simp only [Loop.run, declarations, test, Bind.bind, EStateM.bind, if_pos hend]
    rfl

/-- One more declaration of a list is read. -/
theorem Loop.run_more {loop : Loop} {c : Cursor} (h : loop.over c = false) (done : Array Stmt) :
    loop.run (fuel + 1) done c =
      (declaration fuel loop.place >>= fun stmt? => match stmt? with
        | some stmt => loop.run fuel (done.push stmt)
        | none => loop.run fuel done) c := by
  cases loop with
  | program =>
    have hmore : ¬ c.atEnd = true := Bool.not_eq_true _ ▸ h
    simp only [Loop.run, Grammar.program, test, Bind.bind, EStateM.bind, if_neg hmore]
    rfl
  | block p =>
    have hmore : ¬ (c.atEnd || c.sees (.symbol .rightBrace)) = true := Bool.not_eq_true _ ▸ h
    simp only [Loop.run, declarations, test, Bind.bind, EStateM.bind, if_neg hmore]
    rfl

theorem Loop.not_over {loop : Loop} {c : Cursor} (hc : c.tokens ≠ [])
    (hbrace : Stops (· = .symbol .rightBrace) c.tokens) : loop.over c = false := by
  obtain ⟨ts, finish, n, errors⟩ := c
  cases ts with
  | nil => exact absurd rfl hc
  | cons t ts =>
    cases loop with
    | program => rfl
    | block p => exact decide_eq_false hbrace

/-- The guide comes behind the hole and reads on there. -/
theorem Hole.run_at {loop : Loop} {done all : Array Stmt} {finish n : Nat}
    {errors : Array Diagnostic} {c' : Cursor}
    (hrun : loop.run (fuel + 1) done ⟨H.rest, finish, n, errors⟩ = .ok all c')
    (hclean : c'.errors.size = errors.size) :
    H.Reopens loop.place ∧ ∃ (fuel' : Nat) (more : List Stmt) (n' : Nat),
      fuel' ≤ fuel ∧ more.length = H.count ∧
        loop.run fuel' (done.push (.class_ H.name.ident none []) ++ more.toArray)
          ⟨H.behind, finish, n', errors⟩ = .ok all c' := by
  have hbrace : Stops (· = .symbol .rightBrace) H.rest := by
    show H.keyword.kind ≠ _
    rw [H.isKeyword]
    nofun
  have hmore : loop.over ⟨H.rest, finish, n, errors⟩ = false :=
    Loop.not_over (List.cons_ne_nil _ _) hbrace
  rw [Loop.run_more hmore] at hrun
  rcases H.gives_class fuel loop.place finish n errors with hclass | ⟨c'', hclass⟩
  · rw [bind_of_ok hclass] at hrun
    exact ⟨⟨loop, fuel, _, all, finish, n, errors, c', rfl, hrun, hclean⟩,
      H.passes loop hrun hclean⟩
  · rw [bind_of_error hclass] at hrun
    cases hrun

/-- At the hole a list of declarations tracks the guide, if it does so from behind the hole on. -/
theorem tracksAt_loop (loop : Loop) {done : Array Stmt} {done' : J → Array Stmt}
    (hdone : ∀ j, (F j).SameStmts done (done' j))
    (ih : ∀ m ≤ fuel, ∀ {I : Type} {G : I → Filling H} {done : Array Stmt} {done' : I → Array Stmt}
      {g : I → Nat}, (∀ i, (G i).SameStmts done (done' i)) →
        Tracks G true Filling.SameStmts (loop.run m done) fun i => loop.run (g i) (done' i)) :
    TracksAt F true Filling.SameStmts (loop.run (fuel + 1) done)
      fun j => loop.run (g j) (done' j) := by
  intro c hat all c' hrun hclean
  obtain ⟨ts, finish, n, errors⟩ := c
  obtain rfl : ts = H.rest := hat
  obtain ⟨hreopens, fuel', more, n', hfuel', hmore, hrest⟩ := Hole.run_at hrun hclean
  -- Behind the hole nothing is left of it, and the rest is tracked.
  have hpast : H.Past ⟨H.behind, finish, n', errors⟩ := Nat.le_refl _
  have hpast' : H.Past c' := by
    have htracks : Tracks (fun i : Empty => (i.elim : Filling H)) true Filling.SameStmts
        (loop.run fuel' (done.push (.class_ H.name.ident none []) ++ more.toArray))
        fun i => loop.run i.elim i.elim := ih fuel' hfuel' fun i => i.elim
    exact ((htracks.moves.ends _).of_ok hrest).1.length_le
  have hcross : H.Crosses ⟨H.rest, finish, n, errors⟩ c' := ⟨hpast', Hole.At.not_past rfl⟩
  refine ⟨.inr (.inr hpast'), fun _ => ⟨loop.place, fun _ => hreopens, ?_⟩⟩
  intro j d hfollows hpasses
  obtain ⟨ts', finish', m, errors'⟩ := d
  obtain ⟨rfl, rfl⟩ : ts' = (F j).tokens ∧ finish' = (F j).finish := by
    cases hfollows with
    | ahead some _ guide => exact absurd rfl (Hole.Ahead.not_at ⟨_, some, guide⟩)
    | past short => exact absurd short (Hole.At.not_past rfl)
    | «at» _ tokens finish => exact ⟨tokens, finish⟩
  obtain ⟨m', added, hadded, hthrough⟩ := hpasses hcross m
  rcases hthrough loop (done' j) errors' rfl (g j) with hstarved | ⟨k, -, hstep⟩
  · exact .inl hstarved
  have hsame : (F j).SameStmts (done.push (.class_ H.name.ident none []) ++ more.toArray)
      (done' j ++ added.toArray) :=
    (hdone j).hole (t := .class_ H.name.ident none []) (decide_eq_true rfl) hmore hadded
  have hfollows' : (F j).Follows ⟨H.behind, finish, n', errors⟩
      ⟨(F j).behind, (F j).finish, m', errors' ++ (F j).errors⟩ := .past hpast (F j).like rfl
  obtain ⟨-, htrack⟩ := (ih fuel' hfuel' (g := fun _ : Unit => k) fun _ => hsame).off (.inr hpast)
    hrest hclean
  obtain ⟨p, -, hyields⟩ := htrack fun _ => rfl
  rcases hyields () _ hfollows' fun hc => absurd hpast hc.2 with
    ⟨d', hd'⟩ | ⟨b, d', hd', hall, hend, herr⟩
  · exact .inl ⟨d', hstep.trans hd'⟩
  · refine .inr ⟨b, d', hstep.trans hd', hall, hend, ?_⟩
    have hsilent : (F j).told ⟨H.behind, finish, n', errors⟩ c' = #[] :=
      Filling.told_of_not fun hc => hc.2 hpast
    have htold : (F j).told ⟨H.rest, finish, n, errors⟩ c' = (F j).errors := if_pos hcross
    rw [herr, hsilent, Array.append_empty, htold]

/-! ## The rules -/

theorem tracks_declaration (ih : Tracking H fuel) (p : Place) :
    Tracks F true (fun G => Option.Rel G.SameStmt) (declaration (fuel + 1) p)
      fun j => declaration (g j) p := by
  refine tracks_succ (fun _ fuel => declaration fuel p) (fun _ => rfl) fun π m => ?_
  simp only [declaration]
  exact (ih.declared p).recover

theorem tracks_block (ih : Tracking H fuel) (p : Place) :
    TracksThrough F Filling.SameBody (block (fuel + 1) p) fun j => block (g j) p := by
  have hend : ∀ {I : Type} {G : I → Filling H} {body : Array Stmt} {body' : I → Array Stmt},
      (∀ i, (G i).SameStmts body (body' i)) → Tracks G true Filling.SameBody
        (expect (.symbol .rightBrace) "'\x7d' after block" >>= fun close =>
          pure (body.toList, close.span))
        fun i => expect (.symbol .rightBrace) "'\x7d' after block" >>= fun close =>
          pure ((body' i).toList, close.span) := by
    intro I G body body' hbody
    exact tracks_expect (fun _ _ π _ => tracksAt_pure fun i => (hbody (π i)).body)
      fun _ _ π _ _ => tracks_pure fun i => (hbody (π i)).body
  have hbarred : ∀ body : Array Stmt, Stuck H true
      (expect (.symbol .rightBrace) "'\x7d' after block" >>= fun close =>
        pure (body.toList, close.span)) :=
    fun _ => Barred.stuck (barred_expect (by decide)).bind
  constructor
  · refine tracks_succ (fun _ fuel => block fuel p) (fun _ => rfl) fun π m => ?_
    simp only [block]
    refine tracks_nested ?_
    exact (ih.declarations p.deeper fun _ => Filling.sameStmts_empty).bind
      (fun _ _ _ _ _ => (hbarred _).tracksAt) fun _ _ _ _ hbody => hend hbody
  · refine tracksFrom_succ (fun _ fuel => block fuel p) (fun _ => rfl) fun π m => ?_
    simp only [block]
    refine tracksFrom_nested ?_
    have hbody := fun g => ih.declarations p.deeper (F := fun i => F (π i)) (g := g)
      fun _ => Filling.sameStmts_empty
    exact (hbody m).at.bind (hbody m).moves (fun _ _ _ _ hbody => hend hbody)
      (fun _ _ _ _ _ => (hbarred _).tracksAt) fun hloose => Bool.noConfusion hloose

/-- One more declaration of a list, and the rest of the list. -/
theorem tracks_oneMore (ih : Tracking H fuel) (loop : Loop) {done : Array Stmt}
    {done' : J → Array Stmt} (hdone : ∀ j, (F j).SameStmts done (done' j))
    (hrest : ∀ {I : Type} {G : I → Filling H} {done : Array Stmt} {done' : I → Array Stmt}
      {g : I → Nat}, (∀ i, (G i).SameStmts done (done' i)) →
        TracksThrough G Filling.SameStmts (loop.run fuel done) fun i => loop.run (g i) (done' i)) :
    Tracks F true Filling.SameStmts
      (declaration fuel loop.place >>= fun stmt? => match stmt? with
        | some stmt => loop.run fuel (done.push stmt)
        | none => loop.run fuel done)
      fun j => declaration (g j) loop.place >>= fun stmt? => match stmt? with
        | some stmt => loop.run (g j) ((done' j).push stmt)
        | none => loop.run (g j) (done' j) := by
  have hthrough : ∀ stmt? {I : Type} (π : I → J) (stmt?' : I → Option Stmt),
      (∀ i, Option.Rel (F (π i)).SameStmt stmt? (stmt?' i)) →
        TracksThrough (fun i => F (π i)) Filling.SameStmts
          (match stmt? with
            | some stmt => loop.run fuel (done.push stmt)
            | none => loop.run fuel done)
          fun i => match stmt?' i with
            | some stmt => loop.run (g (π i)) ((done' (π i)).push stmt)
            | none => loop.run (g (π i)) (done' (π i)) := by
    intro stmt? I π stmt?' hstmt
    cases stmt? with
    | none =>
      obtain rfl := rel_none hstmt
      exact hrest fun i => hdone (π i)
    | some stmt =>
      obtain ⟨stmt', rfl, hsame⟩ := rel_some hstmt
      exact hrest fun i => (hdone (π i)).push (hsame i)
  exact (ih.declaration loop.place).bind (fun _ _ π _ h => (hthrough _ π _ h).at)
    fun _ _ π _ h => (hthrough _ π _ h).toTracks

theorem tracks_declarations (ih : ∀ m ≤ fuel, Tracking H m) (p : Place) {done : Array Stmt}
    {done' : J → Array Stmt} (hdone : ∀ j, (F j).SameStmts done (done' j)) :
    TracksThrough F Filling.SameStmts (declarations (fuel + 1) p done)
      fun j => declarations (g j) p (done' j) := by
  constructor
  · refine tracks_succ (fun j fuel => declarations fuel p (done' j)) (fun _ => rfl) fun π m => ?_
    simp only [declarations]
    refine tracks_test (fun c hoff => .inr fun j d h => ?_) fun seen => ?_
    · rw [h.atEnd hoff, h.sees hoff]
    cases seen with
    | true => exact tracks_pure fun i => hdone (π i)
    | false =>
      exact tracks_oneMore (ih fuel (Nat.le_refl _)) (.block p) (fun i => hdone (π i))
        ((ih fuel (Nat.le_refl _)).declarations p)
  · exact tracksAt_loop (.block p) hdone fun m hm _ _ _ _ _ h =>
      ((ih m hm).declarations p h).toTracks

/-- Whatever number of steps the guide has, every rule tracks it. -/
theorem tracking (H : Hole) (fuel : Nat) : Tracking H fuel := by
  induction fuel using Nat.strongRecOn with
  | ind fuel ih =>
    cases fuel with
    | zero =>
      constructor <;> intros <;> first | exact tracks_starve | exact tracksThrough_starve
    | succ fuel =>
      have ih' := ih fuel (Nat.lt_succ_self _)
      exact {
        expression := tracks_expression ih'
        assignment := tracks_assignment ih'
        operation := tracks_operation ih'
        chain := tracks_chain ih'
        operand := tracks_operand ih'
        unary := tracks_unary ih'
        calls := tracks_calls ih'
        argumentList := tracks_argumentList ih'
        arguments := tracks_arguments ih'
        primary := tracks_primary ih'
        parameters := tracks_parameters ih'
        functionTail := tracks_functionTail ih'
        namedFunction := tracks_namedFunction ih'
        block := tracks_block ih'
        declarations := tracks_declarations fun m hm => ih m (Nat.lt_succ_of_le hm)
        declaration := tracks_declaration ih'
        declared := tracks_declared ih'
        classDeclaration := tracks_classDeclaration ih'
        methods := tracks_methods ih'
        varDeclaration := tracks_varDeclaration ih'
        statement := tracks_statement ih'
        statementBody := tracks_statementBody ih'
        expressionStatement := tracks_expressionStatement ih'
        forStatement := tracks_forStatement ih'
        forInitializer := tracks_forInitializer ih'
        optionalExpression := tracks_optionalExpression ih'
        ifStatement := tracks_ifStatement ih'
        whileStatement := tracks_whileStatement ih'
        returnStatement := tracks_returnStatement ih' }

/-- The list of the whole program tracks the guide. -/
theorem tracks_program (H : Hole) (fuel : Nat) : ∀ {J : Type} {F : J → Filling H} {g : J → Nat}
    {done : Array Stmt} {done' : J → Array Stmt}, (∀ j, (F j).SameStmts done (done' j)) →
      TracksThrough F Filling.SameStmts (program fuel done) fun j => program (g j) (done' j) := by
  induction fuel using Nat.strongRecOn with
  | ind fuel ih =>
    intro J F g done done' hdone
    cases fuel with
    | zero => exact tracksThrough_starve
    | succ fuel =>
      constructor
      · refine tracks_succ (fun j fuel => program fuel (done' j)) (fun _ => rfl) fun π m => ?_
        simp only [program]
        refine tracks_test (fun c hoff => .inr fun j d h => h.atEnd hoff) fun seen => ?_
        cases seen with
        | true => exact tracks_pure fun i => hdone (π i)
        | false =>
          exact tracks_oneMore (tracking H fuel) .program (fun i => hdone (π i))
            (ih fuel (Nat.lt_succ_self _))
      · exact tracksAt_loop .program hdone fun m hm _ _ _ _ _ h => (ih m (Nat.lt_succ_of_le hm) h).toTracks

end Lox.Grammar
