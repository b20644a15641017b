import Lox.Proofs.Renaming.Scopes
import Lox.Proofs.Syntax.Parts

/-! # A program and the renamed one

When a walk over a program finds no error, and the new name is nowhere in the
program, the walk over the renamed program finds the same. Every use of the old
name that is renamed is recorded to be in the scope of the renamed declaration, and
every other use of it is recorded to be elsewhere, so the programs are kindred. -/

namespace Lox.Renaming

open Scope Twin

variable {r : Renaming} {R : Resolutions} {next : Nat} {p : List Bool} {o : Marks}
  {Γ : List (List String)} {w w' : Walk} {name : String}

/-! ## The new name is free -/

/-- The new name is none of these names. -/
def Free (r : Renaming) (names : List String) : Prop := r.fresh ∉ names

theorem free_cons {names : List String} :
    r.Free (name :: names) ↔ name ≠ r.fresh ∧ r.Free names := by
  unfold Free
  rw [List.mem_cons, not_or, ne_comm]

theorem free_append {names names' : List String} :
    r.Free (names ++ names') ↔ r.Free names ∧ r.Free names' := by
  unfold Free
  rw [List.mem_append, not_or]

/-! ## What the statements of a scope declare -/

/-- Two elements that are taken to the same one are the same, when what is taken has no
duplicates. -/
theorem eq_of_nodup_filterMap {α β : Type} {f : α → Option β} {l : List α} {b : β}
    (hnodup : (l.filterMap f).Nodup) {x y : α} (hx : x ∈ l) (hy : y ∈ l) (hfx : f x = some b)
    (hfy : f y = some b) : x = y := by
  induction l with
  | nil => cases hx
  | cons a l ih =>
    have hmem {z : α} (hz : z ∈ l) (hfz : f z = some b) : b ∈ l.filterMap f :=
      List.mem_filterMap.mpr ⟨z, hz, hfz⟩
    cases hfa : f a with
    | none =>
      rw [List.filterMap_cons_none hfa] at hnodup
      rcases List.mem_cons.mp hx with rfl | hxl
      · cases hfa.symm.trans hfx
      · rcases List.mem_cons.mp hy with rfl | hyl
        · cases hfa.symm.trans hfy
        · exact ih hnodup hxl hyl
    | some c =>
      rw [List.filterMap_cons_some hfa, List.nodup_cons] at hnodup
      rcases List.mem_cons.mp hx with rfl | hxl <;> rcases List.mem_cons.mp hy with rfl | hyl
      · rfl
      · obtain rfl := Option.some.inj (hfa.symm.trans hfx)
        exact absurd (hmem hyl hfy) hnodup.1
      · obtain rfl := Option.some.inj (hfa.symm.trans hfy)
        exact absurd (hmem hxl hfx) hnodup.1
      · exact ih hnodup.2 hxl hyl

theorem declared_of_picks {s : Stmt} (h : r.picks s = true) : Watch.declared? s = some r.old := by
  cases s with
  | var name initializer =>
    have heq : name = r.declaration := of_decide_eq_true h
    rw [heq]
    rfl
  | _ => cases h

/-- A scope that declares a name once declares the old one by the renamed declaration, or not. -/
theorem fits_of_nodup {ss : List Stmt} (hnodup : (ss.filterMap Watch.declared?).Nodup)
    (p : List Bool) : r.Fits (ss.any r.picks :: p) ss := by
  rintro chosen outer heq s hs hold
  obtain ⟨rfl, rfl⟩ := List.cons.inj heq
  cases hany : ss.any r.picks with
  | true =>
    obtain ⟨t, ht, hpicks⟩ := List.any_eq_true.mp hany
    rw [eq_of_nodup_filterMap hnodup hs ht hold (declared_of_picks hpicks)]
    exact hpicks
  | false => exact Bool.eq_false_iff.mpr (List.any_eq_false.mp hany s hs)

theorem Fits.of_subset {ss ss' : List Stmt} (h : r.Fits p ss) (hss : ss' ⊆ ss) : r.Fits p ss' :=
  fun chosen outer hp s hs => h chosen outer hp s (hss hs)

theorem fits_of_none {s : Stmt} (h : Watch.declared? s = none) : r.Fits p [s] := by
  rintro chosen outer - t ht hold
  obtain rfl := List.mem_singleton.mp ht
  cases h.symm.trans hold

theorem declared_span (o : Marks) (name : Ident) : (r.declared o name).span = name.span := by
  unfold declared
  split <;> rfl

/-- A variable that is declared takes the name that is written there. -/
theorem Scene.takes_var (h : r.Scene p o w w') {name : Ident} {initializer : Option Expr}
    (hfits : r.Fits p [.var name initializer]) (hfree : name.text ≠ r.fresh) :
    r.Takes p (r.chooses name o) name.text (r.declared o name).text := by
  refine ⟨?_, hfree, fun hold => ?_⟩
  · unfold declared
    cases hchooses : r.chooses name o with
    | false => exact .plain
    | true =>
      have hname : name.text = r.old := by
        by_contra hne
        rw [chooses_of_ne hne] at hchooses
        cases hchooses
      rw [hname]
      exact .renamed
  · have hstacked := h.stacked
    generalize w.scopes = scopes at hstacked
    generalize w'.scopes = scopes' at hstacked
    cases hstacked with
    | nil => rfl
    | cons hhead htail =>
      exact hfits _ _ rfl _ List.mem_cons_self (congrArg some hold)

/-- A function or a class keeps its name. -/
theorem takes_other {s : Stmt} (hfits : r.Fits p [s]) (hdeclared : Watch.declared? s = some name)
    (hpicks : r.picks s = false) (hfree : name ≠ r.fresh) : r.Takes p false name name := by
  refine ⟨.plain, hfree, fun hold => ?_⟩
  cases p with
  | nil => rfl
  | cons chosen outer =>
    rw [← hpicks]
    exact hfits _ _ rfl _ List.mem_cons_self (hdeclared.trans (congrArg some hold))

theorem tail_mark (chosen : Bool) (name : String) (o : Marks) :
    (r.mark chosen name o).tail = o.tail := by
  cases o <;> rfl

theorem tail_after (s : Stmt) (o : Marks) : (r.after o s).tail = o.tail := by
  unfold after
  split
  · exact tail_mark ..
  · exact tail_mark ..
  · exact tail_mark ..
  · rfl

theorem after_of_none {s : Stmt} (h : Watch.declared? s = none) (o : Marks) : r.after o s = o := by
  cases s with
  | var => cases h
  | function => cases h
  | class_ => cases h
  | _ => rfl

/-- What has been walked before was free of errors when all is. -/
theorem clean_before {ids : List Nat} {w w' : Walk} (h : Walked ids w w')
    (hclean : w'.errors.size = 0) : w.errors.size = 0 := Nat.le_zero.mp (hclean ▸ h.errors)

theorem Stacked.eq_cons {chosen : Bool} {scopes scopes' : List Names}
    (h : r.Stacked (chosen :: p) o scopes scopes') : ∃ mark, o = mark :: o.tail := by
  cases h
  exact ⟨_, rfl⟩

/-- The parameters of a function are declared in order. -/
theorem Scene.params (hr : r.Proper) {chosen : Bool} (params : List Ident)
    (h : r.Scene (chosen :: p) o w w') (hfits : r.Fits (chosen :: p) (paramStmts params))
    (hfree : r.Free (params.map Ident.text))
    (hclean : (params.foldl Walk.introduce w).errors.size = 0) :
    ∃ mark, params.foldl (fun o name => r.declare name o) o = mark :: o.tail ∧
      r.Scene (chosen :: p) (mark :: o.tail) (params.foldl Walk.introduce w)
        ((params.map (r.declared (none :: o.tail))).foldl Walk.introduce w') ∧
      List.Forall₂ ((r.kinship R).Declares (chosen :: p)) params
        (params.map (r.declared (none :: o.tail))) := by
  have hcons := h.stacked.eq_cons
  induction params generalizing o w w' with
  | nil =>
    obtain ⟨mark, hmark⟩ := hcons
    exact ⟨mark, hmark, hmark ▸ h, .nil⟩
  | cons name params ih =>
    obtain ⟨hname, hrest⟩ := free_cons.mp hfree
    obtain ⟨mark, hmark⟩ := hcons
    have hwritten : r.declared (none :: o.tail) name = r.declared o name := by
      rw [hmark]
      rfl
    have htakes := h.takes_var (hfits.of_subset fun s hs => List.mem_cons.mpr
      (.inl (List.mem_singleton.mp hs))) hname
    have hdeclare := clean_before ((walked_define name.text).trans (walked_params params)) hclean
    have hnext := h.introduce hr htakes hdeclare
    have htail := tail_mark (r := r) (r.chooses name o) name.text o
    obtain ⟨mark', hmark', hscene, hdeclares⟩ := ih hnext
      (hfits.of_subset fun s hs => List.mem_cons_of_mem _ hs) hrest hclean
      (by rw [hmark]; exact ⟨_, rfl⟩)
    rw [htail] at hmark' hscene hdeclares
    refine ⟨mark', hmark', ?_, ?_⟩
    · rw [List.map_cons, hwritten]
      exact hscene
    · rw [List.map_cons, hwritten]
      exact .cons ⟨htakes.declares, declared_span o name⟩ hdeclares

/-! ## Uses -/

/-- A use, and what it becomes. -/
theorem Scene.uses (h : r.Scene p o w w') (hm : Matches w Γ) {target : Reference}
    (hfree : target.name.text ≠ r.fresh)
    (hleads : (Known.mk R next).Leads Γ target.id target.name.text) :
    (r.kinship R).Uses p target (r.use o target) := by
  refine ⟨⟨rfl, ?_⟩, rfl⟩
  have hfound : R.find? target.id = w.distance? target.name.text :=
    hleads.found.trans (hm.distance _).symm
  show (R.find? target.id).elim _ _
  rw [hfound]
  exact (h.stacked.find hfree).2

theorem goes_keyword_at (hr : r.Proper) (h : name = "this" ∨ name = "super") (p : List Bool)
    (id : Nat) : (r.kinship R).use p id id name name := by
  refine ⟨rfl, ?_⟩
  cases R.find? id with
  | none => rfl
  | some hops => exact hr.goes_keyword h _

mutual

theorem kin_expr (hr : r.Proper) : ∀ (e : Expr) {w w' : Walk} {Γ : List (List String)}
    {p : List Bool} {o : Marks}, Plain.expr e → r.Free (Names.expr e) →
    Addressed.expr ⟨R, next⟩ Γ e → Matches w Γ → r.Scene p o w w' →
    (Scope.expr e w).errors.size = 0 →
    r.Scene p o (Scope.expr e w) (Scope.expr (r.expr o e) w') ∧
      KinExpr (r.kinship R) p e (r.expr o e)
  | .literal .., _, _, _, _, _, _, _, _, _, h, _ => ⟨h, .literal rfl⟩
  | .grouping inner _, _, _, _, _, _, hp, hn, ha, hm, h, hc => by
    obtain ⟨hscene, hkin⟩ := kin_expr hr inner hp hn ha hm h hc
    exact ⟨hscene, .grouping hkin rfl⟩
  | .unary _ _ operand, _, _, _, _, _, hp, hn, ha, hm, h, hc => by
    obtain ⟨hscene, hkin⟩ := kin_expr hr operand hp hn ha hm h hc
    exact ⟨hscene, .unary rfl hkin⟩
  | .binary left _ _ right, w, _, _, _, _, hp, hn, ha, hm, h, hc => by
    obtain ⟨hleft, hright⟩ := free_append.mp hn
    have hbefore := clean_before (looked_expr right (Scope.expr left w)).toWalked hc
    obtain ⟨hscene, hkin⟩ := kin_expr hr left hp.1 hleft ha.1 hm h hbefore
    obtain ⟨hscene', hkin'⟩ := kin_expr hr right hp.2 hright ha.2
      (hm.of_scopes (looked_expr left w).scopes) hscene hc
    exact ⟨hscene', .binary hkin rfl hkin'⟩
  | .logical left _ _ right, w, _, _, _, _, hp, hn, ha, hm, h, hc => by
    obtain ⟨hleft, hright⟩ := free_append.mp hn
    have hbefore := clean_before (looked_expr right (Scope.expr left w)).toWalked hc
    obtain ⟨hscene, hkin⟩ := kin_expr hr left hp.1 hleft ha.1 hm h hbefore
    obtain ⟨hscene', hkin'⟩ := kin_expr hr right hp.2 hright ha.2
      (hm.of_scopes (looked_expr left w).scopes) hscene hc
    exact ⟨hscene', .logical hkin rfl hkin'⟩
  | .var target, _, _, _, _, _, _, hn, ha, hm, h, _ => by
    have hfree := (free_cons.mp hn).1
    exact ⟨(h.checkRead hfree).use hfree target.id, .var (h.uses hm hfree ha)⟩
  | .assign target value, w, _, _, _, _, hp, hn, ha, hm, h, hc => by
    obtain ⟨hfree, hvalue⟩ := free_cons.mp hn
    have hbefore := clean_before (looked_use target.id target.name.text).toWalked hc
    obtain ⟨hscene, hkin⟩ := kin_expr hr value hp hvalue ha.2 hm h hbefore
    exact ⟨hscene.use hfree target.id, .assign (h.uses hm hfree ha.1) hkin⟩
  | .call callee _ arguments, w, _, _, _, _, hp, hn, ha, hm, h, hc => by
    obtain ⟨hcallee, harguments⟩ := free_append.mp hn
    have hbefore := clean_before (looked_exprs arguments (Scope.expr callee w)).toWalked hc
    obtain ⟨hscene, hkin⟩ := kin_expr hr callee hp.1 hcallee ha.1 hm h hbefore
    obtain ⟨hscene', hkin'⟩ := kin_exprs hr arguments hp.2 harguments ha.2
      (hm.of_scopes (looked_expr callee w).scopes) hscene hc
    exact ⟨hscene', .call hkin rfl hkin'⟩
  | .get object _, _, _, _, _, _, hp, hn, ha, hm, h, hc => by
    obtain ⟨hscene, hkin⟩ := kin_expr hr object hp (free_cons.mp hn).2 ha hm h hc
    exact ⟨hscene, .get hkin ⟨rfl, rfl⟩⟩
  | .set object _ value, w, _, _, _, _, hp, hn, ha, hm, h, hc => by
    obtain ⟨hobject, hvalue⟩ := free_append.mp (free_cons.mp hn).2
    have hbefore := clean_before (looked_expr object (Scope.expr value w)).toWalked hc
    obtain ⟨hscene, hkin⟩ := kin_expr hr value hp.2 hvalue ha.2 hm h hbefore
    obtain ⟨hscene', hkin'⟩ := kin_expr hr object hp.1 hobject ha.1
      (hm.of_scopes (looked_expr value w).scopes) hscene hc
    exact ⟨hscene', .set hkin' ⟨rfl, rfl⟩ hkin⟩
  | .this id span, w, w', _, p, o, _, _, _, _, h, _ => by
    refine ⟨?_, .this (goes_keyword_at hr (.inl rfl) _ id) rfl⟩
    show r.Scene p o (if w.class_ = .none then w.note .thisOutsideClass span else w.use id "this")
      (if w'.class_ = .none then w'.note .thisOutsideClass span else w'.use id "this")
    rw [h.class_]
    split
    · exact h.note _ _
    · exact h.use_keyword hr (.inl rfl) id
  | .super id keyword _, _, _, _, _, _, _, _, _, _, h, _ =>
    ⟨(h.checkSuper keyword).use_keyword hr (.inr rfl) id,
      .super (goes_keyword_at hr (.inr rfl) _ id) rfl ⟨rfl, rfl⟩⟩
  | .lambda fn, _, _, _, _, _, hp, hn, ha, hm, h, hc => by
    obtain ⟨hscene, hkin⟩ := kin_function hr .function fn hp hn ha hm h hc
    exact ⟨hscene, .lambda hkin⟩

theorem kin_exprs (hr : r.Proper) : ∀ (es : List Expr) {w w' : Walk} {Γ : List (List String)}
    {p : List Bool} {o : Marks}, Plain.exprs es → r.Free (Names.exprs es) →
    Addressed.exprs ⟨R, next⟩ Γ es → Matches w Γ → r.Scene p o w w' →
    (Scope.exprs es w).errors.size = 0 →
    r.Scene p o (Scope.exprs es w) (Scope.exprs (r.exprs o es) w') ∧
      KinExprs (r.kinship R) p es (r.exprs o es)
  | [], _, _, _, _, _, _, _, _, _, h, _ => ⟨h, .nil⟩
  | e :: es, w, _, _, _, _, hp, hn, ha, hm, h, hc => by
    obtain ⟨hhead, htail⟩ := free_append.mp hn
    have hbefore := clean_before (looked_exprs es (Scope.expr e w)).toWalked hc
    obtain ⟨hscene, hkin⟩ := kin_expr hr e hp.1 hhead ha.1 hm h hbefore
    obtain ⟨hscene', hkin'⟩ := kin_exprs hr es hp.2 htail ha.2
      (hm.of_scopes (looked_expr e w).scopes) hscene hc
    exact ⟨hscene', .cons hkin hkin'⟩

theorem kin_function (hr : r.Proper) (kind : FunctionKind) : ∀ (fn : Lambda) {w w' : Walk}
    {Γ : List (List String)} {p : List Bool} {o : Marks}, Plain.lambda fn →
    r.Free (Names.lambda fn) → Addressed.function ⟨R, next⟩ Γ fn → Matches w Γ →
    r.Scene p o w w' → (Scope.function kind fn w).errors.size = 0 →
    r.Scene p o (Scope.function kind fn w) (Scope.function kind (r.function o fn) w') ∧
      KinLambda (r.kinship R) p fn (r.function o fn)
  | ⟨params, body, span⟩, w, w', _, p, o, hp, hn, ha, hm, h, hc => by
    obtain ⟨hparams, hbody⟩ := free_append.mp hn
    have hclean : (Scope.stmts body (params.foldl Walk.introduce
      { w with function := kind }.openScope)).errors.size = 0 := hc
    have hmatches : Matches { w with function := kind } _ := hm
    have hfits := fits_of_nodup (r := r) (nodup_declared_function hmatches hp hclean) p
    have hopen := (h.of_function kind).openScope ((paramStmts params ++ body).any r.picks)
    obtain ⟨mark, hmark, hscene, hdeclares⟩ := Scene.params (R := R) hr params hopen
      (hfits.of_subset fun s hs => List.mem_append_left _ hs) hparams
      (clean_before (walked_stmts body _) hclean)
    have hinside := hmatches.openScope.params params
    rw [List.append_nil] at hinside
    obtain ⟨o', ho', hscene', hkin⟩ := kin_stmts hr body hp hbody ha hinside hscene
      (hfits.of_subset fun s hs => List.mem_append_right _ hs) hclean
    have hclosed := hscene'.closeScope
    rw [ho'] at hclosed
    have hwritten : r.function o ⟨params, body, span⟩ =
        ⟨params.map (r.declared (none :: o)), r.stmts (mark :: o) body, span⟩ := by
      unfold Renaming.function
      rw [show params.foldl (fun o name => r.declare name o) (none :: o) = mark :: o from hmark]
    rw [hwritten]
    exact ⟨{ hclosed with function := h.function }, .mk ⟨_, rfl⟩ hdeclares hkin rfl⟩

theorem kin_stmt (hr : r.Proper) : ∀ (s : Stmt) {w w' : Walk} {Γ : List (List String)}
    {p : List Bool} {o : Marks}, Plain.stmt s → r.Free (Names.stmt s) →
    Addressed.stmt ⟨R, next⟩ Γ s → Matches w Γ → r.Scene p o w w' → r.Fits p [s] →
    (Scope.stmt s w).errors.size = 0 →
    r.Scene p (r.after o s) (Scope.stmt s w) (Scope.stmt (r.stmt o s) w') ∧
      KinStmt (r.kinship R) p s (r.stmt o s)
  | .expression value, _, _, _, _, _, hp, hn, ha, hm, h, _, hc => by
    obtain ⟨hscene, hkin⟩ := kin_expr hr value hp hn ha hm h hc
    exact ⟨hscene, .expression hkin⟩
  | .print value, _, _, _, _, _, hp, hn, ha, hm, h, _, hc => by
    obtain ⟨hscene, hkin⟩ := kin_expr hr value hp hn ha hm h hc
    exact ⟨hscene, .print hkin⟩
  | .var name none, _, _, _, _, o, _, hn, _, _, h, hfits, hc => by
    have htakes := h.takes_var hfits (free_cons.mp hn).1
    exact ⟨h.introduce hr htakes (clean_before (walked_define name.text) hc),
      .declaration ⟨htakes.declares, declared_span o name⟩⟩
  | .var name (some value), w, _, _, _, o, hp, hn, ha, hm, h, hfits, hc => by
    obtain ⟨hfree, hvalue⟩ := free_cons.mp hn
    have htakes := h.takes_var hfits hfree
    have hbefore := clean_before (walked_define name.text) hc
    have hdeclare := h.declare hr htakes
      (clean_before (looked_expr value (w.declare name)).toWalked hbefore)
    obtain ⟨hscene, hkin⟩ := kin_expr hr value hp hvalue ha (hm.declare name) hdeclare hbefore
    exact ⟨hscene.define hr htakes,
      .definition ⟨htakes.declares, declared_span o name⟩ hkin⟩
  | .block body, w, _, _, p, _, hp, hn, ha, hm, h, _, hc => by
    have hfits := fits_of_nodup (r := r) (nodup_declared hm.openScope hp hc).1 p
    obtain ⟨o', ho', hscene, hkin⟩ := kin_stmts hr body hp hn ha hm.openScope (h.openScope _) hfits
      hc
    have hclosed := hscene.closeScope
    rw [ho'] at hclosed
    exact ⟨hclosed, .block ⟨_, rfl⟩ hkin⟩
  | .ifElse condition thenBranch none, w, _, _, _, _, hp, hn, ha, hm, h, _, hc => by
    obtain ⟨hcondition, hthen⟩ := free_append.mp hn
    obtain ⟨hp, hnone, hplain⟩ := hp
    have hbefore := clean_before (walked_stmt thenBranch (Scope.expr condition w)) hc
    obtain ⟨hscene, hkin⟩ := kin_expr hr condition hp hcondition ha.1 hm h hbefore
    obtain ⟨hscene', hkin'⟩ := kin_stmt hr thenBranch hplain hthen ha.2
      (hm.of_scopes (looked_expr condition w).scopes) hscene (fits_of_none hnone) hc
    rw [after_of_none hnone] at hscene'
    exact ⟨hscene', .ifThen hkin hkin'⟩
  | .ifElse condition thenBranch (some elseBranch), w, _, _, _, _, hp, hn, ha, hm, h, _, hc => by
    obtain ⟨hfirst, helse⟩ := free_append.mp hn
    obtain ⟨hcondition, hthen⟩ := free_append.mp hfirst
    obtain ⟨hp, ⟨hnone, hplain⟩, hnone', hplain'⟩ := hp
    have hthenClean := clean_before
      (walked_stmt elseBranch (Scope.stmt thenBranch (Scope.expr condition w))) hc
    have hbefore := clean_before (walked_stmt thenBranch (Scope.expr condition w)) hthenClean
    obtain ⟨hscene, hkin⟩ := kin_expr hr condition hp hcondition ha.1 hm h hbefore
    have hm' := hm.of_scopes (looked_expr condition w).scopes
    obtain ⟨hscene', hkin'⟩ := kin_stmt hr thenBranch hplain hthen ha.2.1 hm' hscene
      (fits_of_none hnone) hthenClean
    rw [after_of_none hnone] at hscene'
    obtain ⟨hscene'', hkin''⟩ := kin_stmt hr elseBranch hplain' helse ha.2.2
      (hm'.of_scopes (scopes_stmt thenBranch _ hplain hnone)) hscene' (fits_of_none hnone') hc
    rw [after_of_none hnone'] at hscene''
    exact ⟨hscene'', .ifElse hkin hkin' hkin''⟩
  | .while_ condition body, w, _, _, _, _, hp, hn, ha, hm, h, _, hc => by
    obtain ⟨hcondition, hbody⟩ := free_append.mp hn
    obtain ⟨hp, hnone, hplain⟩ := hp
    have hbefore := clean_before (walked_stmt body (Scope.expr condition w)) hc
    obtain ⟨hscene, hkin⟩ := kin_expr hr condition hp hcondition ha.1 hm h hbefore
    obtain ⟨hscene', hkin'⟩ := kin_stmt hr body hplain hbody ha.2
      (hm.of_scopes (looked_expr condition w).scopes) hscene (fits_of_none hnone) hc
    rw [after_of_none hnone] at hscene'
    exact ⟨hscene', .while_ hkin hkin'⟩
  | .break_ _, _, _, _, _, _, _, _, _, _, h, _, _ => ⟨h, .break_ rfl⟩
  | .return_ keyword none, _, _, _, _, _, _, _, _, _, h, _, _ =>
    ⟨h.checkReturn keyword, .returnNil rfl⟩
  | .return_ keyword (some value), w, _, _, _, _, hp, hn, ha, hm, h, _, hc => by
    have hchecks := (looked_checkReturn (w := w) keyword).trans (looked_checkReturnValue keyword)
    obtain ⟨hscene, hkin⟩ := kin_expr hr value hp hn ha (hm.of_scopes hchecks.scopes)
      ((h.checkReturn keyword).checkReturnValue keyword) hc
    exact ⟨hscene, .return_ rfl hkin⟩
  | .function name fn, w, _, _, _, _, hp, hn, ha, hm, h, hfits, hc => by
    obtain ⟨hfree, hfn⟩ := free_cons.mp hn
    have htakes := takes_other hfits rfl rfl hfree
    have hbefore := clean_before (looked_function .function fn (w.introduce name)).toWalked hc
    have hscene := h.introduce hr htakes (clean_before (walked_define name.text) hbefore)
    obtain ⟨hscene', hkin⟩ := kin_function hr .function fn hp hfn ha (hm.introduce name) hscene hc
    exact ⟨hscene', .function ⟨htakes.declares, rfl⟩ rfl hkin⟩
  | .class_ name none declared, w, w', Γ, p, o, hp, hn, ha, hm, h, hfits, hc => by
    obtain ⟨hfree, hmethods⟩ := free_cons.mp hn
    have htakes := takes_other hfits rfl rfl hfree
    have hname : Matches ({ w with class_ := .plain }.introduce name) (declareIn name.text Γ) :=
      Matches.introduce (w := { w with class_ := .plain }) hm name
    have hbefore := clean_before (walked_inClass w name declared).toWalked hc
    have hscene := (h.of_class .plain).introduce hr htakes
      (clean_before (walked_define name.text) hbefore)
    have hthis := (hscene.openScope false).define_keyword hr (.inl rfl)
    obtain ⟨hscene', hkin⟩ := kin_methods hr declared hp hmethods ha
      (hname.openScope.define "this") hthis hc
    exact ⟨{ hscene'.closeScope with class_ := h.class_ },
      .class_ ⟨htakes.declares, rfl⟩ rfl hkin⟩
  | .class_ name (some parent) declared, w, w', Γ, p, o, hp, hn, ha, hm, h, hfits, hc => by
    obtain ⟨hfree, hrest⟩ := free_cons.mp hn
    obtain ⟨hparent, hmethods⟩ := free_cons.mp hrest
    have htakes := takes_other hfits rfl rfl hfree
    have hname : Matches ({ w with class_ := .subclass }.introduce name) (declareIn name.text Γ) :=
      Matches.introduce (w := { w with class_ := .subclass }) hm name
    have hread := looked_beforeParent w name parent.name
    have huse := looked_use (w := beforeParent w name parent.name) parent.id parent.name.text
    have hbefore := clean_before (hread.trans (huse.trans
      (walked_inSubclass w name parent declared))).toWalked hc
    have hscene := (h.of_class .subclass).introduce hr htakes
      (clean_before (walked_define name.text) hbefore)
    have hfound := ((hscene.checkInheritance hfree ha.1.2).checkRead hparent).use hparent parent.id
    have hsuper := (hfound.openScope false).define_keyword hr (.inr rfl)
    have hthis := (hsuper.openScope false).define_keyword hr (.inl rfl)
    have hm' := (hname.of_scopes hread.scopes).of_scopes huse.scopes
    obtain ⟨hscene', hkin⟩ := kin_methods hr declared hp hmethods ha.2
      ((hm'.openScope.define "super").openScope.define "this") hthis hc
    exact ⟨{ hscene'.closeScope.closeScope with class_ := h.class_ },
      .subclass ⟨htakes.declares, rfl⟩ rfl (hscene.uses hname hparent ha.1.1) ⟨false, rfl⟩ hkin⟩

theorem kin_stmts (hr : r.Proper) : ∀ (ss : List Stmt) {w w' : Walk} {Γ : List (List String)}
    {p : List Bool} {o : Marks}, Plain.stmts ss → r.Free (Names.stmts ss) →
    Addressed.stmts ⟨R, next⟩ Γ ss → Matches w Γ → r.Scene p o w w' → r.Fits p ss →
    (Scope.stmts ss w).errors.size = 0 →
    ∃ o' : Marks, o'.tail = o.tail ∧
      r.Scene p o' (Scope.stmts ss w) (Scope.stmts (r.stmts o ss) w') ∧
        KinStmts (r.kinship R) p ss (r.stmts o ss)
  | [], _, _, _, _, o, _, _, _, _, h, _, _ => ⟨o, rfl, h, .nil⟩
  | s :: ss, w, _, _, _, o, hp, hn, ha, hm, h, hfits, hc => by
    obtain ⟨hhead, htail⟩ := free_append.mp hn
    have hbefore := clean_before (walked_stmts ss (Scope.stmt s w)) hc
    obtain ⟨hscene, hkin⟩ := kin_stmt hr s hp.1 hhead ha.1 hm h
      (hfits.of_subset fun t ht => List.mem_cons.mpr (.inl (List.mem_singleton.mp ht))) hbefore
    obtain ⟨o', ho', hscene', hkin'⟩ := kin_stmts hr ss hp.2 htail ha.2 (hm.after hp.1) hscene
      (hfits.of_subset fun t ht => List.mem_cons_of_mem s ht) hc
    exact ⟨o', ho'.trans (tail_after s o), hscene', .cons hkin hkin'⟩

/-- The methods of a class, in the scope of their instance. -/
theorem kin_methods (hr : r.Proper) : ∀ (ms : List Method) {w w' : Walk} {Γ : List (List String)}
    {p : List Bool} {o : Marks}, Plain.methods ms → r.Free (Names.methods ms) →
    Addressed.methods ⟨R, next⟩ Γ ms → Matches w Γ → r.Scene (false :: p) o w w' →
    (Scope.methods ms w).errors.size = 0 →
    r.Scene (false :: p) o (Scope.methods ms w) (Scope.methods (r.methods o ms) w') ∧
      KinMethods (r.kinship R) p ms (r.methods o ms)
  | [], _, _, _, _, _, _, _, _, _, h, _ => ⟨h, .nil⟩
  | ⟨name, fn⟩ :: ms, w, _, _, _, _, hp, hn, ha, hm, h, hc => by
    obtain ⟨hhead, htail⟩ := free_append.mp (free_cons.mp hn).2
    have hfunction := looked_function (methodKind name.text) fn w
    have hbefore := clean_before (walked_methods ms (Scope.function _ fn w)) hc
    obtain ⟨hscene, hkin⟩ := kin_function hr (methodKind name.text) fn hp.1 hhead ha.1 hm h hbefore
    obtain ⟨hscene', hkin'⟩ := kin_methods hr ms hp.2 htail ha.2 (hm.of_scopes hfunction.scopes)
      hscene hc
    exact ⟨hscene', .cons ⟨rfl, rfl⟩ ⟨false, rfl⟩ hkin hkin'⟩

end

/-- A program in which a walk finds no error, and the renamed one, in which it finds the same. -/
theorem kin_program (hr : r.Proper) {ss : List Stmt} (hplain : Plain.stmts ss)
    (hfree : r.Free (Names.stmts ss)) (haddressed : Addressed.stmts ⟨R, next⟩ [] ss)
    (hclean : (Scope.program ss).errors = #[]) :
    ((Scope.program (r.program ss)).errors = #[] ∧
      (Scope.program (r.program ss)).found = (Scope.program ss).found) ∧
      KinStmts (r.kinship R) [] ss (r.program ss) := by
  have hsize : (Scope.stmts ss .start).errors.size = 0 := congrArg Array.size hclean
  have hfits : r.Fits [] ss := fun chosen outer h => by cases h
  obtain ⟨o', -, hscene, hkin⟩ := kin_stmts hr ss hplain hfree haddressed matches_start .start
    hfits hsize
  exact ⟨⟨hscene.errors.trans hclean, hscene.found⟩, hkin⟩

end Lox.Renaming
