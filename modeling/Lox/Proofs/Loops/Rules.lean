import Lox.Proofs.Loops.Rounds
import Lox.Proofs.Scope.Violations

/-! # The rules about names in a loop

Whether a tree breaks a rule depends on the function and the class around it, and on the names that
are declared in the scope directly around it only where it declares some there itself. So the
clauses of a loop that break no rule in the tree of the grammar break none in one scope. -/

namespace Lox.Scope

/-- Nothing that occurs breaks a rule. -/
def Lawful (os : List Occurrence) : Prop := ∀ o ∈ os, o.violation? = none

/-- Places in the same function and in the same class. -/
structure Alike (around around' : Enclosures) : Prop where
  function : around'.function? = around.function?
  class_ : around'.class? = around.class?

/-- The same is directly around two places. -/
def Facing (around around' : Enclosures) : Prop := around'.head? = around.head?

variable {around around' : Enclosures} {os os' : List Occurrence} {initializing : Option String}

theorem lawful_nil : Lawful [] := fun _ ho => by cases ho

theorem lawful_cons {o : Occurrence} : Lawful (o :: os) ↔ o.violation? = none ∧ Lawful os :=
  List.forall_mem_cons

theorem lawful_append : Lawful (os ++ os') ↔ Lawful os ∧ Lawful os' := List.forall_mem_append

theorem lawful_iff_reports : Lawful os ↔ reports os = #[] := by
  unfold Lawful reports
  rw [← Array.toList_eq_nil_iff, List.filterMap_eq_nil_iff]
  refine forall₂_congr fun o _ => ?_
  unfold Occurrence.report?
  rw [Option.map_eq_none_iff]

theorem Alike.block (h : Alike around around') (names : List String) :
    Alike around (.block names :: around') := ⟨h.function, h.class_⟩

theorem Alike.blocks (h : Alike around around') (names names' : List String) :
    Alike (.block names :: around) (.block names' :: around') := ⟨h.function, h.class_⟩

theorem Alike.inClass (h : Alike around around') (inherits : Bool) :
    Alike (.class_ inherits :: around) (.class_ inherits :: around') := ⟨h.function, rfl⟩

theorem Alike.declare (h : Alike around around') (name : String) :
    Alike (around.declare name) (around'.declare name) := by
  constructor
  · rw [Enclosures.function?_declare, Enclosures.function?_declare, h.function]
  · rw [Enclosures.class?_declare, Enclosures.class?_declare, h.class_]

theorem Facing.declare (h : Facing around around') (name : String) :
    Facing (around.declare name) (around'.declare name) := by
  unfold Facing at *
  cases around with
  | nil =>
    obtain rfl := List.head?_eq_none_iff.mp h
    rfl
  | cons enclosure around =>
    obtain ⟨around', rfl⟩ := List.head?_eq_some_iff.mp h
    cases enclosure <;> rfl

theorem Facing.declared (h : Facing around around') : around'.declared = around.declared := by
  unfold Facing at h
  cases around with
  | nil =>
    obtain rfl := List.head?_eq_none_iff.mp h
    rfl
  | cons enclosure around =>
    obtain ⟨around', rfl⟩ := List.head?_eq_some_iff.mp h
    cases enclosure <;> rfl

theorem facing_cons (enclosure : Enclosure) :
    Facing (enclosure :: around) (enclosure :: around') := rfl

theorem Alike.declareAll (h : Alike around around') (names : List String) :
    Alike (around.declareAll names) (around'.declareAll names) := by
  induction names generalizing around around' with
  | nil => exact h
  | cons name names ih => exact ih (h.declare name)

theorem Facing.declareAll (h : Facing around around') (names : List String) :
    Facing (around.declareAll names) (around'.declareAll names) := by
  induction names generalizing around around' with
  | nil => exact h
  | cons name names ih => exact ih (h.declare name)

/-! ## The same constructs elsewhere -/

theorem declaration_lawful {name : Ident} (hf : Facing around around')
    (h : Occurrence.violation? ⟨around, .declaration name⟩ = none) :
    Occurrence.violation? ⟨around', .declaration name⟩ = none := by
  unfold Occurrence.violation? at *
  dsimp only at *
  rw [hf.declared]
  exact h

theorem read_lawful {name : Ident} (hf : initializing = none ∨ Facing around around')
    (h : Occurrence.violation? ⟨around, .read name initializing⟩ = none) :
    Occurrence.violation? ⟨around', .read name initializing⟩ = none := by
  unfold Occurrence.violation? at *
  dsimp only at *
  rcases hf with rfl | hf
  · exact if_neg (Enclosures.not_uninitialized_none name.text)
  · refine if_neg fun hlacks => ?_
    rw [if_pos ⟨hlacks.1, hf.declared ▸ hlacks.2⟩] at h
    cases h

theorem return_lawful {keyword : Span} {hasValue : Bool} (ha : Alike around around')
    (h : Occurrence.violation? ⟨around, .return_ keyword hasValue⟩ = none) :
    Occurrence.violation? ⟨around', .return_ keyword hasValue⟩ = none := by
  unfold Occurrence.violation? at *
  dsimp only at *
  rw [ha.function]
  exact h

theorem this_lawful {keyword : Span} (ha : Alike around around')
    (h : Occurrence.violation? ⟨around, .this keyword⟩ = none) :
    Occurrence.violation? ⟨around', .this keyword⟩ = none := by
  unfold Occurrence.violation? at *
  dsimp only at *
  rw [ha.class_]
  exact h

theorem super_lawful {keyword : Span} (ha : Alike around around')
    (h : Occurrence.violation? ⟨around, .super keyword⟩ = none) :
    Occurrence.violation? ⟨around', .super keyword⟩ = none := by
  unfold Occurrence.violation? at *
  dsimp only at *
  rw [ha.class_]
  exact h

theorem params_lawful (hf : Facing around around') : ∀ (names : List Ident),
    Lawful (Occurrences.params around names) → Lawful (Occurrences.params around' names) := by
  intro names
  induction names generalizing around around' with
  | nil => exact id
  | cons name names ih =>
    intro h
    obtain ⟨hname, hnames⟩ := lawful_cons.mp h
    exact lawful_cons.mpr ⟨declaration_lawful hf hname, ih (hf.declare name.text) hnames⟩

mutual

theorem lawful_expr : ∀ (e : Expr) {around around' : Enclosures} {initializing : Option String},
    Alike around around' → initializing = none ∨ Facing around around' →
    Lawful (Occurrences.expr around initializing e) →
      Lawful (Occurrences.expr around' initializing e)
  | .literal .., _, _, _, _, _, _ => lawful_nil
  | .grouping inner _, _, _, _, ha, hf, h => lawful_expr inner ha hf h
  | .unary _ _ operand, _, _, _, ha, hf, h => lawful_expr operand ha hf h
  | .binary left _ _ right, _, _, _, ha, hf, h =>
    have ⟨hleft, hright⟩ := lawful_append.mp h
    lawful_append.mpr ⟨lawful_expr left ha hf hleft, lawful_expr right ha hf hright⟩
  | .logical left _ _ right, _, _, _, ha, hf, h =>
    have ⟨hleft, hright⟩ := lawful_append.mp h
    lawful_append.mpr ⟨lawful_expr left ha hf hleft, lawful_expr right ha hf hright⟩
  | .var _, _, _, _, _, hf, h =>
    lawful_cons.mpr ⟨read_lawful hf (lawful_cons.mp h).1, lawful_nil⟩
  | .assign _ value, _, _, _, ha, hf, h => lawful_expr value ha hf h
  | .call callee _ arguments, _, _, _, ha, hf, h =>
    have ⟨hcallee, harguments⟩ := lawful_append.mp h
    lawful_append.mpr ⟨lawful_expr callee ha hf hcallee, lawful_exprs arguments ha hf harguments⟩
  | .get object _, _, _, _, ha, hf, h => lawful_expr object ha hf h
  | .set object _ value, _, _, _, ha, hf, h =>
    have ⟨hvalue, hobject⟩ := lawful_append.mp h
    lawful_append.mpr ⟨lawful_expr value ha hf hvalue, lawful_expr object ha hf hobject⟩
  | .this .., _, _, _, ha, _, h =>
    lawful_cons.mpr ⟨this_lawful ha (lawful_cons.mp h).1, lawful_nil⟩
  | .super .., _, _, _, ha, _, h =>
    lawful_cons.mpr ⟨super_lawful ha (lawful_cons.mp h).1, lawful_nil⟩
  | .lambda fn, _, _, _, ha, _, h => lawful_function false fn ha h

theorem lawful_exprs : ∀ (es : List Expr) {around around' : Enclosures}
    {initializing : Option String}, Alike around around' →
    initializing = none ∨ Facing around around' →
    Lawful (Occurrences.exprs around initializing es) →
      Lawful (Occurrences.exprs around' initializing es)
  | [], _, _, _, _, _, _ => lawful_nil
  | e :: es, _, _, _, ha, hf, h =>
    have ⟨hhead, htail⟩ := lawful_append.mp h
    lawful_append.mpr ⟨lawful_expr e ha hf hhead, lawful_exprs es ha hf htail⟩

theorem lawful_function (isInitializer : Bool) : ∀ (fn : Lambda) {around around' : Enclosures},
    Alike around around' → Lawful (Occurrences.function around isInitializer fn) →
      Lawful (Occurrences.function around' isInitializer fn)
  | ⟨params, body, _⟩, around, around', ha, h =>
    have hinside : Alike (.function isInitializer [] :: around)
      (.function isInitializer [] :: around') := ⟨rfl, ha.class_⟩
    have hfacing : Facing (.function isInitializer [] :: around)
      (.function isInitializer [] :: around') := facing_cons _
    have ⟨hparams, hbody⟩ := lawful_append.mp h
    lawful_append.mpr ⟨params_lawful hfacing params hparams,
      lawful_stmts body (hinside.declareAll _) (hfacing.declareAll _) hbody⟩

theorem lawful_stmt : ∀ (s : Stmt) {around around' : Enclosures}, Alike around around' →
    declaredBy s = [] ∨ Facing around around' → Lawful (Occurrences.stmt around s) →
      Lawful (Occurrences.stmt around' s)
  | .expression value, _, _, ha, _, h => lawful_expr value ha (.inl rfl) h
  | .print value, _, _, ha, _, h => lawful_expr value ha (.inl rfl) h
  | .var _ none, _, _, _, hf, h =>
    have hf := hf.resolve_left (List.cons_ne_nil _ _)
    lawful_cons.mpr ⟨declaration_lawful hf (lawful_cons.mp h).1, lawful_nil⟩
  | .var _ (some value), _, _, ha, hf, h =>
    have hf := hf.resolve_left (List.cons_ne_nil _ _)
    have ⟨hname, hvalue⟩ := lawful_cons.mp h
    lawful_cons.mpr ⟨declaration_lawful hf hname,
      lawful_expr value (ha.declare _) (.inr (hf.declare _)) hvalue⟩
  | .block body, _, _, ha, _, h => lawful_stmts body (ha.blocks [] []) (facing_cons _) h
  | .ifElse condition thenBranch none, _, _, ha, hf, h =>
    have ⟨hcondition, hthen⟩ := lawful_append.mp h
    lawful_append.mpr ⟨lawful_expr condition ha (.inl rfl) hcondition,
      lawful_stmt thenBranch ha hf hthen⟩
  | .ifElse condition thenBranch (some elseBranch), _, _, ha, hf, h =>
    have hf' := hf.imp_left List.append_eq_nil_iff.mp
    have ⟨hbefore, helse⟩ := lawful_append.mp h
    have ⟨hcondition, hthen⟩ := lawful_append.mp hbefore
    lawful_append.mpr ⟨lawful_append.mpr ⟨lawful_expr condition ha (.inl rfl) hcondition,
      lawful_stmt thenBranch ha (hf'.imp_left And.left) hthen⟩,
      lawful_stmt elseBranch (ha.declareAll _)
        (hf'.imp And.right fun hf => hf.declareAll _) helse⟩
  | .while_ condition body, _, _, ha, hf, h =>
    have ⟨hcondition, hbody⟩ := lawful_append.mp h
    lawful_append.mpr ⟨lawful_expr condition ha (.inl rfl) hcondition, lawful_stmt body ha hf hbody⟩
  | .break_ _, _, _, _, _, _ => lawful_nil
  | .return_ _ none, _, _, ha, _, h =>
    lawful_cons.mpr ⟨return_lawful ha (lawful_cons.mp h).1, lawful_nil⟩
  | .return_ _ (some value), _, _, ha, _, h =>
    have ⟨hreturn, hvalue⟩ := lawful_cons.mp h
    lawful_cons.mpr ⟨return_lawful ha hreturn, lawful_expr value ha (.inl rfl) hvalue⟩
  | .function _ fn, _, _, ha, hf, h =>
    have hf := hf.resolve_left (List.cons_ne_nil _ _)
    have ⟨hname, hfn⟩ := lawful_cons.mp h
    lawful_cons.mpr ⟨declaration_lawful hf hname, lawful_function false fn (ha.declare _) hfn⟩
  | .class_ _ none declared, _, _, ha, hf, h =>
    have hf := hf.resolve_left (List.cons_ne_nil _ _)
    have ⟨hname, hmethods⟩ := lawful_cons.mp h
    lawful_cons.mpr ⟨declaration_lawful hf hname,
      lawful_methods declared ((ha.declare _).inClass _) hmethods⟩
  | .class_ _ (some _) declared, _, _, ha, hf, h =>
    have hf := hf.resolve_left (List.cons_ne_nil _ _)
    have ⟨hname, hrest⟩ := lawful_cons.mp h
    have ⟨hinherits, hrest⟩ := lawful_cons.mp hrest
    have ⟨hread, hmethods⟩ := lawful_cons.mp hrest
    lawful_cons.mpr ⟨declaration_lawful hf hname, lawful_cons.mpr ⟨hinherits,
      lawful_cons.mpr ⟨read_lawful (.inl rfl) hread,
        lawful_methods declared ((ha.declare _).inClass _) hmethods⟩⟩⟩

theorem lawful_stmts : ∀ (ss : List Stmt) {around around' : Enclosures}, Alike around around' →
    Facing around around' → Lawful (Occurrences.stmts around ss) →
      Lawful (Occurrences.stmts around' ss)
  | [], _, _, _, _, _ => lawful_nil
  | s :: ss, _, _, ha, hf, h =>
    have ⟨hhead, htail⟩ := lawful_append.mp h
    lawful_append.mpr ⟨lawful_stmt s ha (.inr hf) hhead,
      lawful_stmts ss (ha.declareAll _) (hf.declareAll _) htail⟩

theorem lawful_methods : ∀ (ms : List Method) {around around' : Enclosures}, Alike around around' →
    Lawful (Occurrences.methods around ms) → Lawful (Occurrences.methods around' ms)
  | [], _, _, _, _ => lawful_nil
  | ⟨_, fn⟩ :: ms, _, _, ha, h =>
    have ⟨hhead, htail⟩ := lawful_append.mp h
    lawful_append.mpr ⟨lawful_function _ fn ha hhead, lawful_methods ms ha htail⟩

end

/-! ## The clauses of a loop -/

/-- What declares nothing for those who watch it has no declarations in its branches either. -/
theorem declaredBy_of_none : ∀ (s : Stmt), Plain.stmt s → Watch.declared? s = none →
    declaredBy s = []
  | .expression _, _, _ => rfl
  | .print _, _, _ => rfl
  | .var _ _, _, h => nomatch h
  | .block _, _, _ => rfl
  | .ifElse _ thenBranch none, hplain, _ => declaredBy_of_none thenBranch hplain.2.2 hplain.2.1
  | .ifElse _ thenBranch (some elseBranch), hplain, _ => by
    rw [declaredBy, declaredBy_of_none thenBranch hplain.2.1.2 hplain.2.1.1,
      declaredBy_of_none elseBranch hplain.2.2.2 hplain.2.2.1, List.nil_append]
  | .while_ _ body, hplain, _ => declaredBy_of_none body hplain.2.2 hplain.2.1
  | .break_ _, _, _ => rfl
  | .return_ _ _, _, _ => rfl
  | .function _ _, _, h => nomatch h
  | .class_ _ _ _, _, h => nomatch h

/-- The clauses behind the initializer, and the body, break no rule. -/
structure LawfulClauses (around : Enclosures) (l : ForLoop) : Prop where
  condition : ∀ e ∈ l.condition, Lawful (Occurrences.expr around none e)
  body : Lawful (Occurrences.stmt around l.body)
  increment : ∀ e ∈ l.increment, Lawful (Occurrences.expr around none e)

variable {l : ForLoop}

theorem lawfulClauses_of_tree (hl : l.Formed) (ha : Alike around around')
    (h : Lawful (Occurrences.stmt around (.while_ l.treeCondition l.treeBody))) :
    LawfulClauses around' l := by
  have hnone := declaredBy_of_none l.body hl.body.2 hl.body.1
  obtain ⟨hcondition, hbody⟩ := lawful_append.mp h
  refine ⟨fun e he => ?_, ?_, fun e he => ?_⟩
  · rw [ForLoop.treeCondition, he] at hcondition
    exact lawful_expr e ha (.inl rfl) hcondition
  · unfold ForLoop.treeBody at hbody
    cases hincrement : l.increment with
    | none =>
      rw [hincrement] at hbody
      exact lawful_stmt l.body ha (.inl hnone) hbody
    | some step =>
      rw [hincrement] at hbody
      have hblock : Alike (.block [] :: around) around' := ⟨ha.function, ha.class_⟩
      exact lawful_stmt l.body hblock (.inl hnone) (lawful_append.mp hbody).1
  · rw [ForLoop.treeBody, he] at hbody
    have hblock : Alike (.block [] :: around) around' := ⟨ha.function, ha.class_⟩
    have hstep := (lawful_append.mp (lawful_append.mp hbody).2).1
    rw [hnone] at hstep
    exact lawful_expr e hblock (.inl rfl) hstep

theorem LawfulClauses.stmts (h : LawfulClauses around l) (hl : l.Formed) :
    Lawful (Occurrences.stmts around (l.condition.toList.map .expression ++ l.body ::
      l.increment.toList.map .expression)) := by
  have hnone := declaredBy_of_none l.body hl.body.2 hl.body.1
  have hrest : Lawful (Occurrences.stmts around
      (l.body :: l.increment.toList.map .expression)) := by
    refine lawful_append.mpr ⟨h.body, ?_⟩
    rw [hnone]
    cases hincrement : l.increment with
    | none => exact lawful_nil
    | some e => exact lawful_append.mpr ⟨h.increment e hincrement, lawful_nil⟩
  cases hcondition : l.condition with
  | none => exact hrest
  | some e => exact lawful_append.mpr ⟨h.condition e hcondition, hrest⟩

/-- A loop that breaks no rule in the tree of the grammar breaks none in one scope. -/
theorem lawful_scope (hl : l.Formed) (h : Lawful (Occurrences.stmt around l.tree)) :
    Lawful (Occurrences.stmt around l.scope) := by
  rw [ForLoop.tree_eq] at h
  unfold ForLoop.scope
  cases hinitializer : l.initializer with
  | none =>
    rw [hinitializer] at h
    have ha : Alike around (.block [] :: around) := ⟨rfl, rfl⟩
    exact (lawfulClauses_of_tree hl ha h).stmts hl
  | some s =>
    rw [hinitializer] at h
    obtain ⟨hs, hloop⟩ := lawful_append.mp h
    exact lawful_append.mpr ⟨hs, (lawfulClauses_of_tree hl ⟨rfl, rfl⟩
      (lawful_append.mp hloop).1).stmts hl⟩

end Lox.Scope
