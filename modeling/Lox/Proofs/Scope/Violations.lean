import Lox.Proofs.Scope.Rules
import Lox.Proofs.Scope.Walk

/-! # A walk reports what breaks the rules

What a walk has at hand of the place that it has reached is what encloses the
place, as far as the rules need it. So it reports each occurrence that breaks a
rule, in order, and nothing else. -/

namespace Lox.Scope

/-- The reports of the occurrences that break a rule. -/
def reports (occurrences : List Occurrence) : Array Diagnostic :=
  (occurrences.filterMap Occurrence.report?).toArray

@[simp] theorem reports_nil : reports [] = #[] := rfl

theorem reports_append (os os' : List Occurrence) :
    reports (os ++ os') = reports os ++ reports os' := by
  simp [reports]

/-- A walk past some occurrences has led from `w` to `w'`. -/
def Reports (os : List Occurrence) (w w' : Walk) : Prop :=
  w'.errors = w.errors ++ reports os

theorem Reports.of_eq {w w' : Walk} (h : w'.errors = w.errors) : Reports [] w w' := by
  simp [Reports, h]

theorem Reports.trans {os os' : List Occurrence} {w w' w'' : Walk} (h : Reports os w w')
    (h' : Reports os' w' w'') : Reports (os ++ os') w w'' := by
  unfold Reports at *
  rw [h', h, reports_append, Array.append_assoc]

/-- A step that reports an error if and only if an occurrence breaks the rule. -/
theorem Reports.single {o : Occurrence} {w w' : Walk} {error : ScopeError} {span : Span}
    {p : Prop} [Decidable p] (ho : o.violation? = if p then some (error, span) else none)
    (hw : w'.errors = if p then (w.note error span).errors else w.errors) :
    Reports [o] w w' := by
  by_cases hp : p <;> simp [Reports, reports, Occurrence.report?, ho, hp, hw, Walk.note]

/-! ## What a walk has at hand -/

namespace Enclosures

/-- Statements stand directly in the innermost enclosure, and it has a scope. -/
def Scoped : Enclosures → Prop
  | .block _ :: _ => True
  | .function _ _ :: _ => True
  | _ => False

variable {around : Enclosures} (name : String)

theorem scoped_declare : Scoped (around.declare name) ↔ Scoped around := by
  cases around with
  | nil => exact .rfl
  | cons enclosure around => cases enclosure <;> exact .rfl

theorem Scoped.declared_declare (h : Scoped around) :
    (around.declare name).declared = around.declared ++ [name] := by
  cases around with
  | nil => exact h.elim
  | cons enclosure around => cases enclosure <;> first | rfl | exact h.elim

/-- Behind its declaration, a variable lacks its value unless it was there before. -/
theorem Scoped.uninitialized_declare (h : Scoped around) (other : String) :
    (around.declare name).Uninitialized (some name) other ↔
      name = other ∧ name ∉ around.declared := by
  unfold Uninitialized
  rw [h.declared_declare, Option.some.injEq]
  refine and_congr_right fun heq => ?_
  rw [← heq, List.count_append, List.count_singleton_self, Nat.add_eq_right,
    List.count_eq_zero]

theorem not_uninitialized_none : ¬around.Uninitialized none name := by simp [Uninitialized]

@[simp] theorem function?_declare : (around.declare name).function? = around.function? := by
  cases around with
  | nil => rfl
  | cons enclosure around => cases enclosure <;> rfl

@[simp] theorem class?_declare : (around.declare name).class? = around.class? := by
  cases around with
  | nil => rfl
  | cons enclosure around => cases enclosure <;> rfl

theorem declareAll_append (names names' : List String) :
    around.declareAll (names ++ names') = (around.declareAll names).declareAll names' :=
  List.foldl_append

end Enclosures

/-- The kind of function that a walk has at hand is that of the innermost function. -/
structure InFunction (around : Enclosures) (w : Walk) : Prop where
  none : w.function = .none ↔ around.function? = none
  initializer : w.function = .initializer ↔ around.function? = some true

/-- The kind of class that a walk has at hand is that of the innermost class. -/
def InClass (around : Enclosures) (w : Walk) : Prop :=
  w.class_ = match around.class? with
    | none => .none
    | some false => .plain
    | some true => .subclass

/-- The innermost scope that a walk has at hand has the names that are declared
so far, and all of them have their values but the variable that is being initialized. -/
inductive InScope (around : Enclosures) (initializing : Option String) (scopes : List Names) : Prop
  | global : around = [] → scopes = [] → InScope around initializing scopes
  | scope (scope : Names) (outer : List Names) : around.Scoped → scopes = scope :: outer →
    (∀ name, scope.get? name =
      if name ∈ around.declared then some (!decide (around.Uninitialized initializing name))
      else none) → InScope around initializing scopes

/-- What a walk has at hand is what encloses the place that it has reached. -/
structure Fits (around : Enclosures) (initializing : Option String) (w : Walk) : Prop where
  function : InFunction around w
  class_ : InClass around w
  scopes : InScope around initializing w.scopes

variable {around : Enclosures} {initializing : Option String} {w w' : Walk} {ids : List Nat}

theorem Fits.looked (h : Fits around initializing w) (hw : Looked ids w w') :
    Fits around initializing w' where
  function := ⟨hw.function ▸ h.function.none, hw.function ▸ h.function.initializer⟩
  class_ := hw.class_.trans h.class_
  scopes := hw.scopes ▸ h.scopes

theorem Fits.start : Fits [] none .start where
  function := ⟨by simp [Walk.start, Enclosures.function?], by simp [Walk.start, Enclosures.function?]⟩
  class_ := rfl
  scopes := .global rfl rfl

/-! ## Single steps -/

/-- What a declaration leaves of what a walk has at hand. -/
theorem Fits.behind (h : Fits around initializing w) (name : String) (hw : Walked ids w w')
    {initializing' : Option String}
    (hscopes : InScope (around.declare name) initializing' w'.scopes) :
    Fits (around.declare name) initializing' w' where
  function := by
    constructor
    · rw [hw.function, Enclosures.function?_declare, h.function.none]
    · rw [hw.function, Enclosures.function?_declare, h.function.initializer]
  class_ := by
    unfold InClass
    rw [hw.class_, Enclosures.class?_declare, h.class_]
  scopes := hscopes

theorem reports_declare (h : InScope around none w.scopes) (name : Ident) :
    Reports [⟨around, .declaration name⟩] w (w.declare name) := by
  refine .single rfl ?_
  unfold Walk.declare
  cases h with
  | global hnil hscopes => simp [hnil, hscopes, Enclosures.declared]
  | scope scope outer hscoped hscopes hget =>
    rw [hscopes]
    by_cases hmem : name.text ∈ around.declared <;> simp [Bindings.contains, hget, hmem]

theorem InScope.declare (h : InScope around none w.scopes) (name : Ident) :
    InScope (around.declare name.text) (some name.text) (w.declare name).scopes := by
  unfold Walk.declare
  cases h with
  | global hnil hscopes => exact .global (by rw [hnil]; rfl) (by rw [hscopes]; exact hscopes)
  | scope scope outer hscoped hscopes hget =>
    have hscoped' := Enclosures.scoped_declare name.text |>.mpr hscoped
    rw [hscopes]
    by_cases hmem : name.text ∈ around.declared
    · refine .scope scope outer hscoped' ?_ fun other => ?_
      · simp [Bindings.contains, hget, hmem, Walk.note, hscopes]
      · rw [hget]
        simp only [hscoped.uninitialized_declare, hscoped.declared_declare, hmem,
          Enclosures.not_uninitialized_none, List.mem_append, List.mem_singleton]
        by_cases heq : other = name.text <;> simp [heq, hmem]
    · refine .scope (scope.insert name.text false) outer hscoped' ?_ fun other => ?_
      · simp [Bindings.contains, hget, hmem]
      · rw [Bindings.get?_insert, hget]
        simp only [hscoped.uninitialized_declare, hscoped.declared_declare, hmem,
          Enclosures.not_uninitialized_none, List.mem_append, List.mem_singleton]
        by_cases heq : name.text = other
        · simp [heq]
        · simp [heq, Ne.symm heq]

/-- Once it has its value, a variable is like the others. -/
theorem InScope.define {name : String}
    (h : InScope (around.declare name) (some name) w.scopes) :
    InScope (around.declare name) none (w.define name).scopes := by
  unfold Walk.define
  cases h with
  | global hnil hscopes => exact .global hnil (by rw [hscopes]; exact hscopes)
  | scope scope outer hscoped hscopes hget =>
    rw [hscopes]
    refine .scope (scope.insert name true) outer hscoped rfl fun other => ?_
    have hdeclared := ((Enclosures.scoped_declare name).mp hscoped).declared_declare name
    rw [Bindings.get?_insert, hget]
    by_cases heq : name = other
    · subst heq
      have hmem : name ∈ (around.declare name).declared := by simp [hdeclared]
      simp [hmem, Enclosures.not_uninitialized_none]
    · have hother : ¬(around.declare name).Uninitialized (some name) other :=
        fun hun => heq (Option.some.inj hun.1)
      simp [heq, hother, Enclosures.not_uninitialized_none]

theorem InScope.introduce (h : InScope around none w.scopes) (name : Ident) :
    InScope (around.declare name.text) none (w.introduce name).scopes :=
  (h.declare name).define

theorem Fits.introduce (h : Fits around none w) (name : Ident) :
    Fits (around.declare name.text) none (w.introduce name) :=
  h.behind name.text (walked_introduce name) (h.scopes.introduce name)

theorem define_errors (w : Walk) (name : String) : (w.define name).errors = w.errors := by
  unfold Walk.define
  split <;> rfl

theorem use_errors (w : Walk) (id : Nat) (name : String) : (w.use id name).errors = w.errors := by
  unfold Walk.use
  split <;> rfl

theorem reports_introduce (h : InScope around none w.scopes) (name : Ident) :
    Reports [⟨around, .declaration name⟩] w (w.introduce name) :=
  (define_errors _ _).trans (reports_declare h name)

theorem reports_checkRead (h : InScope around initializing w.scopes) (name : Ident) :
    Reports [⟨around, .read name initializing⟩] w (w.checkRead name) := by
  refine .single rfl ?_
  unfold Walk.checkRead
  cases h with
  | global hnil hscopes => simp [hnil, hscopes, Enclosures.Uninitialized, Enclosures.declared]
  | scope scope outer hscoped hscopes hget =>
    rw [hscopes]
    by_cases hun : around.Uninitialized initializing name.text
    · have hmem : name.text ∈ around.declared := List.count_pos_iff.mp (by rw [hun.2]; decide)
      simp [hget, hun, hmem]
    · simp [hget, hun]

theorem reports_read (h : InScope around initializing w.scopes) (target : Reference) :
    Reports [⟨around, .read target.name initializing⟩] w
      ((w.checkRead target.name).use target.id target.name.text) :=
  (use_errors _ _ _).trans (reports_checkRead h target.name)

theorem reports_this (h : InClass around w) (id : Nat) (keyword : Span) :
    Reports [⟨around, .this keyword⟩] w
      (if w.class_ = .none then w.note .thisOutsideClass keyword else w.use id "this") := by
  refine .single rfl ?_
  unfold InClass at h
  rw [h]
  rcases around.class? with _ | _ | _ <;> simp [use_errors]

theorem reports_super (h : InClass around w) (id : Nat) (keyword : Span) :
    Reports [⟨around, .super keyword⟩] w ((w.checkSuper keyword).use id "super") := by
  unfold InClass at h
  simp only [Reports, reports, List.filterMap_cons, List.filterMap_nil, Occurrence.report?,
    Occurrence.violation?, use_errors, Walk.checkSuper]
  rw [h]
  rcases around.class? with _ | _ | _ <;> simp [Walk.note]

theorem reports_return (h : InFunction around w) (keyword : Span) :
    Reports [⟨around, .return_ keyword false⟩] w (w.checkReturn keyword) := by
  have houtside := h.none
  simp only [Reports, reports, List.filterMap_cons, List.filterMap_nil, Occurrence.report?,
    Occurrence.violation?, Walk.checkReturn]
  cases hfunction : around.function? with
  | none => simp [houtside.mpr hfunction, Walk.note]
  | some isInitializer => simp [houtside, hfunction]

theorem reports_returnValue (h : InFunction around w) (keyword : Span) :
    Reports [⟨around, .return_ keyword true⟩] w
      ((w.checkReturn keyword).checkReturnValue keyword) := by
  have houtside := h.none
  have hinitializer := h.initializer
  simp only [Reports, reports, List.filterMap_cons, List.filterMap_nil, Occurrence.report?,
    Occurrence.violation?, Walk.checkReturn, Walk.checkReturnValue]
  cases hfunction : around.function? with
  | none => simp [houtside.mpr hfunction, Walk.note]
  | some isInitializer => cases isInitializer <;> simp [houtside, hinitializer, hfunction, Walk.note]

theorem reports_inheritance (around : Enclosures) (w : Walk) (name parent : Ident) :
    Reports [⟨around, .inheritance name parent⟩] w (w.checkInheritance name parent) :=
  .single rfl (apply_ite Walk.errors ..)

/-! ## Trees -/

theorem fits_params (names : List Ident) (h : Fits around none w) :
    Reports (Occurrences.params around names) w (names.foldl Walk.introduce w) ∧
      Fits (around.declareAll (names.map Ident.text)) none (names.foldl Walk.introduce w) := by
  induction names generalizing around w with
  | nil => exact ⟨.of_eq rfl, h⟩
  | cons name names ih =>
    obtain ⟨hreports, hfits⟩ := ih (h.introduce name)
    exact ⟨(reports_introduce h.scopes name).trans hreports, hfits⟩

/-- The place at the start of a function. -/
theorem Fits.enter (h : InClass around w) {kind : FunctionKind} {isInitializer : Bool}
    (hnone : kind ≠ .none) (hkind : kind = .initializer ↔ isInitializer = true) :
    Fits (.function isInitializer [] :: around) none { w with function := kind }.openScope where
  function := ⟨by simp [Walk.openScope, hnone, Enclosures.function?],
    by simp [Walk.openScope, hkind, Enclosures.function?]⟩
  class_ := h
  scopes := .scope .empty w.scopes trivial rfl fun name => by simp [Enclosures.declared]

/-- The place at the start of a block. -/
theorem Fits.block (h : Fits around none w) : Fits (.block [] :: around) none w.openScope where
  function := ⟨h.function.none, h.function.initializer⟩
  class_ := h.class_
  scopes := .scope .empty w.scopes trivial rfl fun name => by simp [Enclosures.declared]

mutual

theorem reports_expr : ∀ (e : Expr) {around : Enclosures} {initializing : Option String}
    {w : Walk}, Fits around initializing w →
    Reports (Occurrences.expr around initializing e) w (expr e w)
  | .literal .., _, _, _, _ => .of_eq rfl
  | .grouping inner _, _, _, _, h => reports_expr inner h
  | .unary _ _ operand, _, _, _, h => reports_expr operand h
  | .binary left _ _ right, _, _, w, h =>
    (reports_expr left h).trans (reports_expr right (h.looked (looked_expr left w)))
  | .logical left _ _ right, _, _, w, h =>
    (reports_expr left h).trans (reports_expr right (h.looked (looked_expr left w)))
  | .var target, _, _, _, h => reports_read h.scopes target
  | .assign target value, _, _, _, h => (use_errors _ _ _).trans (reports_expr value h)
  | .call callee _ arguments, _, _, w, h =>
    (reports_expr callee h).trans (reports_exprs arguments (h.looked (looked_expr callee w)))
  | .get object _, _, _, _, h => reports_expr object h
  | .set object _ value, _, _, w, h =>
    (reports_expr value h).trans (reports_expr object (h.looked (looked_expr value w)))
  | .this id span, _, _, _, h => reports_this h.class_ id span
  | .super id keyword _, _, _, _, h => reports_super h.class_ id keyword
  | .lambda fn, _, _, _, h => reports_function fn h.class_ (by decide) (by decide)

theorem reports_exprs : ∀ (es : List Expr) {around : Enclosures} {initializing : Option String}
    {w : Walk}, Fits around initializing w →
    Reports (Occurrences.exprs around initializing es) w (exprs es w)
  | [], _, _, _, _ => .of_eq rfl
  | e :: es, _, _, w, h =>
    (reports_expr e h).trans (reports_exprs es (h.looked (looked_expr e w)))

theorem reports_function : ∀ (fn : Lambda) {around : Enclosures} {w : Walk}
    {kind : FunctionKind} {isInitializer : Bool}, InClass around w → kind ≠ .none →
    (kind = .initializer ↔ isInitializer = true) →
    Reports (Occurrences.function around isInitializer fn) w (function kind fn w)
  | ⟨names, body, _⟩, _, w, _, _, h, hnone, hkind => by
    obtain ⟨hparams, hfits⟩ := fits_params names (Fits.enter h hnone hkind)
    exact hparams.trans (reports_stmts body hfits)

theorem reports_stmt : ∀ (s : Stmt) {around : Enclosures} {w : Walk}, Fits around none w →
    Reports (Occurrences.stmt around s) w (stmt s w) ∧
      Fits (around.declareAll (declaredBy s)) none (stmt s w)
  | .expression value, _, w, h => ⟨reports_expr value h, h.looked (looked_expr value w)⟩
  | .print value, _, w, h => ⟨reports_expr value h, h.looked (looked_expr value w)⟩
  | .var name none, _, _, h => ⟨reports_introduce h.scopes name, h.introduce name⟩
  | .var name (some value), _, w, h => by
    have hname := h.behind name.text (walked_declare name) (h.scopes.declare name)
    have hread := hname.looked (looked_expr value (w.declare name))
    refine ⟨(define_errors _ _).trans ((reports_declare h.scopes name).trans
      (reports_expr value hname)), ?_⟩
    exact h.behind name.text (walked_stmt (.var name (some value)) w) hread.scopes.define
  | .block body, _, w, h =>
    ⟨reports_stmts body h.block, h.looked (walked_stmts body w.openScope).closeScope⟩
  | .ifElse condition thenBranch none, _, w, h => by
    have hcondition := h.looked (looked_expr condition w)
    obtain ⟨hthen, hfits⟩ := reports_stmt thenBranch hcondition
    exact ⟨(reports_expr condition h).trans hthen, hfits⟩
  | .ifElse condition thenBranch (some elseBranch), _, w, h => by
    have hcondition := h.looked (looked_expr condition w)
    obtain ⟨hthen, hfits⟩ := reports_stmt thenBranch hcondition
    obtain ⟨helse, hfits'⟩ := reports_stmt elseBranch hfits
    refine ⟨((reports_expr condition h).trans hthen).trans helse, ?_⟩
    rw [declaredBy, Enclosures.declareAll_append]
    exact hfits'
  | .while_ condition body, _, w, h => by
    obtain ⟨hbody, hfits⟩ := reports_stmt body (h.looked (looked_expr condition w))
    exact ⟨(reports_expr condition h).trans hbody, hfits⟩
  | .break_ _, _, _, h => ⟨.of_eq rfl, h⟩
  | .return_ keyword none, _, _, h =>
    ⟨reports_return h.function keyword, h.looked (looked_checkReturn keyword)⟩
  | .return_ keyword (some value), _, w, h => by
    have hcheck := (looked_checkReturn (w := w) keyword).trans (looked_checkReturnValue keyword)
    exact ⟨(reports_returnValue h.function keyword).trans (reports_expr value (h.looked hcheck)),
      h.looked (hcheck.trans (looked_expr value _))⟩
  | .function name fn, _, w, h => by
    have hname := h.introduce name
    exact ⟨(reports_introduce h.scopes name).trans (reports_function fn hname.class_ (by decide) (by decide)),
      hname.looked (looked_function .function fn _)⟩
  | .class_ name none declared, around, w, h => by
    let named := { w with class_ := .plain }.introduce name
    have hscope : InScope around none { w with class_ := ClassKind.plain }.scopes := h.scopes
    have hthis := walked_define (w := named.openScope) "this"
    have hclosed := (hthis.trans (walked_methods declared _)).closeScope
    have hclass : InClass (.class_ false :: around.declare name.text)
        (named.openScope.define "this") := hthis.class_.trans (walked_introduce name).class_
    have hinside : (named.openScope.define "this").errors = named.errors :=
      define_errors named.openScope "this"
    constructor
    · exact (reports_introduce hscope name).trans
        ((Reports.of_eq hinside).trans (reports_methods declared hclass))
    · exact h.behind name.text (walked_stmt (.class_ name none declared) w)
        (hclosed.scopes ▸ hscope.introduce name)
  | .class_ name (some parent) declared, around, w, h => by
    let named := { w with class_ := .subclass }.introduce name
    let checked := named.checkInheritance name parent.name
    let read := (checked.checkRead parent.name).use parent.id parent.name.text
    let inside := (read.openScope.define "super").openScope
    have hscope : InScope around none { w with class_ := ClassKind.subclass }.scopes := h.scopes
    have hnamed := hscope.introduce name
    have hchecked : Looked [] named checked := looked_checkInheritance name parent.name
    have hread : Looked _ named read :=
      hchecked.trans ((looked_checkRead parent.name).trans (looked_use parent.id parent.name.text))
    have hsuper := walked_define (w := read.openScope) "super"
    have hthis := walked_define (w := inside) "this"
    have hclosed := (hsuper.trans
      (hthis.trans (walked_methods declared _)).closeScope.toWalked).closeScope
    have hclass : InClass (.class_ true :: around.declare name.text) (inside.define "this") :=
      hthis.class_.trans (hsuper.class_.trans (hread.class_.trans (walked_introduce name).class_))
    have hinside : (inside.define "this").errors = read.errors :=
      (define_errors inside "this").trans (define_errors read.openScope "super")
    constructor
    · exact (reports_introduce hscope name).trans
        ((reports_inheritance (around.declare name.text) named name parent.name).trans
          ((reports_read (hchecked.scopes ▸ hnamed) parent).trans
            ((Reports.of_eq hinside).trans (reports_methods declared hclass))))
    · exact h.behind name.text (walked_stmt (.class_ name (some parent) declared) w)
        (hclosed.scopes ▸ hread.scopes ▸ hnamed)

theorem reports_stmts : ∀ (ss : List Stmt) {around : Enclosures} {w : Walk}, Fits around none w →
    Reports (Occurrences.stmts around ss) w (stmts ss w)
  | [], _, _, _ => .of_eq rfl
  | s :: ss, _, _, h => by
    obtain ⟨hs, hfits⟩ := reports_stmt s h
    exact hs.trans (reports_stmts ss hfits)

theorem reports_methods : ∀ (ms : List Method) {around : Enclosures} {w : Walk},
    InClass around w → Reports (Occurrences.methods around ms) w (methods ms w)
  | [], _, _, _ => .of_eq rfl
  | ⟨name, fn⟩ :: ms, _, w, h => by
    have hfn := looked_function (methodKind name.text) fn w
    refine (reports_function fn h ?_ ?_).trans (reports_methods ms (hfn.class_.trans h))
    · unfold methodKind
      split <;> decide
    · by_cases hname : name.text = initializerName <;> simp [methodKind, hname]

end

/-- A walk reports exactly the occurrences that break a rule, one report each and
in order. -/
theorem reports_exactly_violations (ss : List Stmt) :
    (program ss).errors = reports (Occurrences.stmts [] ss) :=
  Eq.trans (reports_stmts ss .start) (Array.empty_append ..)

/-- So does a walk over an expression that stands alone. -/
theorem reports_wholeExpression (e : Expr) :
    (wholeExpression e).errors = reports (Occurrences.expr [] none e) :=
  Eq.trans (reports_expr e .start) (Array.empty_append ..)

end Lox.Scope
