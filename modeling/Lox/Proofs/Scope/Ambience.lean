import Lox.Proofs.Heap.Growth
import Lox.Proofs.Scope.Records
import Lox.Proofs.Scope.Rules
import Lox.Proofs.Scope.Unrepeated
import Lox.Proofs.Syntax.Nodes
import Lox.Scope.Walk
import Lox.Session
import Mathlib.Data.List.Perm.Subperm

/-! # What a walk adds, and what it finds again

A walk only ever appends: to what has been found, and to the errors. What it
appends does not depend on what stands there already, so a walk can be taken
apart where its scopes are the same. Each node is found at most once.

A walk gives its surroundings back, whatever rules are broken on the way. An
expression changes no scope. A statement changes the innermost one only, by the
names that it declares there itself, and these have their values afterwards.

Outside every scope nothing is changed at all. The statements of a program are
therefore walked independently of each other, and a program may be handed over in
pieces. -/

namespace Lox.Scope

/-- A walk with more findings and errors in front of its own. -/
def Walk.behind (w : Walk) (found : Array (Nat × Nat)) (errors : Array Diagnostic) : Walk :=
  { w with found := found ++ w.found, errors := errors ++ w.errors }

/-- A walk that goes on with more findings and errors. -/
def Walk.ahead (w : Walk) (found : Array (Nat × Nat)) (errors : Array Diagnostic) : Walk :=
  { w with found := w.found ++ found, errors := w.errors ++ errors }

/-- A piece of a walk does not look at what was found before it, and finds nodes
with these numbers, each of them no more often than it stands there. -/
structure Adds (ids : List Nat) (piece : Walk → Walk) : Prop where
  behind : ∀ w found errors, piece (w.behind found errors) = (piece w).behind found errors
  found : ∀ w, ∃ new : List (Nat × Nat),
    (piece w).found.toList = w.found.toList ++ new ∧ (new.map Prod.fst).Subperm ids

variable {ids ids' : List Nat} {piece piece' : Walk → Walk}

theorem adds_of_still (hbehind : ∀ w found errors,
      piece (w.behind found errors) = (piece w).behind found errors)
    (hfound : ∀ w, (piece w).found = w.found) : Adds [] piece where
  behind := hbehind
  found w := ⟨[], by rw [hfound, List.append_nil], .refl _⟩

theorem adds_id : Adds [] fun w => w := adds_of_still (fun _ _ _ => rfl) fun _ => rfl

theorem Adds.trans (h : Adds ids piece) (h' : Adds ids' piece') :
    Adds (ids ++ ids') fun w => piece' (piece w) where
  behind w found errors := by rw [h.behind, h'.behind]
  found w := by
    obtain ⟨new, hnew, hsub⟩ := h.found w
    obtain ⟨new', hnew', hsub'⟩ := h'.found (piece w)
    refine ⟨new ++ new', ?_, ?_⟩
    · rw [hnew', hnew, List.append_assoc]
    · rw [List.map_append]
      exact hsub.append hsub'

theorem Adds.of_subperm (h : Adds ids piece) (hsub : ids.Subperm ids') : Adds ids' piece where
  behind := h.behind
  found w := by
    obtain ⟨new, hnew, hnewSub⟩ := h.found w
    exact ⟨new, hnew, hnewSub.trans hsub⟩

theorem Adds.of_eq (h : Adds ids piece) (heq : ids' = ids) : Adds ids' piece := heq ▸ h

/-! ## Single steps -/

theorem adds_note (error : ScopeError) (span : Span) : Adds [] (·.note error span) :=
  adds_of_still (fun w found errors => by simp [Walk.note, Walk.behind]) fun _ => rfl

theorem adds_openScope : Adds [] Walk.openScope := adds_of_still (fun _ _ _ => rfl) fun _ => rfl

theorem adds_closeScope : Adds [] Walk.closeScope := adds_of_still (fun _ _ _ => rfl) fun _ => rfl

/-- A step that notes a broken rule or does nothing, by what it sees around it. -/
theorem adds_ite {p : Walk → Prop} [DecidablePred p]
    (hp : ∀ w found errors, p (w.behind found errors) ↔ p w)
    (h : Adds ids piece) (h' : Adds ids piece') :
    Adds ids fun w => if p w then piece w else piece' w where
  behind w found errors := by
    simp only [hp]
    split
    · exact h.behind w found errors
    · exact h'.behind w found errors
  found w := by
    split
    · exact h.found w
    · exact h'.found w

theorem adds_declare (name : Ident) : Adds [] (·.declare name) := by
  refine adds_of_still (fun w found errors => ?_) fun w => ?_
  · simp only [Walk.declare, Walk.behind]
    split
    · rfl
    · split
      · exact (adds_note _ _).behind w found errors
      · rfl
  · unfold Walk.declare
    split
    · rfl
    · split <;> rfl

theorem adds_define (name : String) : Adds [] (·.define name) := by
  refine adds_of_still (fun w found errors => ?_) fun w => ?_
  · simp only [Walk.define, Walk.behind]
    split <;> rfl
  · unfold Walk.define
    split <;> rfl

theorem adds_introduce (name : Ident) : Adds [] (·.introduce name) :=
  (adds_declare name).trans (adds_define name.text)

theorem adds_params : ∀ params : List Ident, Adds [] fun w => params.foldl Walk.introduce w
  | [] => adds_id
  | name :: params => (adds_introduce name).trans (adds_params params)

theorem adds_use (id : Nat) (name : String) : Adds [id] (·.use id name) where
  behind w found errors := by
    simp only [Walk.use, Walk.distance?, Walk.behind]
    split
    · rw [Array.append_push]
    · rfl
  found w := by
    unfold Walk.use
    split
    · next hops _ => exact ⟨[(id, hops)], Array.toList_push .., .refl _⟩
    · exact ⟨[], (List.append_nil _).symm, List.nil_subperm⟩

theorem adds_checkRead (name : Ident) : Adds [] (·.checkRead name) := by
  refine adds_of_still (fun w found errors => ?_) fun w => ?_
  · simp only [Walk.checkRead, Walk.behind]
    split
    · split
      · exact (adds_note _ _).behind w found errors
      · rfl
    · rfl
  · unfold Walk.checkRead
    split
    · split <;> rfl
    · rfl

theorem adds_checkSuper (keyword : Span) : Adds [] (·.checkSuper keyword) := by
  refine adds_of_still (fun w found errors => ?_) fun w => ?_
  · simp only [Walk.checkSuper, Walk.behind]
    split
    · exact (adds_note _ _).behind w found errors
    · exact (adds_note _ _).behind w found errors
    · rfl
  · unfold Walk.checkSuper
    split <;> rfl

theorem adds_checkReturn (keyword : Span) : Adds [] (·.checkReturn keyword) :=
  adds_ite (fun _ _ _ => .rfl) (adds_note _ _) adds_id

theorem adds_checkReturnValue (keyword : Span) : Adds [] (·.checkReturnValue keyword) :=
  adds_ite (fun _ _ _ => .rfl) (adds_note _ _) adds_id

theorem adds_checkInheritance (name parent : Ident) : Adds [] (·.checkInheritance name parent) :=
  adds_ite (fun _ _ _ => .rfl) (adds_note _ _) adds_id

theorem adds_this (id : Nat) (span : Span) : Adds [id] fun w =>
    if w.class_ = .none then w.note .thisOutsideClass span else w.use id "this" :=
  adds_ite (fun _ _ _ => .rfl) ((adds_note _ _).of_subperm List.nil_subperm) (adds_use id _)

/-- What is walked in a scope of its own. -/
theorem Adds.inScope (h : Adds ids piece) : Adds ids fun w => (piece w.openScope).closeScope :=
  ((adds_openScope.trans h).trans adds_closeScope).of_eq (List.append_nil _).symm

/-- What is walked in another kind of function. -/
theorem Adds.within_function (kind : FunctionKind) (h : Adds ids piece) :
    Adds ids fun w => { piece { w with function := kind } with function := w.function } where
  behind w found errors := by
    have := h.behind { w with function := kind } found errors
    exact congrArg (fun w' : Walk => { w' with function := w.function }) this
  found w := h.found { w with function := kind }

/-- What is walked in another kind of class. -/
theorem Adds.within_class (kind : ClassKind) (h : Adds ids piece) :
    Adds ids fun w => { piece { w with class_ := kind } with class_ := w.class_ } where
  behind w found errors := by
    have := h.behind { w with class_ := kind } found errors
    exact congrArg (fun w' : Walk => { w' with class_ := w.class_ }) this
  found w := h.found { w with class_ := kind }

/-! ## Trees -/

mutual

theorem adds_expr : ∀ e : Expr, Adds (Nodes.expr [] e) (expr e)
  | .literal .. => adds_id
  | .grouping inner _ => adds_expr inner
  | .unary _ _ operand => adds_expr operand
  | .binary left _ _ right =>
    ((adds_expr left).trans (adds_expr right)).of_eq (Nodes.expr_append left _)
  | .logical left _ _ right =>
    ((adds_expr left).trans (adds_expr right)).of_eq (Nodes.expr_append left _)
  | .var target => (adds_checkRead target.name).trans (adds_use target.id _)
  | .assign target value =>
    ((adds_expr value).trans (adds_use target.id _)).of_subperm
      (List.perm_append_singleton target.id (Nodes.expr [] value)).subperm
  | .call callee _ arguments =>
    ((adds_expr callee).trans (adds_exprs arguments)).of_eq (Nodes.expr_append callee _)
  | .get object _ => adds_expr object
  | .set object _ value => by
    refine ((adds_expr value).trans (adds_expr object)).of_subperm ?_
    rw [Nodes.expr, Nodes.expr_append object (Nodes.expr [] value)]
    exact List.perm_append_comm.subperm
  | .this id span => adds_this id span
  | .super id keyword _ => (adds_checkSuper keyword).trans (adds_use id _)
  | .lambda fn => adds_function .function fn

theorem adds_exprs : ∀ es : List Expr, Adds (Nodes.exprs [] es) (exprs es)
  | [] => adds_id
  | e :: es => ((adds_expr e).trans (adds_exprs es)).of_eq (Nodes.expr_append e _)

theorem adds_function (kind : FunctionKind) : ∀ fn : Lambda,
    Adds (Nodes.lambda [] fn) (function kind fn)
  | ⟨params, body, _⟩ => ((adds_params params).trans (adds_stmts body)).inScope.within_function kind

theorem adds_stmt : ∀ s : Stmt, Adds (Nodes.stmt [] s) (stmt s)
  | .expression value => adds_expr value
  | .print value => adds_expr value
  | .var name none => adds_introduce name
  | .var name (some value) =>
    (((adds_declare name).trans (adds_expr value)).trans (adds_define name.text)).of_eq
      (List.append_nil _).symm
  | .block body => (adds_stmts body).inScope
  | .ifElse condition thenBranch none =>
    ((adds_expr condition).trans (adds_stmt thenBranch)).of_eq (Nodes.expr_append condition _)
  | .ifElse condition thenBranch (some elseBranch) => by
    refine ((adds_expr condition).trans
      ((adds_stmt thenBranch).trans (adds_stmt elseBranch))).of_eq ?_
    rw [Nodes.stmt, Nodes.stmt_append thenBranch, Nodes.expr_append condition]
  | .while_ condition body =>
    ((adds_expr condition).trans (adds_stmt body)).of_eq (Nodes.expr_append condition _)
  | .break_ _ => adds_id
  | .return_ keyword none => adds_checkReturn keyword
  | .return_ keyword (some value) =>
    ((adds_checkReturn keyword).trans (adds_checkReturnValue keyword)).trans (adds_expr value)
  | .function name fn => (adds_introduce name).trans (adds_function .function fn)
  | .class_ name none declared =>
    ((adds_introduce name).trans
      ((adds_define "this").trans (adds_methods declared)).inScope).within_class .plain
  | .class_ name (some parent) declared =>
    ((adds_introduce name).trans (((adds_checkInheritance name parent.name).trans
      (adds_checkRead parent.name)).trans ((adds_use parent.id parent.name.text).trans
        ((adds_define "super").trans
          ((adds_define "this").trans (adds_methods declared)).inScope).inScope))).within_class
      .subclass

theorem adds_stmts : ∀ ss : List Stmt, Adds (Nodes.stmts [] ss) (stmts ss)
  | [] => adds_id
  | s :: ss => ((adds_stmt s).trans (adds_stmts ss)).of_eq (Nodes.stmt_append s _)

theorem adds_methods : ∀ ms : List Method, Adds (Nodes.methods [] ms) (methods ms)
  | [] => adds_id
  | ⟨name, fn⟩ :: ms =>
    ((adds_function (methodKind name.text) fn).trans (adds_methods ms)).of_eq
      (Nodes.lambda_append fn _)

end

/-! ## Scopes that are given back -/

/-- The scopes after names have been given their values in the innermost one. -/
def withNames (names : List String) : List Names → List Names
  | [] => []
  | top :: outer => names.foldl (fun scope name => scope.insert name true) top :: outer

@[simp] theorem withNames_nil (scopes : List Names) : withNames [] scopes = scopes := by
  cases scopes <;> rfl

theorem withNames_append (names names' : List String) (scopes : List Names) :
    withNames (names ++ names') scopes = withNames names' (withNames names scopes) := by
  cases scopes with
  | nil => rfl
  | cons top outer => simp [withNames]

theorem length_withNames (names : List String) (scopes : List Names) :
    (withNames names scopes).length = scopes.length := by
  cases scopes <;> rfl

/-- Names are added, and none is taken away or left without its value. -/
theorem get?_foldl_insert (names : List String) (top : Names) (name : String) :
    (names.foldl (fun scope name => scope.insert name true) top).get? name =
      if name ∈ names then some true else top.get? name := by
  induction names generalizing top with
  | nil => simp
  | cons other names ih =>
    rw [List.foldl_cons, ih, Bindings.get?_insert]
    by_cases hmem : name ∈ names
    · simp [hmem]
    · simp [hmem, eq_comm]

/-! ## Statements -/

theorem scopes_define (w : Walk) (name : String) :
    (w.define name).scopes = withNames [name] w.scopes := by
  unfold Walk.define
  cases hscopes : w.scopes with
  | nil => exact hscopes
  | cons top outer => rfl

/-- Declaring a name makes no difference once the name has got its value. -/
theorem withNames_declare (w : Walk) (name : Ident) :
    withNames [name.text] (w.declare name).scopes = withNames [name.text] w.scopes := by
  unfold Walk.declare
  cases hscopes : w.scopes with
  | nil => exact congrArg (withNames [name.text]) hscopes
  | cons top outer =>
    by_cases hknown : top.contains name.text = true
    · simp [hknown, Walk.note, hscopes]
    · simp [hknown, withNames, Bindings.insert_insert]

theorem scopes_introduce (w : Walk) (name : Ident) :
    (w.introduce name).scopes = withNames [name.text] w.scopes :=
  (scopes_define ..).trans (withNames_declare w name)

/-- The scopes after a statement are those before it, with what it declares. -/
theorem scopes_after_stmt : ∀ (s : Stmt) (w : Walk),
    (stmt s w).scopes = withNames (declaredBy s) w.scopes
  | .expression value, w => by
    rw [declaredBy, withNames_nil]
    exact (looked_expr value w).scopes
  | .print value, w => by
    rw [declaredBy, withNames_nil]
    exact (looked_expr value w).scopes
  | .var name none, w => scopes_introduce w name
  | .var name (some value), w =>
    (scopes_define ..).trans ((congrArg _ (looked_expr value (w.declare name)).scopes).trans
      (withNames_declare w name))
  | .block body, w => by
    rw [declaredBy, withNames_nil]
    exact (walked_stmts body w.openScope).closeScope.scopes
  | .ifElse condition thenBranch none, w => by
    rw [stmt, scopes_after_stmt thenBranch, (looked_expr condition w).scopes, declaredBy]
  | .ifElse condition thenBranch (some elseBranch), w => by
    rw [stmt, scopes_after_stmt elseBranch, scopes_after_stmt thenBranch,
      (looked_expr condition w).scopes, declaredBy, withNames_append]
  | .while_ condition body, w => by
    rw [stmt, scopes_after_stmt body, (looked_expr condition w).scopes, declaredBy]
  | .break_ _, w => (withNames_nil _).symm
  | .return_ keyword none, w => by
    rw [declaredBy, withNames_nil]
    exact (looked_checkReturn keyword).scopes
  | .return_ keyword (some value), w => by
    rw [declaredBy, withNames_nil]
    exact (looked_expr value _).scopes.trans
      ((looked_checkReturn keyword).trans (looked_checkReturnValue keyword)).scopes
  | .function name fn, w =>
    (looked_function .function fn (w.introduce name)).scopes.trans (scopes_introduce w name)
  | .class_ name superclass declared, w => by
    cases superclass with
    | none => exact (walked_inClass w name declared).scopes.trans (scopes_introduce _ name)
    | some parent =>
      refine (walked_inSubclass w name parent declared).scopes.trans ?_
      exact (looked_use _ _).scopes.trans
        ((looked_beforeParent w name parent.name).scopes.trans (scopes_introduce _ name))

/-! ## Outside every scope -/

/-- A walk that has found nothing yet. -/
def Walk.fresh (w : Walk) : Walk := { w with found := #[], errors := #[] }

theorem behind_fresh (w : Walk) : w.fresh.behind w.found w.errors = w := by
  simp [Walk.fresh, Walk.behind]

/-- Statements outside every scope leave nothing but what they find. -/
theorem stmts_outermost (ss : List Stmt) {w : Walk} (hw : w.scopes = []) :
    stmts ss w = w.ahead (stmts ss w.fresh).found (stmts ss w.fresh).errors := by
  have hwalked := walked_stmts ss w.fresh
  have hscopes : (stmts ss w.fresh).scopes = w.scopes := (hwalked.global hw).trans hw.symm
  calc stmts ss w
    _ = stmts ss (w.fresh.behind w.found w.errors) := by rw [behind_fresh]
    _ = (stmts ss w.fresh).behind w.found w.errors := (adds_stmts ss).behind _ _ _
    _ = w.ahead (stmts ss w.fresh).found (stmts ss w.fresh).errors := by
      unfold Walk.behind Walk.ahead
      rw [hscopes, hwalked.function, hwalked.class_]
      rfl

theorem stmts_outermost_append (ss us : List Stmt) {w : Walk} (hw : w.scopes = []) :
    stmts (ss ++ us) w = (stmts ss w).ahead (stmts us w.fresh).found (stmts us w.fresh).errors := by
  have hafter : (stmts ss w).scopes = [] := (walked_stmts ss w).global hw
  have hfresh : (stmts ss w).fresh = w.fresh := by
    rw [stmts_outermost ss hw]
    rfl
  rw [stmts_append, stmts_outermost us hafter, hfresh]

theorem program_append_ahead (ss us : List Stmt) :
    program (ss ++ us) = (program ss).ahead (program us).found (program us).errors :=
  stmts_outermost_append ss us rfl

/-! ## Pieces of a program -/

/-- Walks statements as a program of their own. The machine gets the distances,
and the report the errors. -/
def settleScopes (kept : Machine × Report) (ss : List Stmt) : Machine × Report :=
  (Session.recording kept.1 (program ss), kept.2.addAll (program ss).errors)

theorem settleScopes_append (kept : Machine × Report) (ss us : List Stmt) :
    settleScopes kept (ss ++ us) = settleScopes (settleScopes kept ss) us := by
  simp only [settleScopes, program_append_ahead, Walk.ahead, Session.recording,
    Resolutions.recordAll_append, Report.addAll, Array.foldl_append]

theorem settleScopes_pieces (pieces : List (List Stmt)) (kept : Machine × Report) :
    pieces.foldl settleScopes kept = settleScopes kept pieces.flatten := by
  induction pieces generalizing kept with
  | nil => rfl
  | cons piece pieces ih => rw [List.foldl_cons, ih, List.flatten_cons, settleScopes_append]

/-! ## The surroundings of a place -/

/-- A walk gives its surroundings back, from any of its states and whatever rules
are broken. An expression leaves the scopes as they are. A statement leaves as
many scopes as there were, those around the innermost one as they are, and in the
innermost one it gives values to the names that it declares itself and touches no
other. The kinds of the function and of the class around the place are the same
again. Two statements outside every scope find and report what each of them does
alone, and a program that is walked in pieces leaves the same distances in the
machine and the same errors in the report as a program that is walked at once. -/
theorem walk_gives_back_surroundings :
    (∀ (e : Expr) (w : Walk), (expr e w).scopes = w.scopes ∧
      (expr e w).function = w.function ∧ (expr e w).class_ = w.class_) ∧
    (∀ (s : Stmt) (w : Walk),
      (stmt s w).scopes.length = w.scopes.length ∧
      (stmt s w).scopes.tail = w.scopes.tail ∧
      (∀ top ∈ w.scopes.head?, ∃ top' ∈ (stmt s w).scopes.head?, ∀ name,
        top'.get? name = if name ∈ declaredBy s then some true else top.get? name) ∧
      (stmt s w).function = w.function ∧ (stmt s w).class_ = w.class_) ∧
    (∀ (s s' : Stmt) (w : Walk), w.scopes = [] → ∃ found errors found' errors',
      stmt s w = w.ahead found errors ∧ stmt s' w = w.ahead found' errors' ∧
      stmt s' (stmt s w) = (w.ahead found errors).ahead found' errors') ∧
    ∀ (pieces : List (List Stmt)) (kept : Machine × Report),
      pieces.foldl settleScopes kept = settleScopes kept pieces.flatten := by
  refine ⟨fun e w => ?_, fun s w => ?_, fun s s' w hw => ?_, settleScopes_pieces⟩
  · have h := looked_expr e w
    exact ⟨h.scopes, h.function, h.class_⟩
  · have h := walked_stmt s w
    refine ⟨?_, h.outer, fun top htop => ?_, h.function, h.class_⟩
    · rw [scopes_after_stmt, length_withNames]
    · obtain ⟨outer, houter⟩ := List.head?_eq_some_iff.mp htop
      refine ⟨_, ?_, get?_foldl_insert (declaredBy s) top⟩
      rw [scopes_after_stmt, houter]
      rfl
  · refine ⟨_, _, _, _, stmts_outermost [s] hw, stmts_outermost [s'] hw, ?_⟩
    rw [← stmts_outermost [s] hw]
    exact stmts_outermost_append [s] [s'] hw

/-- In a method of a subclass a known name is declared again in one branch, and a class inherits
from itself in the other: both are reported, and the surroundings are what they were. -/
theorem walk_gives_back_surroundings_reported :
    let w : Walk := ⟨[⟨[("a", true)]⟩, ⟨[("b", false)]⟩], .method, .subclass, #[], #[]⟩
    let s : Stmt := .ifElse (.this 0 ⟨4, 8⟩) (.var ⟨"a", ⟨14, 15⟩⟩ (some (.super 1 ⟨18, 23⟩ default)))
      (some (.class_ ⟨"c", ⟨38, 39⟩⟩ (some ⟨2, ⟨"c", ⟨42, 43⟩⟩⟩) []))
    (stmt s w).errors.size = 2 ∧ (stmt s w).scopes.tail = w.scopes.tail ∧
      (stmt s w).function = .method ∧ (stmt s w).class_ = .subclass ∧
      ∃ top ∈ (stmt s w).scopes.head?, top.get? "a" = some true ∧ top.get? "c" = some true ∧
        top.get? "b" = none := by
  intro w s
  obtain ⟨-, houter, htop, hfunction, hclass⟩ := walk_gives_back_surroundings.2.1 s w
  obtain ⟨top, htop, hnames⟩ := htop ⟨[("a", true)]⟩ rfl
  exact ⟨by decide, houter, hfunction, hclass, top, htop, hnames "a", hnames "c", hnames "b"⟩

end Lox.Scope
