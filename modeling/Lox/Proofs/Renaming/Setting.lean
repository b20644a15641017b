import Lox.Syntax
import Lox.Proofs.Twin.Chained

/-! # Renaming a local variable

One declaration of a variable or of a parameter gets another name, together with
exactly those uses of variables that mean it: a use means the declaration in the
innermost scope around it that declares the name before it. A parameter is
declared before the body, a variable before its own initializer, and a function or
a class before what is inside it. Global names are in no scope. -/

namespace Lox

/-- A declaration, and the name that it gets in place of its own. -/
structure Renaming where
  declaration : Ident
  fresh : String

namespace Renaming

/-- For each scope around a place, innermost first, whether it declares the old name by now, and if
it does, whether that is the declaration that is renamed. -/
abbrev Marks := List (Option Bool)

/-- Whether the old name means the renamed declaration: the innermost scope that declares it
tells. -/
def Marks.bound (o : Marks) : Bool := (o.findSome? id).getD false

variable (r : Renaming)

/-- The name that is replaced. -/
def old : String := r.declaration.text

/-- Whether a declaration of a variable or of a parameter is the one that is renamed. -/
def chooses (name : Ident) : Marks → Bool
  | [] => false
  | _ :: _ => name = r.declaration

/-- The marks after a declaration. -/
def mark (chosen : Bool) (name : String) : Marks → Marks
  | [] => []
  | scope :: outer => (if name = r.old then some chosen else scope) :: outer

/-- The name that is written where a variable or a parameter is declared. -/
def declared (o : Marks) (name : Ident) : Ident :=
  if r.chooses name o then ⟨r.fresh, name.span⟩ else name

/-- The marks after the declaration of a variable or of a parameter. -/
def declare (name : Ident) (o : Marks) : Marks := r.mark (r.chooses name o) name.text o

/-- What a name becomes where it is used. -/
def name (o : Marks) (name : String) : String :=
  if name = r.old ∧ o.bound = true then r.fresh else name

/-- A use of a variable. -/
def use (o : Marks) (target : Reference) : Reference :=
  ⟨target.id, ⟨r.name o target.name.text, target.name.span⟩⟩

/-- The marks after a statement. -/
def after (o : Marks) : Stmt → Marks
  | .var name _ => r.declare name o
  | .function name _ => r.mark false name.text o
  | .class_ name _ _ => r.mark false name.text o
  | _ => o

mutual

/-- Renames in an expression. -/
def expr (o : Marks) : Expr → Expr
  | .literal value span => .literal value span
  | .grouping inner span => .grouping (expr o inner) span
  | .unary op opSpan operand => .unary op opSpan (expr o operand)
  | .binary left op opSpan right => .binary (expr o left) op opSpan (expr o right)
  | .logical left op opSpan right => .logical (expr o left) op opSpan (expr o right)
  | .var target => .var (r.use o target)
  | .assign target value => .assign (r.use o target) (expr o value)
  | .call callee paren arguments => .call (expr o callee) paren (exprs o arguments)
  | .get object name => .get (expr o object) name
  | .set object name value => .set (expr o object) name (expr o value)
  | .this id span => .this id span
  | .super id keyword method => .super id keyword method
  | .lambda fn => .lambda (function o fn)

/-- Renames in expressions. -/
def exprs (o : Marks) : List Expr → List Expr
  | [] => []
  | e :: es => expr o e :: exprs o es

/-- Renames in a function, whose parameters and body share a scope. -/
def function (o : Marks) : Lambda → Lambda
  | ⟨params, body, span⟩ =>
    ⟨params.map (r.declared (none :: o)),
      stmts (params.foldl (fun o name => r.declare name o) (none :: o)) body, span⟩

/-- Renames in a statement. -/
def stmt (o : Marks) : Stmt → Stmt
  | .expression value => .expression (expr o value)
  | .print value => .print (expr o value)
  | .var name none => .var (r.declared o name) none
  | .var name (some value) => .var (r.declared o name) (some (expr (r.declare name o) value))
  | .block body => .block (stmts (none :: o) body)
  | .ifElse condition thenBranch none => .ifElse (expr o condition) (stmt o thenBranch) none
  | .ifElse condition thenBranch (some elseBranch) =>
    .ifElse (expr o condition) (stmt o thenBranch) (some (stmt o elseBranch))
  | .while_ condition body => .while_ (expr o condition) (stmt o body)
  | .break_ keyword => .break_ keyword
  | .return_ keyword none => .return_ keyword none
  | .return_ keyword (some value) => .return_ keyword (some (expr o value))
  | .function name fn => .function name (function (r.mark false name.text o) fn)
  | .class_ name none declared =>
    .class_ name none (methods (none :: r.mark false name.text o) declared)
  | .class_ name (some parent) declared =>
    .class_ name (some (r.use (r.mark false name.text o) parent))
      (methods (none :: none :: r.mark false name.text o) declared)

/-- Renames in statements. -/
def stmts (o : Marks) : List Stmt → List Stmt
  | [] => []
  | s :: ss => stmt o s :: stmts (r.after o s) ss

/-- Renames in methods. -/
def methods (o : Marks) : List Method → List Method
  | [] => []
  | ⟨name, fn⟩ :: ms => ⟨name, function o fn⟩ :: methods o ms

end

/-- Renames in a program. -/
def program (ss : List Stmt) : List Stmt := r.stmts [] ss

end Renaming
end Lox

/-! ## Two runs that differ in a name

A program is run beside the one in which a local variable is renamed. The frames
of the two runs are the same, except that in frames of the scope of the renamed
declaration the new name stands where the old one does. -/

namespace Lox.Renaming

open Twin

variable (r : Renaming)

/-- The new name is not the old one, and neither of them is a name that evaluation binds of its
own. -/
structure Proper : Prop where
  fresh_ne_old : r.fresh ≠ r.old
  this : "this" ≠ r.old ∧ "this" ≠ r.fresh
  super : "super" ≠ r.old ∧ "super" ≠ r.fresh

/-- A name, and what it is called in a scope. The scope has the renamed declaration, or has not. -/
inductive Goes : Bool → String → String → Prop
  | plain {name : String} : Goes false name name
  | renamed : Goes true r.old r.fresh
  | other {name : String} (hold : name ≠ r.old) (hfresh : name ≠ r.fresh) : Goes true name name

variable {r}

theorem Proper.goes_keyword (hr : r.Proper) {name : String} (h : name = "this" ∨ name = "super")
    (chosen : Bool) : r.Goes chosen name name := by
  cases chosen with
  | false => exact .plain
  | true =>
    rcases h with rfl | rfl
    · exact .other hr.this.1 hr.this.2
    · exact .other hr.super.1 hr.super.2

/-- Names that are not renamed stay as they are. -/
theorem goes_self {name : String} (hold : name ≠ r.old) (hfresh : name ≠ r.fresh)
    (chosen : Bool) : r.Goes chosen name name := by
  cases chosen with
  | false => exact .plain
  | true => exact .other hold hfresh

theorem Goes.distinct {chosen : Bool} {name name' other other' : String}
    (h : r.Goes chosen name name') (h' : r.Goes chosen other other') :
    name = other ↔ name' = other' := by
  cases h with
  | plain =>
    cases h'
    exact Iff.rfl
  | renamed =>
    cases h' with
    | renamed => exact ⟨fun _ => rfl, fun _ => rfl⟩
    | other hold hfresh => exact ⟨fun h => absurd h.symm hold, fun h => absurd h.symm hfresh⟩
  | other hold hfresh =>
    cases h' with
    | renamed => exact ⟨fun h => absurd h hold, fun h => absurd h hfresh⟩
    | other => exact Iff.rfl

variable (r)

/-- A place is known by the scopes of the program around it, innermost first: whether they have the
renamed declaration. Around them are the frames that were there before. -/
def kinship (R : Resolutions) : Kinship where
  Place := List Bool
  inside p q := ∃ chosen, q = chosen :: p
  span _ span span' := span' = span
  use p id id' name name' := id' = id ∧ (R.find? id).elim (name' = name) fun hops =>
    r.Goes (p.getD hops false) name name'
  declare p name name' := r.Goes (p.headD false) name name'

/-- The frames of the two runs. -/
structure Framed (R : Resolutions) (globals : FrameId) (s : Sites (List Bool)) (h h' : Heap) : Prop
    extends Chained (r.kinship R) 0 s h h' where
  home : s globals globals []
  outside : ∀ f, s f f [] →
    h'.enclosing? f = h.enclosing? f ∧ ∀ outer, h.enclosing? f = some outer → s outer outer []

variable {r} {R : Resolutions} {globals f : FrameId} {s : Sites (List Bool)} {h h' : Heap}
  {p q : List Bool} {name name' : String}

theorem distinct (p : List Bool) : (r.kinship R).Distinct p := Goes.distinct

theorem headD_drop (p : List Bool) (hops : Nat) : (p.drop hops).headD false = p.getD hops false := by
  rw [List.headD_eq_head?_getD, List.head?_drop, List.getD_eq_getElem?_getD]

namespace Framed

theorem same (hf : r.Framed R globals s h h') {f' : FrameId} (hs : s f f' p) : f' = f :=
  hf.later hs

theorem congr (hf : r.Framed R globals s h h') {k k' : Heap} (hk : k.frames = h.frames)
    (hk' : k'.frames = h'.frames) : r.Framed R globals s k k' where
  toChained := hf.toChained.congr hk hk'
  home := hf.home
  outside g hg := by
    rw [Heap.enclosing?_of_frames hk, Heap.enclosing?_of_frames hk']
    exact hf.outside g hg

theorem define (hf : r.Framed R globals s h h') (v : Value) (hs : s f f p)
    (hname : r.Goes (p.headD false) name name') :
    r.Framed R globals s (h.define f name v) (h'.define f name' v) where
  toChained := hf.toChained.define hs hname (distinct p) v
  home := hf.home
  outside g hg := by
    rw [Heap.enclosing?_define, Heap.enclosing?_define]
    exact hf.outside g hg

theorem enter (hf : r.Framed R globals s h h') {names names' : Bindings Value} {chosen : Bool}
    (hs : s f f p) (hnames : (r.kinship R).Paired (chosen :: p) names names') :
    r.Framed R globals (s.put ⟨h.frames.size⟩ ⟨h'.frames.size⟩ (chosen :: p))
      (h.newFrame (some f) names).2 (h'.newFrame (some f) names').2 where
  toChained := by
    refine hf.toChained.enter ?_ hs ⟨chosen, rfl⟩ (distinct _) hnames
    rintro p p' q ⟨b, rfl⟩ ⟨b', hq⟩
    exact (List.cons.inj hq).2
  home := .inl hf.home
  outside g hg := by
    rcases hg with hg | ⟨-, hg⟩
    · have hbound := hf.bound hg
      have hbound' : g.index < h'.frames.size := hf.bound' hg
      rw [Heap.enclosing?_newFrame, Heap.enclosing?_newFrame, if_neg (Heap.newFrame_ne h _ _ hbound),
        if_neg (Heap.newFrame_ne h' _ _ hbound')]
      obtain ⟨hsame, houter⟩ := hf.outside g hg
      exact ⟨hsame, fun outer h => .inl (houter outer h)⟩
    · cases hg.2

/-- The frame around one that stands at a place. -/
theorem enclosing (hf : r.Framed R globals s h h') (hs : s f f p) :
    h'.enclosing? f = h.enclosing? f ∧ ∀ outer, h.enclosing? f = some outer → s outer outer p.tail := by
  cases p with
  | nil => exact hf.outside f hs
  | cons chosen p =>
    obtain ⟨outer, he, he', hs⟩ := hf.chain hs ⟨chosen, rfl⟩
    refine ⟨Eq.trans he' he.symm, fun other hother => ?_⟩
    obtain rfl := Option.some.inj (he.symm.trans hother)
    exact hs

/-- The frame that lies so many frames further out. -/
theorem ancestor (hf : r.Framed R globals s h h') (hs : s f f p) (hops : Nat) :
    h'.ancestor? f hops = h.ancestor? f hops ∧
      ∀ outer, h.ancestor? f hops = some outer → s outer outer (p.drop hops) := by
  induction hops generalizing f p with
  | zero =>
    refine ⟨rfl, fun outer houter => ?_⟩
    obtain rfl := Option.some.inj houter
    exact hs
  | succ hops ih =>
    obtain ⟨hsame, houter⟩ := hf.enclosing hs
    unfold Heap.ancestor?
    rw [hsame]
    cases he : h.enclosing? f with
    | none => exact ⟨rfl, fun outer h => by cases h⟩
    | some e =>
      have hnext := ih (houter e he)
      rw [List.drop_tail] at hnext
      exact hnext

theorem getAt (hf : r.Framed R globals s h h') (hr : r.Proper) (hs : s f f p) (hops : Nat)
    (hname : name = "this" ∨ name = "super") : h'.getAt? f hops name = h.getAt? f hops name := by
  obtain ⟨hsame, houter⟩ := hf.ancestor hs hops
  unfold Heap.getAt?
  rw [hsame]
  cases hancestor : h.ancestor? f hops with
  | none => rfl
  | some outer => exact hf.held (houter outer hancestor) (hr.goes_keyword hname _)

/-- Where a use finds its variable. -/
theorem locate (hf : r.Framed R globals s h h') {id : Nat} (hs : s f f p)
    (huse : (r.kinship R).use p id id name name') :
    Matched (r.Framed R globals s) h h' name name' (h.frameFor? (R.find? id) f globals)
      (h'.frameFor? (R.find? id) f globals) := by
  have huse : (R.find? id).elim (name' = name) fun hops =>
    r.Goes (p.getD hops false) name name' := huse.2
  cases hfound : R.find? id with
  | none =>
    rw [hfound] at huse
    obtain rfl : name' = name := huse
    exact .some (hf.held hf.home (K := r.kinship R) Goes.plain) fun v => hf.define v hf.home .plain
  | some hops =>
    rw [hfound] at huse
    have hgoes : r.Goes ((p.drop hops).headD false) name name' := by
      rw [headD_drop]
      exact huse
    obtain ⟨hsame, houter⟩ := hf.ancestor hs hops
    unfold Heap.frameFor?
    dsimp only
    rw [hsame]
    cases hancestor : h.ancestor? f hops with
    | none => exact .none
    | some outer =>
      have hs := houter outer hancestor
      exact .some (hf.held hs hgoes) fun v => hf.define v hs hgoes

end Framed

/-- The setting of the two runs. -/
def setting (hr : r.Proper) (R : Resolutions) (globals : FrameId) : Setting where
  toKinship := r.kinship R
  globals := globals
  globals' := globals
  known := R
  known' := R
  Frames := r.Framed R globals
  distinct := distinct
  keyword _ hname := hr.goes_keyword hname _
  congr hf hk hk' := hf.congr hk hk'
  get hf hs hname := by
    obtain rfl := hf.same hs
    exact hf.held hs hname
  define v hf hs hname := by
    obtain rfl := hf.same hs
    exact hf.define v hs hname
  enter hf hs hinside hnames := by
    obtain rfl := hf.same hs
    obtain ⟨chosen, rfl⟩ := hinside
    exact hf.enter hs hnames
  locate hf hs huse := by
    obtain rfl := hf.same hs
    obtain rfl := huse.1
    exact hf.locate hs huse
  super {_ _ _ _ _ _ id id'} hf hs huse := by
    obtain rfl := hf.same hs
    obtain rfl : id' = id := huse.1
    cases R.find? id' with
    | none => exact .none
    | some hops =>
      refine .some ⟨hf.getAt hr hs hops (.inr rfl), ?_⟩
      cases hops with
      | zero => rfl
      | succ inner => exact hf.getAt hr hs inner (.inl rfl)

end Lox.Renaming
