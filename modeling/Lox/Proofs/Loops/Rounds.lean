import Lox.Eval.Basic
import Lox.Proofs.Grammar.Names
import Lox.Proofs.Grammar.Plain
import Lox.Proofs.Loops.Setting
import Lox.Proofs.Renumber.Syntax
import Lox.Proofs.Twin.Eval

/-! # What a `for` loop means

The grammar has no tree for a `for` loop: it makes a `while` loop of it, inside a
block with the initializer, and around a block of the body and the increment.
Here it is said directly what a `for` loop does. All of its clauses stand in one
scope of its own. -/

namespace Lox

open Run

/-- The clauses of a `for` loop, and its body. -/
structure ForLoop where
  keyword : Span
  initializer : Option Stmt
  condition : Option Expr
  increment : Option Expr
  body : Stmt

/-- What can stand in the first clause: a variable, whose name is no keyword, or an expression. -/
inductive FirstClause : Stmt → Prop
  | declaration {name : Ident} (hname : name.text ≠ "super") : FirstClause (.var name none)
  | definition {name : Ident} {value : Expr} (hname : name.text ≠ "super")
    (hvalue : Plain.expr value) : FirstClause (.var name (some value))
  | expression {value : Expr} (hvalue : Plain.expr value) : FirstClause (.expression value)

theorem FirstClause.plain {s : Stmt} (h : FirstClause s) : Plain.stmt s := by
  cases h with
  | declaration => exact trivial
  | definition _ hvalue => exact hvalue
  | expression hvalue => exact hvalue

namespace ForLoop

variable (l : ForLoop)

/-- Every clause is what the grammar lets stand there, and the body declares nothing. -/
structure Formed : Prop where
  initializer : ∀ s ∈ l.initializer, FirstClause s
  condition : ∀ e ∈ l.condition, Plain.expr e
  increment : ∀ e ∈ l.increment, Plain.expr e
  body : Watch.declared? l.body = none ∧ Plain.stmt l.body

/-- The tree that the grammar makes of the loop. -/
def tree : Stmt :=
  Grammar.desugarFor l.keyword l.initializer l.condition l.increment l.body

/-- The body of the loop in the tree: the increment stands in a block with it. -/
def treeBody : Stmt :=
  match l.increment with
  | some step => .block [l.body, .expression step]
  | none => l.body

/-- The condition in the tree. -/
def treeCondition : Expr := l.condition.getD (.literal (.bool true) l.keyword)

theorem tree_eq : l.tree = match l.initializer with
    | some start => .block [start, .while_ l.treeCondition l.treeBody]
    | none => .while_ l.treeCondition l.treeBody := rfl

/-- The clauses and the body, one after the other in one scope. -/
def scope : Stmt :=
  .block (l.initializer.toList ++ l.condition.toList.map .expression ++ l.body ::
    l.increment.toList.map .expression)

/-- The same loop with other numbers. -/
def renumber (ρ : Nat → Nat) : ForLoop where
  keyword := l.keyword
  initializer := l.initializer.map (Renumber.stmt ρ)
  condition := l.condition.map (Renumber.expr ρ)
  increment := l.increment.map (Renumber.expr ρ)
  body := Renumber.stmt ρ l.body

/-! ## Running -/

/-- Runs in a new scope inside the present one. -/
def inScope (run : Run Flow) : Run Flow := do
  let outer ← ask (·.current)
  let frame ← onHeap (·.newFrame (some outer) .empty)
  within frame run

/-- Rounds for as long as there is to be another one, and none of them leaves the loop or the
function around it. -/
def repeated (holds : Nat → Run Bool) (round : Nat → Run Flow) : Nat → Run Flow
  | 0 => exhaust
  | fuel + 1 => do
    if ← holds fuel then
      match ← round fuel with
      | .normal => repeated holds round fuel
      | .break_ => pure .normal
      | .return_ value => pure (.return_ value)
    else pure .normal

/-- Whether there is another round. Without a condition there always is. -/
def holds (fuel : Nat) : Run Bool :=
  match l.condition with
  | some condition => do
    let v ← Eval.expr fuel condition
    pure v.truthy
  | none => pure true

/-- What happens between two rounds. -/
def advance (fuel : Nat) : Run Unit :=
  match l.increment with
  | some increment => do
    let _ ← Eval.expr fuel increment
    pure ()
  | none => pure ()

/-- What happens before the first round. -/
def start (fuel : Nat) : Run Unit :=
  match l.initializer with
  | some initializer => do
    let _ ← Eval.stmt fuel initializer
    pure ()
  | none => pure ()

/-- The body, and when it has finished normally the increment. -/
def round (fuel : Nat) : Run Flow := do
  match ← Eval.stmt fuel l.body with
  | .normal => do
    l.advance fuel
    pure .normal
  | flow => pure flow

/-- The loop, in a scope of its own. -/
def run (fuel : Nat) : Run Flow :=
  inScope do
    l.start fuel
    repeated l.holds l.round fuel

end ForLoop

namespace Grammar

variable {word : String → Prop} {p : Place} {n n' : Nat} {ts : List Token}

theorem initializer_of_derives {initializer : Option Stmt}
    (h : Derives .initializer p n ts initializer n') (hts : Spelled Ordinary ts) :
    ∀ s ∈ initializer, FirstClause s := by
  cases h with
  | noInitializer => exact fun _ hs => by cases hs
  | declaring declaration =>
    intro s hs
    cases hs
    cases declaration with
    | uninitialized keyword name ending =>
      exact .declaration ((spelled_cons.mp (spelled_cons.mp hts).2).1 name |>.ne .super)
    | initialized keyword name equal value ending =>
      exact .definition ((spelled_cons.mp (spelled_cons.mp hts).2).1 name |>.ne .super) value.plain
  | evaluating statement =>
    intro s hs
    cases hs
    cases statement with
    | terminated value => exact .expression value.plain

/-- What is read as a `for` loop is the tree of well-formed clauses. -/
theorem exists_formed_of_derives {opened : Bool} {s : Stmt}
    (h : Derives (.forStatement opened) p n ts s n') (hts : Spelled Ordinary ts) :
    ∃ l : ForLoop, l.Formed ∧ s = l.tree := by
  cases h with
  | @for_ _ _ k _ _ i _ _ c _ _ _ j _ _ _ _ body _ _ _ start condition _ step _ hbody =>
    refine ⟨⟨k.span, i, c, j, body⟩, ⟨?_, condition.plain, step.plain, hbody.plain⟩, rfl⟩
    refine initializer_of_derives start fun t ht => hts t ?_
    exact List.mem_cons_of_mem _ (List.mem_cons_of_mem _ (List.mem_append_left _ ht))

end Grammar

end Lox

/-! # Rounds side by side

A loop runs twice: with all of its clauses in one scope, and with the scopes that
the tree of the grammar has, one around the body and the increment and none around
a loop without an initializer. The scopes that are only on one side hold nothing. -/

namespace Lox

open Run

namespace ForLoop

variable (l : ForLoop)

/-- A round in the scopes of the tree: there is one around the body and the increment. -/
def treeRound (fuel : Nat) : Run Flow :=
  match l.increment with
  | some _ => inScope (l.round fuel)
  | none => l.round fuel

/-- The loop in the scopes of the tree: there is one around it when it has an initializer. -/
def treeRun (fuel : Nat) : Run Flow :=
  match l.initializer with
  | some _ => inScope do
    l.start fuel
    repeated l.holds l.treeRound fuel
  | none => repeated l.holds l.treeRound fuel

end ForLoop

namespace Loops

open Twin ForLoop

variable {R R' : Resolutions} {globals f f' : FrameId} {w : World Levels} {p : Levels}
  {Q : World Levels → Flow → Flow → Prop} {r r' : Run Flow} {l l' : ForLoop} {fuel : Nat}

/-! ## Scopes -/

/-- Both machines run in a new scope. -/
theorem sim_inScope (hf : w.sites f f' p)
    (h : ∀ w' g g', w.Grows w' → w'.sites g g' (.shared :: p) →
      Sim (setting R R' globals) w' g g' r r' Q) :
    Sim (setting R R' globals) w f f' (inScope r) (inScope r') Q :=
  sim_inside hf rfl h

/-- Only the first machine runs in a new scope. -/
theorem sim_inScope_left (hf : w.sites f f' p)
    (h : ∀ w' g, w.Grows w' → w'.sites g f' (.first :: p) →
      Sim (setting R R' globals) w' g f' r r' Q) :
    Sim (setting R R' globals) w f f' (inScope r) r' Q := by
  constructor
  intro m m' hm
  have hheaps : Heaps (setting R R' globals)
      (w.withFrame ⟨m.heap.frames.size⟩ f' (.first :: p))
      (m.heap.newFrame (some f) .empty).2 m'.heap :=
    hm.heaps.put (Framed.enterFirst hm.heaps.frames hf)
      (hm.heaps.fine_newFrame fun _ _ hv => by cases hv)
  have hgrows := w.grows_withFrame ⟨m.heap.frames.size⟩ f' (.first :: p)
  have hsim := h _ ⟨m.heap.frames.size⟩ hgrows (.inr ⟨rfl, rfl, rfl⟩)
  show Ends (within _ r) { m with heap := (m.heap.newFrame (some m.current) .empty).2 } _ _
  rw [hm.current, ends_within]
  refine (hsim.ends { m with
      heap := (m.heap.newFrame (some f) .empty).2
      current := ⟨m.heap.frames.size⟩ } m' ⟨{ hm.toMachines with
    heaps := hheaps
    discreet := hm.discreet.imp_left (·.mono hgrows) }, rfl, hm.current'⟩).imp ?_ ?_
  · rintro a t ⟨w', a', t', hgrows', hside, hr', hq⟩
    exact ⟨w', a', t', hgrows.trans hgrows', ⟨{ hside.toMachines with }, rfl, hside.current'⟩,
      hr', hq⟩
  · rintro stop t ⟨w', stop', t', hgrows', hside, hr', hhalts⟩
    exact ⟨w', stop', t', hgrows.trans hgrows',
      ⟨{ hside.toMachines with }, rfl, hside.current'⟩, hr', hhalts⟩

/-- Only the second machine runs in a new scope. -/
theorem sim_inScope_right (hf : w.sites f f' p)
    (h : ∀ w' g', w.Grows w' → w'.sites f g' (.second :: p) →
      Sim (setting R R' globals) w' f g' r r' Q) :
    Sim (setting R R' globals) w f f' r (inScope r') Q := by
  constructor
  intro m m' hm
  have hheaps : Heaps (setting R R' globals)
      (w.withFrame f ⟨m'.heap.frames.size⟩ (.second :: p))
      m.heap (m'.heap.newFrame (some f') .empty).2 :=
    hm.heaps.put (Framed.enterSecond hm.heaps.frames hf) hm.heaps.values
  have hgrows := w.grows_withFrame f ⟨m'.heap.frames.size⟩ (.second :: p)
  have hsim := h _ ⟨m'.heap.frames.size⟩ hgrows (.inr ⟨rfl, rfl, rfl⟩)
  have hrun : inScope r' m' = within ⟨m'.heap.frames.size⟩ r'
      { m' with heap := (m'.heap.newFrame (some f') .empty).2 } := by
    rw [← hm.current']
    rfl
  rw [hrun]
  refine (hsim.ends m { m' with
      heap := (m'.heap.newFrame (some f') .empty).2
      current := ⟨m'.heap.frames.size⟩ } ⟨{ hm.toMachines with
    heaps := hheaps
    discreet := hm.discreet.imp_left (·.mono hgrows) }, hm.current, rfl⟩).imp ?_ ?_
  · rintro a t ⟨w', a', t', hgrows', hside, hr', hq⟩
    exact ⟨w', a', { t' with current := m'.current }, hgrows.trans hgrows',
      ⟨{ hside.toMachines with }, hside.current, hm.current'⟩,
      within_of_ok (m := { m' with heap := (m'.heap.newFrame (some f') .empty).2 }) hr', hq⟩
  · rintro stop t ⟨w', stop', t', hgrows', hside, hr', hhalts⟩
    exact ⟨w', stop', { t' with current := m'.current }, hgrows.trans hgrows',
      ⟨{ hside.toMachines with }, hside.current, hm.current'⟩,
      within_of_error (m := { m' with heap := (m'.heap.newFrame (some f') .empty).2 }) hr', hhalts⟩

/-! ## Clauses -/

/-- Where the condition of the first loop stands. The second loop always has a scope of its own. -/
def outside (l : ForLoop) (p : Levels) : Levels :=
  match l.initializer with
  | some _ => .shared :: p
  | none => .second :: p

/-- Where the body of the first loop stands, when it is in a scope with the increment. -/
def inside (l : ForLoop) (p : Levels) : Levels :=
  match l.increment with
  | some _ => .first :: p
  | none => p

/-- Loops with kindred clauses. -/
structure KinLoop (K : Kinship) (outer inner : K.Place) (l l' : ForLoop) : Prop where
  initializer : Option.Rel (KinStmt K outer) l.initializer l'.initializer
  condition : Option.Rel (KinExpr K outer) l.condition l'.condition
  increment : Option.Rel (KinExpr K inner) l.increment l'.increment
  body : KinStmt K inner l.body l'.body

variable {outer inner : Levels}

theorem sim_holds (hkin : KinLoop (kinship R R') outer inner l l') (hf : w.sites f f' outer) :
    Sim (setting R R' globals) w f f' (l.holds fuel) (l'.holds fuel) (Same fun _ _ => True) := by
  have hcondition := hkin.condition
  unfold ForLoop.holds
  generalize l.condition = c at hcondition ⊢
  generalize l'.condition = c' at hcondition ⊢
  cases hcondition with
  | none => exact sim_pure ⟨rfl, trivial⟩
  | some hc =>
    refine ((simWithin _ fuel).expr hf hc).bindSame fun _ v _ _ => ?_
    exact sim_pure ⟨rfl, trivial⟩

theorem sim_advance (hkin : KinLoop (kinship R R') outer inner l l') (hf : w.sites f f' inner) :
    Sim (setting R R' globals) w f f' (l.advance fuel) (l'.advance fuel) fun _ _ _ => True := by
  have hincrement := hkin.increment
  unfold ForLoop.advance
  generalize l.increment = e at hincrement ⊢
  generalize l'.increment = e' at hincrement ⊢
  cases hincrement with
  | none => exact sim_pure trivial
  | some he => exact ((simWithin _ fuel).expr hf he).bindSame fun _ _ _ _ => sim_pure trivial

theorem sim_start (hkin : KinLoop (kinship R R') outer inner l l') (hf : w.sites f f' outer) :
    Sim (setting R R' globals) w f f' (l.start fuel) (l'.start fuel) fun _ _ _ => True := by
  have hinitializer := hkin.initializer
  unfold ForLoop.start
  generalize l.initializer = s at hinitializer ⊢
  generalize l'.initializer = s' at hinitializer ⊢
  cases hinitializer with
  | none => exact sim_pure trivial
  | some hs => exact ((simWithin _ fuel).stmt hf hs).bindSame fun _ _ _ _ => sim_pure trivial

theorem sim_round (hkin : KinLoop (kinship R R') outer inner l l') (hf : w.sites f f' inner) :
    Sim (setting R R' globals) w f f' (l.round fuel) (l'.round fuel) (Same Finished) := by
  refine ((simWithin _ fuel).stmt hf hkin.body).bindSame fun w₁ flow hgrows hflow => ?_
  cases flow with
  | normal =>
    refine (sim_advance hkin (hgrows.sites f f' inner hf)).bind fun _ _ _ _ _ => ?_
    exact sim_pure ⟨rfl, trivial⟩
  | break_ => exact sim_pure ⟨rfl, trivial⟩
  | return_ v => exact sim_pure ⟨rfl, hflow⟩

/-- A round in the scopes of the tree, beside one in the scope of the loop. -/
theorem sim_treeRound (hkin : KinLoop (kinship R R') outer (inside l outer) l l')
    (hf : w.sites f f' outer) :
    Sim (setting R R' globals) w f f' (l.treeRound fuel) (l'.round fuel) (Same Finished) := by
  unfold treeRound
  cases hincrement : l.increment with
  | none =>
    have hinside : inside l outer = outer := by rw [inside, hincrement]
    rw [hinside] at hkin
    exact sim_round hkin hf
  | some e =>
    have hinside : inside l outer = .first :: outer := by rw [inside, hincrement]
    rw [hinside] at hkin
    exact sim_inScope_left hf fun _ _ _ hg => sim_round hkin hg

/-- Rounds side by side, for as long as they go on. -/
theorem sim_repeated (hkin : KinLoop (kinship R R') outer (inside l outer) l l')
    (hf : w.sites f f' outer) : Sim (setting R R' globals) w f f'
      (repeated l.holds l.treeRound fuel) (repeated l'.holds l'.round fuel) (Same Finished) := by
  induction fuel generalizing w with
  | zero => exact sim_exhaust
  | succ fuel ih =>
    refine (sim_holds hkin hf).bindSame fun w₁ again hgrows₁ _ => ?_
    cases again with
    | false => exact sim_pure ⟨rfl, trivial⟩
    | true =>
      refine (sim_treeRound hkin (hgrows₁.sites f f' outer hf)).bindSame
        fun w₂ flow hgrows₂ hflow => ?_
      cases flow with
      | normal => exact ih ((hgrows₁.trans hgrows₂).sites f f' outer hf)
      | break_ => exact sim_pure ⟨rfl, trivial⟩
      | return_ v => exact sim_pure ⟨rfl, hflow⟩

theorem sim_started (hkin : KinLoop (kinship R R') outer (inside l outer) l l')
    (hf : w.sites f f' outer) : Sim (setting R R' globals) w f f'
      (do l.start fuel; repeated l.holds l.treeRound fuel)
      (do l'.start fuel; repeated l'.holds l'.round fuel) (Same Finished) :=
  (sim_start hkin hf).bind fun _ _ _ hgrows _ =>
    sim_repeated hkin (hgrows.sites f f' outer hf)

/-- The loop in the scopes of the tree, beside the one in a scope of its own. -/
theorem sim_run (hkin : KinLoop (kinship R R') (outside l p) (inside l (outside l p)) l l')
    (hf : w.sites f f' p) :
    Sim (setting R R' globals) w f f' (l.treeRun fuel) (l'.run fuel) (Same Finished) := by
  unfold treeRun ForLoop.run
  cases hinitializer : l.initializer with
  | some s =>
    have houtside : outside l p = .shared :: p := by rw [outside, hinitializer]
    rw [houtside] at hkin
    exact sim_inScope hf fun _ _ _ _ hg => sim_started hkin hg
  | none =>
    have houtside : outside l p = .second :: p := by rw [outside, hinitializer]
    rw [houtside] at hkin
    refine sim_inScope_right hf fun _ _ _ hg => ?_
    have hstart : l'.start fuel = pure () := by
      have hrel := hkin.initializer
      rw [hinitializer] at hrel
      unfold ForLoop.start
      generalize l'.initializer = s' at hrel ⊢
      cases hrel
      rfl
    rw [hstart]
    exact sim_repeated hkin hg

end Loops
end Lox
