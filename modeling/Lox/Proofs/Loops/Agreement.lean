import Lox.Proofs.Loops.Records
import Lox.Proofs.Session.Rooted
import Lox.Proofs.Loops.Steps

/-! # The tree of a `for` loop does what the loop means

Whatever has happened before on a machine, and wherever in a program the loop
stands: evaluating the tree of the grammar ends just when running the loop in a
scope of its own does, with the same result or the same error, the same output
and the same heap but for frames that hold nothing. -/

namespace Lox

open Run Scope Twin

/-- A computation ends in this way within some bound on steps. -/
def Finishes (r : Nat → Run Flow) (m : Machine) (outcome : Except Diagnostic Flow) (t : Machine) :
    Prop := ∃ fuel, attempt (r fuel) m = .ok outcome t

namespace Loops

variable {R R' : Resolutions} {next : Nat} {m t t' : Machine} {w : World Bool}
  {o o' : FunctionObject}

/-- Functions of the same text, whose names lead to frames that go together. A method closes over
the frame around that of its instance. -/
def Corresponding (K : Kinship) (s : Sites K.Place) (o o' : FunctionObject) : Prop :=
  ∃ p q, s o.closure o'.closure p ∧ (q = p ∨ K.inside p q) ∧ KinLambda K q o.fn o'.fn

/-- What two machines have in common: everything but which frames there are. Those that were there
before go with themselves. -/
structure Matching (w : World Bool) (t t' : Machine) : Prop where
  globals : t'.globals = t.globals
  current : t'.current = t.current
  callDepth : t'.callDepth = t.callDepth
  sink : t'.sink = t.sink
  clock : t'.clock = t.clock
  host : t'.host = t.host
  alike : t.heap.Alike t'.heap
  frames : ∃ s : Sites Levels, Framed t.globals s t.heap t'.heap ∧
    (∀ f p, w.sites f f p → s f f []) ∧
    ∀ f o o', t.heap.function? f = some o → t'.heap.function? f = some o' →
      Corresponding (kinship t.resolutions t'.resolutions) s o o'

/-! ## Before the loop -/

/-- The frames that are there go with themselves. -/
def before (w : World Bool) : World Levels where
  sites f f' p := f' = f ∧ (∃ q, w.sites f f q) ∧ p = []
  free := w.free
  methods := w.methods

/-- Inside scopes that both machines have, all distances lead to the same. -/
theorem meets_shared (n hops : Nat) : Meets (List.replicate n .shared) hops hops := by
  induction n generalizing hops with
  | zero => exact .outside
  | succ n ih =>
    cases hops with
    | zero => exact .here
    | succ hops => exact .shared (ih hops)

theorem holding_shared (n : Nat) : Holding (List.replicate n .shared) := by
  cases n <;> trivial

/-- A text that was there before is kindred to itself. -/
theorem mirrors_shared (hR : ∀ id, id < next → R'.find? id = R.find? id) :
    (kinship R R').Mirrors (fun p : Levels => ∃ n, p = List.replicate n .shared) (· < next) id where
  inside := by
    rintro _ ⟨n, rfl⟩
    exact ⟨List.replicate (n + 1) .shared, rfl, n + 1, rfl⟩
  span _ _ _ := rfl
  use := by
    rintro _ id name ⟨n, rfl⟩ hid
    refine ⟨rfl, ?_⟩
    rw [hR id hid]
    cases R.find? id with
    | none => exact .none
    | some hops =>
      refine .some ⟨meets_shared n hops, fun _ => ?_⟩
      cases hops with
      | zero => exact .none
      | succ hops => exact .some (meets_shared n hops)
  declare := by
    rintro _ name ⟨n, rfl⟩
    exact ⟨rfl, holding_shared n⟩

theorem framed_before (h : MirrorFrames m.globals w.sites m.heap m.heap) :
    Framed m.globals (before w).sites m.heap m.heap where
  globals := ⟨rfl, h.globals, rfl⟩
  bound := by
    rintro _ f p ⟨rfl, ⟨q, hq⟩, -⟩
    exact ⟨h.bound f q hq, h.bound f q hq⟩
  around := by
    rintro _ f p ⟨rfl, ⟨q, hq⟩, rfl⟩
    refine .outside (fun _ => rfl) ?_
    cases houter : m.heap.enclosing? f with
    | none => exact .none
    | some outer => exact .some ⟨rfl, h.outer f q outer hq houter, rfl⟩
  apart := by
    rintro f _ p g _ q ⟨rfl, -⟩ - ⟨rfl, -⟩ -
    exact Iff.rfl
  first := by
    rintro f _ p g _ q ⟨-, -, hp⟩
    cases hp
  second := by
    rintro f _ p g _ q ⟨-, -, hp⟩
    cases hp

theorem heaps_before (hm : m.Sound w next)
    (hR : ∀ id, id < next → R'.find? id = m.resolutions.find? id) :
    Heaps (setting m.resolutions R' m.globals) (before w) m.heap m.heap := by
  have hheaps := hm.side.heaps
  have hkin (n : Nat) {f : FunctionId} {o : FunctionObject} (ho : m.heap.function? f = some o) :
      KinLambda (kinship m.resolutions R') (List.replicate n .shared) o.fn o.fn :=
    kin_lambda_self (mirrors_shared hR) o.fn ⟨n, rfl⟩ (hm.nodes f o ho)
  exact {
    alike := hheaps.alike
    frames := framed_before hheaps.frames
    free := fun f o o' hf ho ho' => by
      obtain rfl := Option.some.inj (ho.symm.trans ho')
      obtain ⟨p, hp, -⟩ := (hheaps.free f o o hf ho ho).text
      exact ⟨rfl, [], ⟨rfl, ⟨p, hp⟩, rfl⟩, hkin 0 ho, fun _ => ⟨rfl, trivial⟩⟩
    methods := fun f o o' hf ho ho' => by
      obtain rfl := Option.some.inj (ho.symm.trans ho')
      obtain ⟨p, q, hp, -⟩ := (hheaps.methods f o o hf ho ho).text
      exact ⟨rfl, [], [.shared], ⟨rfl, ⟨p, hp⟩, rfl⟩, rfl, hkin 1 ho⟩
    bounds := .inr (by
      rcases hheaps.bounds with hopen | hbounded
      · exact absurd hopen not_open_mirror
      · exact ⟨hbounded.free, hbounded.methods⟩)
    known := hheaps.known
    tables := hheaps.tables
    values := hheaps.values
    fields := hheaps.fields }

/-- A machine goes together with itself when it knows more about nodes that are not there yet. -/
theorem side_before (hm : m.Sound w next)
    (hR : ∀ id, id < next → R'.find? id = m.resolutions.find? id) :
    Side (setting m.resolutions R' m.globals) (before w) m.current m.current m
      { m with resolutions := R' } where
  heaps := heaps_before hm hR
  globals := rfl
  globals' := rfl
  resolutions := rfl
  resolutions' := rfl
  callDepth := rfl
  sink := rfl
  clock := rfl
  host := rfl
  respectful := hm.side.respectful
  discreet := .inr (hm.side.discreet.resolve_left not_open_mirror)
  current := rfl
  current' := rfl

/-! ## After the loop -/

variable {w' : World Levels} {f : FrameId} {globals : FrameId}

theorem corresponding_of_heaps (hh : Heaps (setting R R' globals) w' t.heap t'.heap)
    {f : FunctionId} (ho : t.heap.function? f = some o) (ho' : t'.heap.function? f = some o') :
    Corresponding (kinship R R') w'.sites o o' := by
  rcases hh.known f o ho with hf | hf
  · obtain ⟨p, hp, hkin, -⟩ := (hh.free f o o' hf ho ho').text
    exact ⟨p, p, hp, .inl rfl, hkin⟩
  · obtain ⟨p, q, hp, hinside, hkin⟩ := (hh.methods f o o' hf ho ho').text
    exact ⟨p, q, hp, .inr hinside, hkin⟩

theorem matching_of_side (hside : Side (setting R R' globals) w' f f t t')
    (hgrows : (before w).Grows w') : Matching w t t' where
  globals := hside.globals'.trans hside.globals.symm
  current := hside.current'.trans hside.current.symm
  callDepth := hside.callDepth
  sink := hside.sink
  clock := hside.clock
  host := hside.host
  alike := hside.heaps.alike
  frames := by
    have hglobals : t.globals = globals := hside.globals
    have hR : t.resolutions = R := hside.resolutions
    have hR' : t'.resolutions = R' := hside.resolutions'
    rw [hglobals, hR, hR']
    exact ⟨w'.sites, hside.heaps.frames, fun f p hf => hgrows.sites f f [] ⟨rfl, ⟨p, hf⟩, rfl⟩,
      fun g o o' ho ho' => corresponding_of_heaps hside.heaps ho ho'⟩

/-- In this setting nothing is told of errors but that they are the same. -/
theorem eq_of_blames {d d' : Diagnostic} (h : (setting R R' globals).Blames d d') : d' = d := by
  cases h with
  | located cause hspan =>
    obtain rfl := show _ = _ from hspan
    rfl
  | undefined huse hspan =>
    obtain rfl := show _ = _ from hspan
    rw [huse.1]
  | output words => rfl

theorem eq_of_tried {outcome outcome' : Except Diagnostic Flow}
    (h : Tried (setting R R' globals) (Same Finished) w' outcome outcome') :
    outcome' = outcome := by
  cases h with
  | ok h => exact congrArg Except.ok h.1
  | error h => exact congrArg Except.error (eq_of_blames h)

end Loops

open Loops

/-- When what is found for new nodes is recorded, a machine is still sound. -/
theorem Machine.Sound.recording {m : Machine} {w : World Bool} {next next' : Nat}
    (hm : m.Sound w next) (hle : next ≤ next') {place : Walk} (hfound : place.found = #[])
    {s : Stmt} (hbound : ∀ id ∈ Nodes.stmt [] s, id < next') :
    (Session.recording m (Scope.stmt s place)).Sound w next' := by
  refine hm.later hle fun id hid => ?_
  rw [Resolutions.find?_recordAll_of_absent]
  · exact hm.records id (Nat.le_trans hle hid)
  · rintro entry hentry rfl
    exact Nat.not_lt_of_le hid (hbound entry.1 (mem_nodes_of_found hfound hentry))

/-- The tree of a loop ends just when the loop in one scope does, and in the same way. -/
theorem ForLoop.tree_finishes_as_run {l : ForLoop} (hl : l.Formed) {around : Enclosures}
    {place : Walk} (hplace : Standing around place) {m : Machine} {w : World Bool} {next : Nat}
    (hm : m.Sound w next) (h : Recorded m.resolutions next place l.tree) :
    let l' := l.renumber (· + next)
    let m' := Session.recording m (Scope.stmt l'.scope place)
    (Scope.stmt l'.scope place).errors = #[] ∧
      (∀ outcome t, Finishes (Eval.stmt · l.tree) m outcome t →
        ∃ t', Finishes l'.run m' outcome t' ∧ Matching w t t') ∧
      ∀ outcome t', Finishes l'.run m' outcome t' →
        ∃ t, Finishes (Eval.stmt · l.tree) m outcome t ∧ Matching w t t' := by
  intro l' m'
  have hside : Side (setting m.resolutions m'.resolutions m.globals) (before w) m.current
      m.current m m' := side_before hm fun id hid => find?_recordScope hplace.found hid
  have hcurrent : (before w).sites m.current m.current [] := ⟨rfl, hm.current, rfl⟩
  have hsim (fuel : Nat) : Sim (setting m.resolutions m'.resolutions m.globals) (before w)
      m.current m.current (l.treeRun fuel) (l'.run fuel) (Same Finished) :=
    sim_run (kin_recorded hl hplace h hm.records) hcurrent
  have hends (fuel : Nat) := (hsim fuel).attempt.ends m m' hside
  refine ⟨clean_renumber hl hplace h.clean _, fun outcome t hfinishes => ?_,
    fun outcome t' hfinishes => ?_⟩
  · obtain ⟨fuel, hfuel⟩ := hfinishes
    have htree := ((tree_prolongs_treeRun hl fuel).attempt.ends m).of_ok hfuel
    obtain ⟨w', outcome', t', hgrows, hside', hrun, htried⟩ := (hends fuel).of_ok htree
    obtain rfl := eq_of_tried htried
    exact ⟨t', ⟨fuel, hrun⟩, matching_of_side hside' hgrows⟩
  · obtain ⟨fuel, hfuel⟩ := hfinishes
    cases htree : attempt (l.treeRun fuel) m with
    | ok outcome' t =>
      obtain ⟨w', outcome'', t'', hgrows, hside', hrun, htried⟩ := (hends fuel).of_ok htree
      obtain rfl := eq_of_tried htried
      obtain ⟨rfl, rfl⟩ := EStateM.Result.ok.inj (hfuel.symm.trans hrun)
      have hprolonged := ((treeRun_prolongs_tree hl fuel).attempt.ends m).of_ok htree
      exact ⟨t, ⟨fuel + 10, hprolonged⟩, matching_of_side hside' hgrows⟩
    | error stop t =>
      obtain ⟨w', stop', t'', -, -, hrun, -⟩ := (hends fuel).of_error htree
      exact absurd (hfuel.symm.trans hrun) fun heq => by cases heq

/-- A loop that goes around once: `for (var i; !i; i = true) print i;`. -/
def ForLoop.once : ForLoop where
  keyword := ⟨0, 3⟩
  initializer := some (.var ⟨"i", ⟨9, 10⟩⟩ none)
  condition := some (.unary .not ⟨12, 13⟩ (.var ⟨0, "i", ⟨13, 14⟩⟩))
  increment := some (.assign ⟨1, "i", ⟨16, 17⟩⟩ (.literal (.bool true) ⟨20, 24⟩))
  body := .print (.var ⟨2, "i", ⟨32, 33⟩⟩)

theorem ForLoop.formed_once : ForLoop.once.Formed where
  initializer s hs := by
    obtain rfl := Option.some.inj hs
    exact .declaration (by decide)
  condition e he := by
    obtain rfl := Option.some.inj he
    exact trivial
  increment e he := by
    obtain rfl := Option.some.inj he
    exact trivial
  body := ⟨rfl, trivial⟩

/-- In a new session the loop ends after it has written what the variable was at first. -/
theorem ForLoop.once_finishes_as_run :
    let m := Session.recording (Session.start .reliable fun _ => 0).machine
      (Scope.stmt once.tree .start)
    let l' := once.renumber (· + 3)
    ∃ w t t', once.Formed ∧ Standing [] .start ∧ m.Sound w 3 ∧
      Recorded m.resolutions 3 .start once.tree ∧
      Finishes (Eval.stmt · once.tree) m (.ok .normal) t ∧ t.sink.lines = #["nil"] ∧
      Finishes l'.run (Session.recording m (Scope.stmt l'.scope .start)) (.ok .normal) t' ∧
      Matching w t t' := by
  intro m l'
  have hplace : Standing [] .start := ⟨.start, rfl, List.not_mem_nil⟩
  have hnodes : Nodes.stmt [] once.tree = [0, 2, 1] := rfl
  have hbound : ∀ id ∈ Nodes.stmt [] once.tree, id < 3 := by
    rw [hnodes]
    decide
  obtain ⟨w, hstart⟩ : ∃ w, (Session.start .reliable fun _ => 0).machine.Sound w 0 :=
    Session.sound_of_answers (List.forall_mem_nil _) (show Session.answers [] _ = _ from rfl)
  have hm : m.Sound w 3 := hstart.recording (Nat.zero_le 3) rfl hbound
  have hrecorded : Recorded m.resolutions 3 .start once.tree := by
    have hclean : (Scope.stmt once.tree .start).errors = #[] := by decide +kernel
    refine recorded_of_walk hclean (by rw [hnodes]; decide) fun id hid => ⟨hbound id hid, ?_⟩
    exact hstart.records id (Nat.zero_le id)
  have hrun : EStateM.run' (do
      let flow ← Eval.stmt 20 once.tree
      let lines ← ask (·.sink.lines)
      pure (flow, lines)) m = some (.normal, #["nil"]) := by
    decide +kernel
  unfold EStateM.run' EStateM.run at hrun
  cases hends : Eval.stmt 20 once.tree m with
  | error stop t =>
    rw [bind_of_error hends] at hrun
    cases hrun
  | ok flow t =>
    rw [bind_of_ok hends] at hrun
    obtain ⟨hflow, hlines⟩ := Prod.mk.inj (Option.some.inj hrun)
    obtain rfl : flow = .normal := hflow
    have hfinishes : Finishes (Eval.stmt · once.tree) m (.ok .normal) t :=
      ⟨20, attempt_of_ok hends⟩
    obtain ⟨-, hforward, -⟩ := tree_finishes_as_run formed_once hplace hm hrecorded
    obtain ⟨t', hfinishes', hmatching⟩ := hforward _ t hfinishes
    exact ⟨w, t, t', formed_once, hplace, hm, hrecorded, hfinishes, hlines, hfinishes', hmatching⟩

end Lox
