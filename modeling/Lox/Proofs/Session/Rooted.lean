import Lox.Proofs.Session.Sealed
import Lox.Proofs.Twin.Elsewhere

/-! # The trees that a session holds

Between two inputs, whatever a session has gone through, the functions in its
heap are made of nodes whose numbers have been handed out. What the functions of
the host do is up to them, but those that the session was given are all that
there are. -/

namespace Lox

open Twin

/-- One text of nodes whose numbers are below `n`, which stays where it is. -/
def Texts.below (n : Nat) : Texts Unit where
  holds _ id := id < n
  shift _ := id

namespace Session

/-- The trees in a session have numbers that have been handed out, and the functions of the host
see of the heap what programs see. -/
def Rooted (s : Session) : Prop :=
  (Texts.below s.nextId).Fit s.machine.resolutions s.machine.resolutions s.machine s.machine

variable {s s' : Session}

/-- What is recorded and which number is next are of no concern, if it is no lower one. -/
theorem Rooted.later (h : s.Rooted) {next : Nat} (hle : s.nextId ≤ next) (R : Resolutions) :
    Rooted ⟨{ s.machine with resolutions := R }, next⟩ := by
  have hmore : (Texts.below next).Fit s.machine.resolutions s.machine.resolutions s.machine
      s.machine := h.embed id (fun _ => rfl) fun _ _ hid => Nat.lt_of_lt_of_le hid hle
  exact hmore.withRecords R R

theorem Rooted.answer {fuel : Nat} {input : Input} {a : Answer}
    (h : answer fuel input s = some (a, s')) (hs : s.Rooted) : s'.Rooted := by
  have hfair := draft_fair fuel s.nextId input
  rw [answer_eq_settle] at h
  cases settled_of_settle h with
  | unread => exact hs.later hfair.nextId _
  | unscoped => exact hs.later hfair.nextId _
  | @done walk _ machine _ hread _ hdone =>
    have hrecorded := hs.later hfair.nextId (s.machine.resolutions.recordAll walk.found)
    have hmirrors := Texts.kinship_mirrors (T := .below (input.draft fuel s.nextId).nextId) ()
    have hsim := hrecorded.ends (fun _ _ _ => rfl)
      (sim_task _ hmirrors (p := ()) rfl rfl fuel input s.nextId (Input.nodes_lt hread))
    obtain ⟨w, a', t, ht, hfit, -⟩ := hsim.of_ok hdone
    obtain ⟨-, rfl⟩ := EStateM.Result.ok.inj (hdone.symm.trans ht)
    unfold Rooted
    rw [show machine.resolutions = _ from hfit.resolutions]
    exact hfit

theorem rooted_start (sink : Sink) (reading : Nat → Float) {natives : List Native}
    (hnatives : ∀ n ∈ natives, n.code.Respectful) :
    ((start sink reading).withNatives natives).Rooted := by
  obtain ⟨hheap, hhost⟩ := start_holds sink reading Native.clock_respectful hnatives
  exact Texts.fit_of_empty hheap hhost

/-- **Whatever inputs a session has taken**, the trees in it have numbers that have been handed
out. -/
theorem rooted_of_answers {sink : Sink} {reading : Nat → Float} {natives : List Native}
    (hnatives : ∀ n ∈ natives, n.code.Respectful)
    {inputs : List (Nat × Input)} {as : List Answer}
    (h : answers inputs ((start sink reading).withNatives natives) = some (as, s)) : s.Rooted :=
  answers_induction (fun _ _ _ _ _ => Rooted.answer) inputs h (rooted_start sink reading hnatives)

end Session

/-! ## Machines on which anything may have run

What a machine refers to is there, and the nodes of its functions have numbers
that have been handed out. Evaluation keeps this so, and it is so between any two
inputs of a session, whatever the session has gone through. -/

variable {m t : Machine} {w : World Bool} {next : Nat}

/-- What a machine refers to is there, `w` tells what is, and the nodes of its functions are
numbered below `next`. -/
structure Machine.Sound (m : Machine) (w : World Bool) (next : Nat) : Prop where
  side : Side (mirror m.globals m.resolutions) w m.current m.current m m
  current : ∃ p, w.sites m.current m.current p
  nodes : ∀ f o, m.heap.function? f = some o → AllKnown (· < next) (Nodes.lambda [] o.fn)
  records : ∀ id, next ≤ id → m.resolutions.find? id = none

/-- More numbers have been handed out, and something is recorded about them. -/
theorem Machine.Sound.later {next' : Nat} (hm : m.Sound w next) (hle : next ≤ next')
    {R : Resolutions} (hR : ∀ id, next' ≤ id → R.find? id = none) :
    Machine.Sound { m with resolutions := R } w next' where
  side := ⟨{ hm.side.toMachines with
    heaps := hm.side.heaps.mirror_records
    resolutions := rfl
    resolutions' := rfl
    discreet := .inr (hm.side.discreet.resolve_left not_open_mirror) }, rfl, rfl⟩
  current := hm.current
  nodes f o ho id hid := Nat.lt_of_lt_of_le (hm.nodes f o ho id hid) hle
  records := hR

theorem Machine.Sound.fit (hm : m.Sound w next) :
    (Texts.below next).Fit m.resolutions m.resolutions m m where
  heap := {
    frames := rfl
    functions := fun f => by
      cases ho : m.heap.function? f with
      | none => exact .none
      | some o => exact .some ⟨rfl, ⟨(), (Respan.lambda_id o.fn).symm, hm.nodes f o ho⟩, rfl, rfl⟩
    classes := rfl
    instances := rfl
    natives := rfl }
  globals := rfl
  current := rfl
  callDepth := rfl
  sink := rfl
  clock := rfl
  host := rfl
  resolutions := rfl
  resolutions' := rfl
  respectful := hm.side.respectful

theorem nodes_of_fit {R : Resolutions} (h : (Texts.below next).Fit R R t t) {f : FunctionId}
    {o : FunctionObject} (ho : t.heap.function? f = some o) :
    AllKnown (· < next) (Nodes.lambda [] o.fn) := by
  have hmoved := h.heap.functions f
  rw [ho] at hmoved
  cases hmoved with
  | some hobject =>
    obtain ⟨p, -, hnodes⟩ := hobject.fn
    exact hnodes

theorem Machine.Sound.of_side {w' : World Bool} (hm : m.Sound w next) (hgrows : w.Grows w')
    (hside : Side (mirror m.globals m.resolutions) w' m.current m.current t t)
    (hfit : (Texts.below next).Fit m.resolutions m.resolutions t t) : t.Sound w' next := by
  have hglobals : t.globals = m.globals := hside.globals
  have hresolutions : t.resolutions = m.resolutions := hside.resolutions
  have hcurrent : t.current = m.current := hside.current
  refine ⟨?_, ?_, fun f o => nodes_of_fit hfit, ?_⟩
  · rw [hglobals, hresolutions, hcurrent]
    exact hside
  · rw [hcurrent]
    exact hm.current.imp fun p => hgrows.sites _ _ p
  · rw [hresolutions]
    exact hm.records

/-- Whatever statement is executed on a sound machine, and however it ends, leaves a sound one. -/
theorem Machine.Sound.stmt (hm : m.Sound w next) {s : Stmt}
    (hs : AllKnown (· < next) (Nodes.stmt [] s)) {fuel : Nat} {outcome : Except Diagnostic Flow}
    (h : Run.attempt (Eval.stmt fuel s) m = .ok outcome t) :
    ∃ w', w.Grows w' ∧ t.Sound w' next := by
  obtain ⟨p, hp⟩ := hm.current
  have hmirror := ((simWithin _ fuel).stmt hp
    (kin_stmt_self mirrorKinship_mirrors s trivial fun _ _ => trivial)).attempt.ends m m hm.side
  have hkin : KinStmt (Texts.below next).kinship () s s :=
    kin_stmt_self (Texts.kinship_mirrors (T := .below next) ()) s rfl hs
  have hbelow := ((simWithin _ fuel).stmt rfl hkin).attempt.ends m m
    (hm.fit.side fun _ _ _ => rfl)
  obtain ⟨w', _, t', hgrows, hside, hr, -⟩ := hmirror.of_ok h
  obtain ⟨v, _, u, hgrows', hside', hr', -⟩ := hbelow.of_ok h
  obtain ⟨-, rfl⟩ := EStateM.Result.ok.inj (h.symm.trans hr)
  obtain ⟨-, rfl⟩ := EStateM.Result.ok.inj (h.symm.trans hr')
  exact ⟨w', hgrows, hm.of_side hgrows hside (Texts.fit_of_side hgrows' hside')⟩

namespace Session

variable {s : Session}

theorem sound_of_rooted (hsealed : s.Sealed) (hrooted : s.Rooted) (hnumbered : s.Numbered) :
    ∃ w, s.machine.Sound w s.nextId := by
  obtain ⟨w, hw⟩ := hsealed
  have hcurrent : s.machine.current = s.machine.globals := hw.current
  refine ⟨w, ?_, ?_, fun f o => nodes_of_fit hrooted, hnumbered⟩
  · rw [hcurrent]
    exact hw
  · rw [hcurrent]
    exact hw.heaps.frames.globals

/-- **Whatever inputs a session has taken**, its machine is sound. -/
theorem sound_of_answers {sink : Sink} {reading : Nat → Float} {natives : List Native}
    (hnatives : ∀ n ∈ natives, n.code.Respectful ∧ n.code.Discreet)
    {inputs : List (Nat × Input)} {as : List Answer}
    (h : answers inputs ((start sink reading).withNatives natives) = some (as, s)) :
    ∃ w, s.machine.Sound w s.nextId :=
  sound_of_rooted (sealed_of_answers hnatives h)
    (rooted_of_answers (fun n hn => (hnatives n hn).1) h)
    (settled_induction (fun _ _ _ _ hd => numbered_settled hd) inputs h
      (numbered_start sink reading natives))

end Session
end Lox
