import Lox.Proofs.Session.Numbers
import Lox.Proofs.Scope.Records

/-! # Rejected inputs leave no trace

An input with which something is statically wrong changes nothing but the number
of the next node. What is recorded about it is dropped again, which takes back
neither more nor less than what it recorded: all numbers known before it are
below its first one, and all its own numbers are not. From then on nodes have
other numbers, which no answer depends on. -/

namespace Lox

namespace Renumber

/-- The numbers from `n` on become `k` greater. -/
def shiftFrom (n k id : Nat) : Nat := if id < n then id else id + k

theorem shiftFrom_below {n k id : Nat} (h : id < n) : shiftFrom n k id = id := if_pos h

theorem shiftFrom_above {n k id : Nat} (h : n ≤ id) : shiftFrom n k id = id + k :=
  if_neg (Nat.not_lt.mpr h)

theorem shiftFrom_injective (n k : Nat) : Function.Injective (shiftFrom n k) := by
  intro a b hab
  unfold shiftFrom at hab
  split at hab <;> split at hab <;> omega

/-- The numbers below `n` stay, and no other number becomes one of them. -/
structure Beyond (n : Nat) (ρ : Nat → Nat) : Prop where
  below : ∀ id, id < n → ρ id = id
  above : ∀ id, n ≤ id → n ≤ ρ id

theorem Beyond.mono {n n' : Nat} {ρ : Nat → Nat} (h : Beyond n' ρ) (hle : n ≤ n') : Beyond n ρ where
  below id hid := h.below id (Nat.lt_of_lt_of_le hid hle)
  above id hid := by
    by_cases hlt : id < n'
    · rw [h.below id hlt]
      exact hid
    · exact Nat.le_trans hle (h.above id (Nat.not_lt.mp hlt))

theorem beyond_shiftFrom (n k : Nat) : Beyond n (shiftFrom n k) where
  below _ h := shiftFrom_below h
  above id h := by
    rw [shiftFrom_above h]
    omega

end Renumber

namespace Session

open Renumber

/-! ## What a session does with a draft -/

/-- The answer to a draft, and the session after it. -/
inductive Settled (d : Draft) (s : Session) : Answer → Session → Prop where
  | unread (h : d.walk = none ∨ d.report.hadError = true) :
    Settled d s (d.refuse d.report) { s with nextId := d.nextId }
  | unscoped {walk : Scope.Walk} (hwalk : d.walk = some walk) (hread : d.report.hadError = false)
      (hscope : (d.report.addAll walk.errors).hadError = true) :
    Settled d s (d.refuse (d.report.addAll walk.errors))
      (forgetFrom ⟨recording s.machine walk, d.nextId⟩ s.nextId)
  | done {walk : Scope.Walk} {a : Answer} {machine : Machine} (hwalk : d.walk = some walk)
      (hread : d.report.hadError = false)
      (hscope : (d.report.addAll walk.errors).hadError = false)
      (hdone : d.task (recording s.machine walk) = .ok a machine) :
    Settled d s a ⟨machine, d.nextId⟩

variable {d d' : Draft} {s s' : Session} {a : Answer}

theorem settled_of_settle (h : settle d s = some (a, s')) : Settled d s a s' := by
  unfold settle at h
  cases hwalk : d.walk with
  | none =>
    rw [hwalk] at h
    obtain ⟨rfl, rfl⟩ := Prod.mk.inj (Option.some.inj h)
    exact .unread (.inl hwalk)
  | some walk =>
    rw [hwalk] at h
    dsimp only at h
    split at h
    · next hread =>
      obtain ⟨rfl, rfl⟩ := Prod.mk.inj (Option.some.inj h)
      exact .unread (.inr hread)
    · next hread =>
      split at h
      · next hscope =>
        obtain ⟨rfl, rfl⟩ := Prod.mk.inj (Option.some.inj h)
        exact .unscoped hwalk (Bool.not_eq_true _ ▸ hread) hscope
      · next hscope =>
        split at h
        · next hdone =>
          obtain ⟨rfl, rfl⟩ := Prod.mk.inj (Option.some.inj h)
          exact .done hwalk (Bool.not_eq_true _ ▸ hread) (Bool.not_eq_true _ ▸ hscope) hdone
        · cases h

/-- What every draft keeps, every run of a session keeps. -/
theorem settled_induction {P : Session → Prop}
    (step : ∀ d s a s', d.Fair s.nextId → Settled d s a s' → P s → P s')
    (inputs : List (Nat × Input)) {as : List Answer} (h : answers inputs s = some (as, s'))
    (hs : P s) : P s' := by
  refine answers_induction (fun fuel input s a s' ha => ?_) inputs h hs
  rw [answer_eq_settle] at ha
  exact step _ s a s' (draft_fair fuel s.nextId input) (settled_of_settle ha)

/-! ## The numbers that are known -/

/-- Nothing is recorded about numbers that have not been handed out. -/
def Numbered (s : Session) : Prop := ∀ id, s.nextId ≤ id → s.machine.resolutions.find? id = none

theorem find?_recording (hd : d.Fair s.nextId) {walk : Scope.Walk} (hwalk : d.walk = some walk)
    (hread : d.report.hadError = false) {id : Nat} (hid : id < s.nextId ∨ d.nextId ≤ id) :
    (recording s.machine walk).resolutions.find? id = s.machine.resolutions.find? id := by
  refine Resolutions.find?_recordAll_of_absent fun entry hentry => ?_
  have hbounds := hd.found hread walk hwalk entry hentry
  omega

/-- What is done tells of no error of the text, and changes no records. -/
theorem done_fine (hd : d.Fair s.nextId) {walk : Scope.Walk} (hwalk : d.walk = some walk)
    (hread : d.report.hadError = false) (hscope : (d.report.addAll walk.errors).hadError = false)
    {machine : Machine} (hdone : d.task (recording s.machine walk) = .ok a machine) :
    a.Fine ∧ machine.resolutions = (recording s.machine walk).resolutions := by
  have hdoes := hd.does id hread (fun _ _ _ => rfl) walk hwalk hscope
    (recording s.machine walk).resolutions _ fun _ => rfl
  have hfit : (recording s.machine walk).Fit id (recording s.machine walk).resolutions :=
    ⟨rfl, fun code _ => HostCode.blindTo_id code⟩
  obtain ⟨hfit', hfine, -⟩ := (hdoes.ends _ hfit).of_ok hdone
  exact ⟨hfine, hfit'.resolutions⟩

theorem numbered_settled (hd : d.Fair s.nextId) (h : Settled d s a s') (hs : s.Numbered) :
    s'.Numbered := by
  intro id hid
  have hle := hd.nextId
  cases h with
  | unread _ => exact hs id (Nat.le_trans hle hid)
  | unscoped hwalk hread hscope =>
    have hlt : ¬ id < s.nextId := Nat.not_lt.mpr (Nat.le_trans hle hid)
    exact (Resolutions.find?_forgetFrom ..).trans (if_neg hlt)
  | done hwalk hread hscope hdone =>
    show Resolutions.find? _ id = none
    rw [(done_fine hd hwalk hread hscope hdone).2, find?_recording hd hwalk hread (.inr hid)]
    exact hs id (Nat.le_trans hle hid)

/-- Trees in the heap have numbers that have been handed out, and the functions of the host
take no notice of others. -/
structure Contained (s : Session) : Prop where
  numbered : s.Numbered
  bodies : ∀ ρ, Beyond s.nextId ρ → s.machine.heap.renumber ρ = s.machine.heap
  host : ∀ ρ, Beyond s.nextId ρ → ∀ code ∈ s.machine.host, HostCode.BlindTo ρ code

/-- Other numbers beyond those that were handed out change nothing. -/
theorem contained_settled (hd : d.Fair s.nextId) (h : Settled d s a s') (hs : s.Contained) :
    s'.Contained := by
  have hle := hd.nextId
  have hnumbered := numbered_settled hd h hs.numbered
  cases h with
  | unread _ =>
    exact ⟨hnumbered, fun ρ hρ => hs.bodies ρ (hρ.mono hle), fun ρ hρ => hs.host ρ (hρ.mono hle)⟩
  | unscoped hwalk hread hscope =>
    exact ⟨hnumbered, fun ρ hρ => hs.bodies ρ (hρ.mono hle), fun ρ hρ => hs.host ρ (hρ.mono hle)⟩
  | @done walk a machine hwalk hread hscope hdone =>
    have hresult : ∀ ρ, Beyond d.nextId ρ →
        machine.Fit ρ (recording s.machine walk).resolutions ∧
          machine.heap.renumber ρ = machine.heap := by
      intro ρ hρ
      have hfind : ∀ id, (recording s.machine walk).resolutions.find? (ρ id) =
          (recording s.machine walk).resolutions.find? id := by
        intro id
        by_cases hlt : id < d.nextId
        · rw [hρ.below id hlt]
        · have hid := Nat.not_lt.mp hlt
          have hid' := hρ.above id hid
          rw [find?_recording hd hwalk hread (.inr hid'), find?_recording hd hwalk hread (.inr hid),
            hs.numbered id (Nat.le_trans hle hid), hs.numbered _ (Nat.le_trans hle hid')]
      have hdoes := hd.does ρ hread (fun id _ hid => hρ.below id hid) walk hwalk hscope _ _ hfind
      have hsame : (recording s.machine walk).renumber ρ (recording s.machine walk).resolutions =
          recording s.machine walk := by
        unfold recording Machine.renumber
        simp only [hs.bodies ρ (hρ.mono hle)]
      obtain ⟨hfit, -, hagain⟩ := (hdoes.ends _ ⟨rfl, hs.host ρ (hρ.mono hle)⟩).of_ok hdone
      rw [hsame, hdone] at hagain
      injection hagain with _ hmachine
      exact ⟨hfit, (congrArg Machine.heap hmachine).symm⟩
    exact ⟨hnumbered, fun ρ hρ => (hresult ρ hρ).2, fun ρ hρ => (hresult ρ hρ).1.host⟩

theorem extras_blind : ∀ n ∈ Native.extras, HostCode.Blind n.code := by
  simp only [Native.extras, List.forall_mem_cons]
  refine ⟨fun _ _ _ => rfl, fun _ _ _ => rfl, fun ρ view args => ?_, fun ρ view args => ?_,
    fun n hn => nomatch hn⟩
  · have hdescribe : (view.heap.renumber ρ).describe = view.heap.describe :=
      funext (Heap.renumber_describe ρ view.heap)
    simp only [Native.fail, hdescribe]
  · have hfind : (view.heap.renumber ρ).findMethod? = view.heap.findMethod? := by
      funext c name
      exact Heap.renumber_findMethod? ρ view.heap c name
    simp only [Native.unbound, hfind]

theorem numbered_start (sink : Sink) (reading : Nat → Float) (natives : List Native) :
    ((start sink reading).withNatives natives).Numbered := by
  have hnatives : ∀ s : Session, s.Numbered → (s.withNatives natives).Numbered := by
    unfold withNatives
    induction natives with
    | nil => exact fun _ hs => hs
    | cons n rest ih => exact fun s hs => ih (s.defineNative n) hs
  exact hnatives _ fun id _ => Resolutions.find?_empty id

/-- Before the first input a session holds no trees, and only functions of the host that it was
given. -/
theorem start_holds (sink : Sink) (reading : Nat → Float) {natives : List Native}
    {P : HostCode → Prop} (hclock : P Native.clock.code) (h : ∀ n ∈ natives, P n.code) :
    ((start sink reading).withNatives natives).machine.heap.functions = #[] ∧
      ∀ code ∈ ((start sink reading).withNatives natives).machine.host, P code := by
  have hnatives : ∀ s : Session, s.machine.heap.functions = #[] →
      (∀ code ∈ s.machine.host, P code) →
      (s.withNatives natives).machine.heap.functions = #[] ∧
        ∀ code ∈ (s.withNatives natives).machine.host, P code := by
    unfold withNatives
    induction natives with
    | nil => exact fun _ hheap hhost => ⟨hheap, hhost⟩
    | cons n rest ih =>
      rw [List.forall_mem_cons] at h
      intro s hheap hhost
      refine ih h.2 (s.defineNative n) hheap fun code hcode => ?_
      rcases Array.mem_push.mp hcode with hmem | rfl
      · exact hhost code hmem
      · exact h.1
  refine hnatives (start sink reading) rfl fun code hcode => ?_
  have hmem : code ∈ (#[].push Native.clock.code : Array HostCode) := hcode
  rcases Array.mem_push.mp hmem with hmem | rfl
  · cases Array.not_mem_empty code hmem
  · exact hclock

theorem contained_start (sink : Sink) (reading : Nat → Float) {natives : List Native}
    (h : ∀ n ∈ natives, HostCode.Blind n.code) :
    ((start sink reading).withNatives natives).Contained := by
  have hclock : HostCode.Blind Native.clock.code := fun _ _ _ => rfl
  obtain ⟨hheap, hhost⟩ := start_holds sink reading hclock h
  refine ⟨numbered_start sink reading natives, fun ρ _ => ?_, fun ρ _ code hcode =>
    hhost code hcode ρ⟩
  unfold Heap.renumber
  rw [hheap, Array.map_empty, ← hheap]

/-! ## The same session with other numbers -/

/-- The second session is the first one, in which the numbers from `n` on are `k` greater. -/
structure Ahead (n k : Nat) (s s' : Session) : Prop where
  first : n ≤ s.nextId
  nextId : s'.nextId = s.nextId + k
  host : ∀ code ∈ s.machine.host, HostCode.BlindTo (shiftFrom n k) code
  machine : ∃ R, s'.machine = s.machine.renumber (shiftFrom n k) R ∧
    ∀ id, R.find? (shiftFrom n k id) = s.machine.resolutions.find? id

variable {n k : Nat}

theorem Ahead.recording (hs : Ahead n k s s') (walk : Scope.Walk) :
    ∃ R, recording s'.machine (Renumber.walk (shiftFrom n k) walk) =
        (recording s.machine walk).renumber (shiftFrom n k) R ∧
      ∀ id, R.find? (shiftFrom n k id) = (recording s.machine walk).resolutions.find? id := by
  obtain ⟨R, hmachine, hR⟩ := hs.machine
  refine ⟨R.recordAll (Renumber.walk (shiftFrom n k) walk).found, ?_, ?_⟩
  · unfold Session.recording
    rw [hmachine]
    rfl
  · exact Resolutions.find?_recordAll_map (shiftFrom_injective n k) hR walk.found

theorem find?_forgetFrom_ahead {R R' : Resolutions} (hR : ∀ id, R'.find? (shiftFrom n k id) =
    R.find? id) {first : Nat} (hfirst : n ≤ first) (id : Nat) :
    (R'.forgetFrom (first + k)).find? (shiftFrom n k id) = (R.forgetFrom first).find? id := by
  have hlt : shiftFrom n k id < first + k ↔ id < first := by
    unfold shiftFrom
    split <;> omega
  rw [Resolutions.find?_forgetFrom, Resolutions.find?_forgetFrom, hR]
  simp only [hlt]

/-- With other numbers a draft is settled in the same way. -/
theorem settle_ahead (hd : d.Fair s.nextId) (hahead : d.Ahead (shiftFrom n k) k d')
    (hs : Ahead n k s s') :
    match settle d s with
    | some (a, t) => ∃ t', settle d' s' = some (a, t') ∧ Ahead n k t t'
    | none => settle d' s' = none := by
  have hfirst := Nat.le_trans hs.first hd.nextId
  have hskip : Ahead n k { s with nextId := d.nextId } { s' with nextId := d.nextId + k } :=
    ⟨hfirst, rfl, hs.host, hs.machine⟩
  unfold settle
  rw [hahead.report, hahead.nextId, hahead.refuse, hahead.walk]
  cases hwalk : d.walk with
  | none => exact ⟨_, rfl, hskip⟩
  | some walk =>
    obtain ⟨R, hrecording, hR⟩ := hs.recording walk
    have herrors : (Renumber.walk (shiftFrom n k) walk).errors = walk.errors := rfl
    simp only [Option.map_some, herrors, hrecording]
    by_cases hread : d.report.hadError = true
    · simp only [if_pos hread]
      exact ⟨_, rfl, hskip⟩
    simp only [if_neg hread]
    by_cases hscope : (d.report.addAll walk.errors).hadError = true
    · simp only [if_pos hscope]
      refine ⟨_, rfl, hfirst, rfl, hs.host, R.forgetFrom s'.nextId, rfl, fun id => ?_⟩
      rw [hs.nextId]
      exact find?_forgetFrom_ahead hR hs.first id
    simp only [if_neg hscope]
    have hdoes := hahead.does walk hwalk (Bool.not_eq_true _ ▸ hscope) _ R hR
    have hends := hdoes.ends (recording s.machine walk) ⟨rfl, hs.host⟩
    unfold Ends at hends
    cases htask : d.task (recording s.machine walk) with
    | ok a machine =>
      rw [htask] at hends
      obtain ⟨hfit, -, htask'⟩ := hends
      simp only [htask']
      refine ⟨_, rfl, hfirst, rfl, hfit.host, R, rfl, fun id => ?_⟩
      rw [hR id, hfit.resolutions]
    | error stop machine =>
      rw [htask] at hends
      simp only [hends.2]

/-- With other numbers an input gets the same answer. -/
theorem answer_ahead (fuel : Nat) (input : Input) (hs : Ahead n k s s') :
    match answer fuel input s with
    | some (a, t) => ∃ t', answer fuel input s' = some (a, t') ∧ Ahead n k t t'
    | none => answer fuel input s' = none := by
  have hahead := draft_ahead fuel s.nextId (fun _ hi => shiftFrom_above hi) hs.first input
    (k := k)
  rw [answer_eq_settle, answer_eq_settle, hs.nextId]
  exact settle_ahead (draft_fair fuel s.nextId input) hahead hs

/-- What a host can see after some inputs: the answers, the output, and the texts of values. -/
def observed (r : List Answer × Session) : List Answer × Sink × (Value → String) :=
  (r.1, r.2.machine.sink, r.2.machine.heap.describe)

theorem answers_ahead (inputs : List (Nat × Input)) (hs : Ahead n k s s') :
    (answers inputs s').map observed = (answers inputs s).map observed := by
  induction inputs generalizing s s' with
  | nil =>
    obtain ⟨R, hmachine, -⟩ := hs.machine
    have hdescribe : s'.machine.heap.describe = s.machine.heap.describe := by
      rw [hmachine]
      exact funext fun v => Heap.renumber_describe _ s.machine.heap v
    have hsink : s'.machine.sink = s.machine.sink := by rw [hmachine]; rfl
    simp only [answers, Option.map_some, observed, hdescribe, hsink]
  | cons head rest ih =>
    obtain ⟨fuel, input⟩ := head
    have hhead := answer_ahead fuel input hs
    cases hanswer : answer fuel input s with
    | none =>
      rw [hanswer] at hhead
      simp only [answers, hanswer, hhead]
    | some result =>
      obtain ⟨a, t⟩ := result
      rw [hanswer] at hhead
      obtain ⟨t', hanswer', ht⟩ := hhead
      have hrest := congrArg (Option.map fun seen => (a :: seen.1, seen.2)) (ih ht)
      simp only [answers, hanswer, hanswer', Option.bind_some, Option.map_map] at hrest ⊢
      exact hrest

/-! ## The main statement -/

/-- Two sessions whose machines are in the same state. What is recorded is the same for every
node, and for as many nodes. -/
structure SameState (s s' : Session) : Prop where
  globals : s'.machine.globals = s.machine.globals
  current : s'.machine.current = s.machine.current
  heap : s'.machine.heap = s.machine.heap
  callDepth : s'.machine.callDepth = s.machine.callDepth
  found : ∀ id, s'.machine.resolutions.find? id = s.machine.resolutions.find? id
  count : s'.resolutionCount = s.resolutionCount
  sink : s'.machine.sink = s.machine.sink
  clock : s'.machine.clock = s.machine.clock
  host : s'.machine.host = s.machine.host

/-- What a rejection leaves. -/
theorem settled_rejected (hd : d.Fair s.nextId) (h : Settled d s a s') (hs : s.Numbered)
    (ha : a.faults.hadError = true) :
    a.faults.runtime = #[] ∧ s.SameState s' ∧ s.nextId ≤ s'.nextId := by
  cases h with
  | unread _ =>
    refine ⟨?_, ⟨rfl, rfl, rfl, rfl, fun _ => rfl, rfl, rfl, rfl, rfl⟩, hd.nextId⟩
    rw [hd.refuse, hd.runtime]
  | @unscoped walk hwalk hread hscope =>
    have hfound : ∀ id, ((recording s.machine walk).resolutions.forgetFrom s.nextId).find? id =
        s.machine.resolutions.find? id := by
      intro id
      rw [Resolutions.find?_forgetFrom]
      by_cases hlt : id < s.nextId
      · rw [if_pos hlt, find?_recording hd hwalk hread (.inl hlt)]
      · rw [if_neg hlt, hs id (Nat.not_lt.mp hlt)]
    refine ⟨?_, ⟨rfl, rfl, rfl, rfl, hfound, Resolutions.count_eq_of_find? hfound, rfl, rfl, rfl⟩,
      hd.nextId⟩
    rw [hd.refuse, Report.runtime_addAll (hd.static walk hwalk), hd.runtime]
  | done hwalk hread hscope hdone =>
    have hfine : a.faults.hadError = false := (done_fine hd hwalk hread hscope hdone).1
    rw [hfine] at ha
    cases ha

/-- A session in the same state is the same session with other numbers. -/
theorem SameState.ahead (h : s.SameState s') (hs : s.Contained) (hle : s.nextId ≤ s'.nextId) :
    Ahead s.nextId (s'.nextId - s.nextId) s s' := by
  have hbeyond := beyond_shiftFrom s.nextId (s'.nextId - s.nextId)
  refine ⟨Nat.le_refl _, by omega, hs.host _ hbeyond, s'.machine.resolutions, ?_, fun id => ?_⟩
  · unfold Machine.renumber
    rw [hs.bodies _ hbeyond]
    obtain ⟨hglobals, hcurrent, hheap, hcallDepth, -, -, hsink, hclock, hhost⟩ := h
    cases hm : s'.machine
    simp_all
  · rw [h.found]
    by_cases hlt : id < s.nextId
    · rw [shiftFrom_below hlt]
    · have hid := Nat.not_lt.mp hlt
      rw [hs.numbered id hid, hs.numbered _ (hbeyond.above id hid)]

/-- **A rejected input leaves no trace.** After any inputs to a session, with any functions of
the host, an input whose answer tells of an error of the text writes nothing and reports no error
of execution, and the machine is in the same state as before. If the functions of the host take
no notice of the numbers in trees, all later inputs, too, get the same answers, write the same
output and leave values with the same texts as if it had never been given. -/
theorem rejected_leaves_no_trace {sink : Sink} {reading : Nat → Float} {natives : List Native}
    {history : List (Nat × Input)} {as : List Answer} {s s' : Session} {fuel : Nat}
    {input : Input} {a : Answer}
    (hreached : answers history ((start sink reading).withNatives natives) = some (as, s))
    (hanswer : s.answer fuel input = some (a, s')) (hrejected : a.faults.hadError = true) :
    a.faults.runtime = #[] ∧ s.SameState s' ∧
      ((∀ n ∈ natives, HostCode.Blind n.code) → ∀ later : List (Nat × Input),
        (answers later s').map observed = (answers later s).map observed) := by
  have hnumbered : s.Numbered := settled_induction (fun _ _ _ _ => numbered_settled) history
    hreached (numbered_start sink reading natives)
  rw [answer_eq_settle] at hanswer
  obtain ⟨hruntime, hsame, hle⟩ := settled_rejected (draft_fair fuel s.nextId input)
    (settled_of_settle hanswer) hnumbered hrejected
  refine ⟨hruntime, hsame, fun hblind later => ?_⟩
  have hcontained : s.Contained := settled_induction (fun _ _ _ _ => contained_settled) history
    hreached (contained_start sink reading hblind)
  exact answers_ahead later (hsame.ahead hcontained hle)

/-- The distance of `c` is recorded before the `return` is found to be out of place. -/
theorem rejected_leaves_no_trace_return :
    let history : List (Nat × Input) := [(30, .program "fun f() { var b = f; return b; } print f();")]
    let rejected : Input := .program "{ var c = f; print c; return c; }"
    ∃ as s a s', answers history ((start .reliable fun _ => 0).withNatives Native.extras) =
        some (as, s) ∧
      s.answer 30 rejected = some (a, s') ∧ a.faults.hadError = true ∧
      (recording s.machine (Scope.program (readProgram "{ var c = f; print c; return c; }"
        s.nextId).value)).resolutions.count = 3 ∧ s.resolutionCount = 1 ∧
      a.faults.runtime = #[] ∧ s.SameState s' ∧ ∀ later : List (Nat × Input),
        (answers later s').map observed = (answers later s).map observed := by
  intro history rejected
  have hrun : ((answers history ((start .reliable fun _ => 0).withNatives Native.extras)).bind
      fun r => (r.2.answer 30 rejected).map fun r' => (r'.1.faults.hadError,
        (recording r.2.machine (Scope.program (readProgram "{ var c = f; print c; return c; }"
          r.2.nextId).value)).resolutions.count, r.2.resolutionCount)) = some (true, 3, 1) := by
    decide +kernel
  obtain ⟨⟨as, s⟩, hreached, hrun⟩ := Option.bind_eq_some_iff.mp hrun
  obtain ⟨⟨a, s'⟩, hanswer, hrun⟩ := Option.map_eq_some_iff.mp hrun
  obtain ⟨hrejected, hcounts⟩ := Prod.mk.inj hrun
  obtain ⟨hrecorded, hcount⟩ := Prod.mk.inj hcounts
  obtain ⟨hruntime, hsame, hlater⟩ := rejected_leaves_no_trace hreached hanswer hrejected
  exact ⟨as, s, a, s', hreached, hanswer, hrejected, hrecorded, hcount, hruntime, hsame,
    hlater extras_blind⟩

end Session
end Lox
