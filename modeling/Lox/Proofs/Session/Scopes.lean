import Lox.Proofs.Grammar.Plain
import Lox.Proofs.Scope.Resolved
import Lox.Proofs.Session.Course
import Lox.Proofs.Session.Rejection
import Lox.Proofs.Watch.Scopes

/-! # Scopes and frames agree

A session only runs what has been walked without errors, and the records of an
input stay as they are while later inputs run. So at every point of a session
the record for a use of a name leads to the scope that declares it. -/

namespace Lox

open Scope (Known)

/-! ## Uses of variables that are undefined -/

namespace Eval

variable {m : Machine}

theorem readVariable_undefined (id : Nat) (name : String) (span : Span) :
    readVariable id name span m = Run.fail (.undefinedVariable name) span m ↔
      m.bindingFrame? id name = none := by
  have hsame : m.readVariable id name = none ↔ m.bindingFrame? id name = none := by
    unfold Machine.readVariable Machine.bindingFrame?
    cases m.frameOf? id with
    | none => simp
    | some frame => cases hget : m.heap.get? frame name <;> simp [Option.filter, Heap.binds, hget]
  rw [← hsame]
  show Run.orElseFail (m.readVariable id name) _ span m = _ ↔ _
  cases m.readVariable id name with
  | none => exact ⟨fun _ => rfl, fun _ => rfl⟩
  | some v => exact ⟨nofun, nofun⟩

theorem writeVariable_undefined (target : Reference) (v : Value) :
    writeVariable target v m = Run.fail (.undefinedVariable target.name.text) target.name.span m ↔
      m.bindingFrame? target.id target.name.text = none := by
  unfold writeVariable
  cases m.bindingFrame? target.id target.name.text with
  | none => exact ⟨fun _ => rfl, fun _ => rfl⟩
  | some frame => exact ⟨nofun, nofun⟩

end Eval

namespace Watch

variable {α : Type} {K K' : Known}

/-! ## Inputs -/

/-- The uses in what an input was read as are addressed. -/
def Addressed (K : Known) (first : Nat) : Input → Prop
  | .program source => Scope.Addressed.stmts K [] (readProgram source first).value
  | .expression source => ∀ e, (readExpression source first).value = some e →
    Scope.Addressed.expr K [] e

theorem after_nil (s : Stmt) : Scope.after [] s = [] := by
  unfold Scope.after
  cases declared? s <;> rfl

theorem calm_outermost : Scene.outermost.Calm := fun _ hrib => by cases hrib

theorem Advances.attempt {w : Watched α} (h : Advances w) : Advances (attempt w) := by
  intro t
  rw [ends_attempt]
  refine (h t).imp (fun _ _ hu => hu) fun stop _ hu => ?_
  cases stop <;> exact hu

theorem tells_attempt {P : Record → Prop} {w : Watched α} {Q : α → Record → Prop}
    (h : Tells K P w Q) : Tells K P (attempt w) fun _ => (Fact.pure True).holds := by
  refine ⟨Advances.attempt h.grows, fun t ht hp => ?_⟩
  rw [ends_attempt]
  refine (h.ends t ht hp).imp (fun _ _ hu hlent => ⟨(hu hlent).1, trivial⟩) fun stop _ hu => ?_
  cases stop with
  | failed diagnostic => exact fun hlent => ⟨hu hlent, trivial⟩
  | outOfFuel => exact hu

theorem tells_program (fuel : Nat) (ss : List Stmt) (flows : Array Flow) :
    Tells K (Fact.stands (Scope.Addressed.stmts K [] ss) []).holds (program fuel flows ss)
      fun _ => (Fact.pure True).holds := by
  induction ss generalizing flows with
  | nil => exact tells_pure fun _ _ => trivial
  | cons s rest ih =>
    have hstmt := ((tellsWithin K fuel).stmt .outermost s).weaken
      (O := (Fact.stands (Scope.Addressed.stmts K [] (s :: rest)) []).holds)
      fun t h => ⟨⟨h.1.1, calm_outermost⟩, h.2⟩
    refine (tells_attempt hstmt).bind fun outcome => ?_
    cases outcome with
    | ok flow =>
      refine (ih (flows.push flow)).weaken fun t h => ⟨?_, h.1.2⟩
      have hrest := h.1.1.2
      rw [after_nil] at hrest
      exact hrest
    | error diagnostic => exact tells_pure fun _ _ => trivial

theorem tells_echo (fuel : Nat) (e : Expr) :
    Tells K (Fact.stands (Scope.Addressed.expr K [] e) []).holds (echo fuel e)
      fun _ => (Fact.pure True).holds := by
  refine ((tellsWithin K fuel).expr .outermost e).bind fun v => ?_
  exact tells_ask (M := fun _ _ => True) (fun _ _ _ => trivial) fun text => tells_writeLine text

theorem tells_execute (fuel : Nat) (ss : List Stmt) :
    Tells K (Fact.stands (Scope.Addressed.stmts K [] ss) []).holds (execute fuel ss)
      fun _ => (Fact.pure True).holds := by
  have hstatements := (tells_program (K := K) fuel ss #[]).bind fun completion =>
    tells_pure (a := completion.error) (Q := fun _ => (Fact.pure True).holds)
      fun _ _ => trivial
  rcases ss with _ | ⟨s, _ | ⟨s', rest⟩⟩
  · exact hstatements
  · cases s with
    | expression e =>
      have hecho := (tells_echo (K := K) fuel e).weaken
        (O := (Fact.stands (Scope.Addressed.stmts K [] [.expression e]) []).holds)
        fun t h => ⟨h.1.1, h.2⟩
      refine (tells_attempt hecho).bind fun outcome => ?_
      cases outcome with
      | ok _ => exact tells_pure fun _ _ => trivial
      | error diagnostic => exact tells_pure fun _ _ => trivial
    | _ => exact hstatements
  · cases s <;> exact hstatements

theorem Tells.map {β : Type} {F : Fact} {w : Watched α}
    (h : Tells K F.holds w fun _ => (Fact.pure True).holds) (f : α → β) :
    Tells K F.holds (f <$> w) fun _ => (Fact.pure True).holds := by
  rw [map_eq_pure_bind]
  exact h.bind fun _ => tells_pure fun _ _ => trivial

theorem tells_task (fuel : Nat) (input : Input) (first : Nat) :
    Tells K (Fact.stands (Addressed K first input) []).holds (task fuel input first)
      fun _ => (Fact.pure True).holds := by
  cases input with
  | program source => exact (tells_execute fuel _).map _
  | expression source =>
    unfold task
    dsimp only
    cases hvalue : (readExpression source first).value with
    | none => exact tells_exhaust
    | some e =>
      have hexpr := ((tellsWithin K fuel).expr .outermost e).weaken
        (O := (Fact.stands (Addressed K first (.expression source)) []).holds)
        fun t h => ⟨h.1 e hvalue, h.2⟩
      exact (tells_attempt hexpr).map _

/-! ## What was read is addressed -/

/-- An input with which nothing is wrong is addressed by what its walk finds. -/
theorem addressed_draft {fuel first : Nat} {input : Input} {R : Resolutions} {walk : Scope.Walk}
    (hnumbered : ∀ id, first ≤ id → R.find? id = none)
    (hwalk : (input.draft fuel first).walk = some walk)
    (hread : (input.draft fuel first).report.hadError = false)
    (hscope : ((input.draft fuel first).report.addAll walk.errors).hadError = false) :
    Addressed ⟨R.recordAll walk.found, (input.draft fuel first).nextId⟩ first input := by
  have hclean := (Report.clean_of_addAll
    ((draft_fair fuel first input).static walk hwalk) hscope).2
  cases input with
  | program source =>
    obtain rfl := Option.some.inj hwalk
    have hdrawn := readProgram_drawn source first hread
    exact Scope.addressed_program (plain_readProgram hread) hdrawn.nodup
      (fun id hid => ⟨(hdrawn.bounds id hid).2, hnumbered id (hdrawn.bounds id hid).1⟩) hclean
  | expression source =>
    intro e he
    obtain ⟨e', he', rfl⟩ := Option.map_eq_some_iff.mp hwalk
    obtain rfl := Option.some.inj (he.symm.trans he')
    have hdrawn := readExpression_drawn source first hread he
    exact Scope.addressed_wholeExpression (plain_readExpression hread he) hdrawn.nodup
      (fun id hid => ⟨(hdrawn.bounds id hid).2, hnumbered id (hdrawn.bounds id hid).1⟩) hclean

/-! ## Courses -/

namespace Course

/-- Between two inputs all that has been written down is right. -/
structure Good (c : Course) : Prop where
  record : c.record.Good ⟨c.record.machine.resolutions, c.nextId⟩
  outermost : c.record.machine.current = c.record.machine.globals
  numbered : c.session.Numbered

variable {c : Course}

/-- More becomes known, and nothing else changes. -/
theorem Good.become {s : Session} (hc : c.Good) (hheap : s.machine.heap = c.record.machine.heap)
    (hglobals : s.machine.globals = c.record.machine.globals)
    (hcurrent : s.machine.current = c.record.machine.current)
    (hextends : Known.Extends ⟨c.record.machine.resolutions, c.nextId⟩
      ⟨s.machine.resolutions, s.nextId⟩) (hnumbered : s.Numbered) : (c.become s).Good where
  record := by
    refine ⟨rfl, ?_, ?_, hc.record.points⟩
    · show Sound _ s.machine.globals s.machine.heap c.record.homes
      rw [hheap, hglobals]
      exact hc.record.sound.known hextends
    · show ∀ b ∈ c.record.completed, s.machine.heap.binds b.1 b.2 = true
      rw [hheap]
      exact hc.record.completed
  outermost := hcurrent.trans (hc.outermost.trans hglobals.symm)
  numbered := hnumbered

theorem Good.skip (hc : c.Good) {next : Nat} (hle : c.nextId ≤ next) :
    (c.become { c.session with nextId := next }).Good :=
  hc.become rfl rfl rfl ⟨hle, fun _ _ => rfl⟩ fun id hid => hc.numbered id (Nat.le_trans hle hid)

variable {d : Draft} {walk : Scope.Walk}

theorem Good.forget (hc : c.Good) (hd : d.Fair c.nextId) (hwalk : d.walk = some walk)
    (hread : d.report.hadError = false) :
    (c.become (Session.forgetFrom
      ⟨Session.recording c.record.machine walk, d.nextId⟩ c.nextId)).Good := by
  refine hc.become rfl rfl rfl ⟨hd.nextId, fun id hid => ?_⟩ fun id hid => ?_
  · have hfound := Session.find?_recording (s := c.session) hd hwalk hread (.inl hid)
    exact (Resolutions.find?_forgetFrom ..).trans ((if_pos hid).trans hfound)
  · have hlt : ¬ id < c.nextId := Nat.not_lt.mpr (Nat.le_trans hd.nextId hid)
    exact (Resolutions.find?_forgetFrom ..).trans (if_neg hlt)

theorem Good.record_walk (hc : c.Good) (hd : d.Fair c.nextId) (hwalk : d.walk = some walk)
    (hread : d.report.hadError = false) :
    (c.become ⟨Session.recording c.record.machine walk, d.nextId⟩).Good := by
  refine hc.become rfl rfl rfl ⟨hd.nextId, fun id hid => ?_⟩ fun id hid => ?_
  · exact Session.find?_recording (s := c.session) hd hwalk hread (.inl hid)
  · have hfound := Session.find?_recording (s := c.session) hd hwalk hread (.inr hid)
    exact hfound.trans (hc.numbered id (Nat.le_trans hd.nextId hid))

/-- What is known about functions stays, and so do the points. -/
structure GoesOn (c c' : Course) : Prop where
  homes : Kept c.record.homes c'.record.homes
  points : ∀ p ∈ c.record.points, p ∈ c'.record.points

theorem GoesOn.refl (c : Course) : c.GoesOn c := ⟨fun _ _ hhome => hhome, fun _ hp => hp⟩

theorem GoesOn.trans {c' c'' : Course} (h : c.GoesOn c') (h' : c'.GoesOn c'') : c.GoesOn c'' :=
  ⟨fun i home hhome => h'.homes i home (h.homes i home hhome), fun p hp => h'.points p (h.points p hp)⟩

theorem take_goesOn (fuel : Nat) (input : Input) (c : Course) :
    c.GoesOn (c.take fuel input).2 := by
  unfold take
  dsimp only
  cases (input.draft fuel c.nextId).walk with
  | none => exact ⟨fun _ _ hhome => hhome, fun _ hp => hp⟩
  | some walk =>
    dsimp only
    split
    · exact ⟨fun _ _ hhome => hhome, fun _ hp => hp⟩
    · split
      · exact ⟨fun _ _ hhome => hhome, fun _ hp => hp⟩
      · have hgrows := (tells_task (K := ⟨.empty, 0⟩) fuel input c.nextId).grows
          { c.record with machine := Session.recording c.record.machine walk }
        unfold Ends at hgrows
        cases hr : task fuel input c.nextId
            { c.record with machine := Session.recording c.record.machine walk } with
        | ok a t =>
          rw [hr] at hgrows
          exact ⟨hgrows.homes, hgrows.points⟩
        | error stop t =>
          rw [hr] at hgrows
          exact ⟨hgrows.homes, hgrows.points⟩

theorem takeAll_goesOn (inputs : List (Nat × Input)) (c : Course) :
    c.GoesOn (c.takeAll inputs).2 := by
  induction inputs generalizing c with
  | nil => exact .refl c
  | cons head rest ih =>
    obtain ⟨fuel, input⟩ := head
    have hfirst := take_goesOn fuel input c
    rw [takeAll]
    cases hr : c.take fuel input with
    | mk a? c' =>
      rw [hr] at hfirst
      cases a? with
      | none => exact hfirst
      | some a => exact hfirst.trans (ih c')

/-- An input leads from a good course to a good one. -/
theorem Good.take (hc : c.Good) (fuel : Nat) (input : Input)
    (hlent : (c.take fuel input).2.record.Lent) : (c.take fuel input).2.Good := by
  have hd := draft_fair fuel c.nextId input
  unfold Course.take at hlent ⊢
  dsimp only at hlent ⊢
  cases hwalk : (input.draft fuel c.nextId).walk with
  | none => exact hc.skip hd.nextId
  | some walk =>
    rw [hwalk] at hlent
    dsimp only at hlent ⊢
    by_cases hread : (input.draft fuel c.nextId).report.hadError = true
    · rw [if_pos hread]
      exact hc.skip hd.nextId
    have hread' := Bool.not_eq_true _ ▸ hread
    rw [if_neg hread] at hlent ⊢
    by_cases hscope : ((input.draft fuel c.nextId).report.addAll walk.errors).hadError = true
    · rw [if_pos hscope]
      exact hc.forget hd hwalk hread'
    rw [if_neg hscope] at hlent ⊢
    have hbegun := hc.record_walk hd hwalk hread'
    have haddressed := addressed_draft hc.numbered hwalk hread' (Bool.not_eq_true _ ▸ hscope)
    have hhere : Chain c.record.machine.heap c.record.machine.globals
        c.record.machine.current [] := by
      rw [hc.outermost]
      exact chain_globals ..
    have htask := tells_task (K := ⟨(Session.recording c.record.machine walk).resolutions,
      (input.draft fuel c.nextId).nextId⟩) fuel input c.nextId
    have hgrows := htask.grows { c.record with machine := Session.recording c.record.machine walk }
    have hends := htask.ends { c.record with machine := Session.recording c.record.machine walk }
      hbegun.record ⟨haddressed, hhere⟩
    -- whichever way the input ended, its records are the ones that it began with
    have hdone : ∀ t : Record,
        Record.Before { c.record with machine := Session.recording c.record.machine walk } t →
        t.Good ⟨(Session.recording c.record.machine walk).resolutions,
          (input.draft fuel c.nextId).nextId⟩ →
        Good ⟨t, (input.draft fuel c.nextId).nextId⟩ := by
      intro t hb ht
      refine ⟨?_, hb.current.trans (hc.outermost.trans hb.globals.symm), fun id hid => ?_⟩
      · show t.Good ⟨t.machine.resolutions, _⟩
        rw [hb.resolutions]
        exact ht
      · show t.machine.resolutions.find? id = none
        rw [hb.resolutions]
        exact hbegun.numbered id hid
    unfold Ends at hgrows hends
    cases hr : task fuel input c.nextId
        { c.record with machine := Session.recording c.record.machine walk } with
    | ok a t =>
      rw [hr] at hlent hgrows hends
      exact hdone t hgrows (hends hlent).1
    | error stop t =>
      rw [hr] at hlent hgrows hends
      exact hdone t hgrows (hends hlent)

theorem Good.takeAll (hc : c.Good) (inputs : List (Nat × Input))
    (hlent : (c.takeAll inputs).2.record.Lent) : (c.takeAll inputs).2.Good := by
  induction inputs generalizing c with
  | nil => exact hc
  | cons head rest ih =>
    obtain ⟨fuel, input⟩ := head
    have hfirst := hc.take fuel input
    rw [Course.takeAll] at hlent ⊢
    cases hr : c.take fuel input with
    | mk a? c' =>
      rw [hr] at hlent hfirst
      cases a? with
      | none => exact hfirst hlent
      | some a =>
        have hrest := takeAll_goesOn rest c'
        exact ih (hfirst (hlent.of_kept hrest.homes hrest.points)) hlent

theorem good_start (sink : Sink) (reading : Nat → Float) (natives : List Native) :
    (start ((Session.start sink reading).withNatives natives)).Good := by
  have hnatives : ∀ (K : Known) (s : Session), Sound K s.machine.globals s.machine.heap #[] →
      Sound K (s.withNatives natives).machine.globals (s.withNatives natives).machine.heap #[] := by
    intro K
    unfold Session.withNatives
    induction natives with
    | nil => exact fun _ hs => hs
    | cons n rest ih =>
      intro s hs
      exact ih (s.defineNative n) ((hs.newNative ⟨n.name, n.arity⟩).define s.machine.globals n.name
        (fine_of_ne fun _ hf => by cases hf))
  have hidle := Session.idle_withNatives natives (Session.idle_start sink reading)
  have hsound : ∀ K : Known, Sound K (Session.start sink reading).machine.globals
      (Session.start sink reading).machine.heap #[] := fun K =>
    ((sound_bare K sink reading).newNative ⟨"clock", 0⟩).define _ "clock"
      (fine_of_ne fun _ hf => by cases hf)
  refine ⟨⟨rfl, hnatives _ _ (hsound _), ?_, ?_⟩, hidle.current,
    Session.numbered_start sink reading natives⟩
  · intro b hb
    cases hb
  · intro p hp
    cases Array.not_mem_empty p hp

end Course
end Watch

/-! ## The main statement -/

open Watch in
/-- **Scopes and frames agree.** A session with any functions of the host takes any inputs, and
none of these functions hands out a method without an instance. Then at every point at which a
variable, an assignment, `this` or `super` is evaluated, the distance recorded for it leads to the
frame that was made when the innermost of the enclosing scopes that declare its name was entered,
and none of them declares it if nothing is recorded. Such an access is undefined only while the
initializer of the declaration has not been completed. The session that is watched is the session
itself, and an access fails exactly when no frame is found that binds it. -/
theorem scopes_agree {sink : Sink} {reading : Nat → Float} {natives : List Native}
    {inputs : List (Nat × Input)} {as : Option (List Answer)} {c : Course}
    (hcourse : (Course.start ((Session.start sink reading).withNatives natives)).takeAll inputs =
      (as, c)) (hlent : c.record.Lent) :
    (∀ p ∈ c.record.points, p.Right) ∧
      Session.answers inputs ((Session.start sink reading).withNatives natives) =
        as.map (fun as => (as, c.session)) ∧
      (∀ m id name span, Eval.readVariable id name span m =
        Run.fail (.undefinedVariable name) span m ↔ m.bindingFrame? id name = none) ∧
      ∀ m target v, Eval.writeVariable target v m =
        Run.fail (.undefinedVariable target.name.text) target.name.span m ↔
          m.bindingFrame? target.id target.name.text = none := by
  have hgood := (Course.good_start sink reading natives).takeAll inputs
  have hanswers := Course.answers_eq_takeAll inputs
    (Course.start ((Session.start sink reading).withNatives natives))
  rw [hcourse] at hgood hanswers
  exact ⟨(hgood hlent).record.points, hanswers, fun _ => Eval.readVariable_undefined,
    fun _ => Eval.writeVariable_undefined⟩

open Watch in
/-- Closures, an inherited method, a function of the host, and a variable that is used before its
initializer has been completed: at the last of these uses nothing is bound in the frame of its
block, which is one frame further out. -/
theorem scopes_agree_late :
    let inputs : List (Nat × Input) := [
      (40, .program "class A { get(x) { return x; } } class B < A { get(x) { return super.get(x); } }"),
      (40, .program "fun make(x) { var y = x; fun get() { return y; } return get; }"),
      (40, .program "make(double)()(1); B().get(2); { var late = fun () { return late; }(); }")]
    ∃ as c, (Course.start ((Session.start .reliable fun _ => 0).withNatives
          Native.extras)).takeAll inputs = (some as, c) ∧ c.record.Lent ∧
      (∀ p ∈ c.record.points, p.Right) ∧
      Session.answers inputs ((Session.start .reliable fun _ => 0).withNatives Native.extras) =
        some (as, c.session) ∧
      ∃ p ∈ c.record.points, p.event = .use 10 "late" ∧
        p.machine.resolutions.find? 10 = some 1 ∧ p.machine.bindingFrame? 10 "late" = none := by
  intro inputs
  let unbound (p : Point) : Bool :=
    match p.event with
    | .use id name => id = 10 && name = "late" && p.machine.resolutions.find? 10 = some 1 &&
      p.machine.bindingFrame? 10 "late" = none
    | _ => false
  have hrun : ((Course.start ((Session.start .reliable fun _ => 0).withNatives
      Native.extras)).takeAll inputs).1.isSome = true ∧
        ((Course.start ((Session.start .reliable fun _ => 0).withNatives
          Native.extras)).takeAll inputs).2.record.Lent ∧
        ((Course.start ((Session.start .reliable fun _ => 0).withNatives
          Native.extras)).takeAll inputs).2.record.points.toList.any unbound = true := by
    decide +kernel
  cases hcourse : (Course.start ((Session.start .reliable fun _ => 0).withNatives
      Native.extras)).takeAll inputs with
  | mk as? c =>
    rw [hcourse] at hrun
    obtain ⟨hsome, hlent, hlate⟩ := hrun
    obtain ⟨as, rfl⟩ := Option.isSome_iff_exists.mp hsome
    obtain ⟨hright, hanswers, -⟩ := scopes_agree hcourse hlent
    refine ⟨as, c, rfl, hlent, hright, hanswers, ?_⟩
    obtain ⟨p, hp, hunbound⟩ := List.any_eq_true.mp hlate
    refine ⟨p, Array.mem_toList_iff.mp hp, ?_⟩
    simp only [unbound] at hunbound
    split at hunbound
    · next id name hevent =>
      simp only [Bool.and_eq_true, decide_eq_true_eq] at hunbound
      obtain ⟨⟨⟨rfl, rfl⟩, hfound⟩, hnone⟩ := hunbound
      exact ⟨hevent, hfound, hnone⟩
    · cases hunbound

end Lox
