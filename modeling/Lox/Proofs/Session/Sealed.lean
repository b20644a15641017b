import Lox.Proofs.Session.Rejection
import Lox.Proofs.Twin.Mirror

/-! # Nothing refers to what is not there

Between two inputs, whatever a session has gone through, the heap refers to
frames and functions that are there, and functions that programs can get hold of
close over such frames. The functions of the host have to hand out no functions
of their own. -/

namespace Lox

open Twin

namespace Twin

variable {globals : FrameId} {R R' : Resolutions} {w : World Bool} {h : Heap} {m m' : Machine}

/-- What is recorded is of no concern to the heap. -/
theorem Heaps.mirror_records (hh : Heaps (mirror globals R) w h h) :
    Heaps (mirror globals R') w h h where
  alike := hh.alike
  frames := hh.frames
  free f o o' hf ho ho' :=
    have hclosed := hh.free f o o' hf ho ho'
    ⟨hclosed.face, hclosed.text⟩
  methods f o o' hf ho ho' :=
    have hunbound := hh.methods f o o' hf ho ho'
    ⟨hunbound.face, hunbound.text⟩
  bounds := hh.bounds.imp_left fun hopen => ⟨hopen.inside, hopen.free, hopen.methods⟩
  known := hh.known
  tables := hh.tables
  values := hh.values
  fields := hh.fields

/-- A machine beside itself, in the frame of the global names. -/
def Reflected (w : World Bool) (m : Machine) : Prop :=
  Side (mirror m.globals m.resolutions) w m.globals m.globals m m

theorem Reflected.withRecords (hm : Reflected w m) (R : Resolutions) :
    Reflected w { m with resolutions := R } :=
  ⟨{ heaps := hm.heaps.mirror_records
     globals := rfl
     globals' := rfl
     resolutions := rfl
     resolutions' := rfl
     callDepth := rfl
     sink := rfl
     clock := rfl
     host := rfl
     respectful := hm.respectful
     discreet := hm.discreet.imp_left fun hopen => ⟨hopen.inside, hopen.free, hopen.methods⟩ },
    hm.current, hm.current⟩

/-- A computation that runs beside itself leaves a machine beside itself. -/
theorem Reflected.of_ok {α : Type} {r : Run α} {a : α} (hm : Reflected w m)
    (hr : Sim (mirror m.globals m.resolutions) w m.globals m.globals r r fun _ _ _ => True)
    (h : r m = .ok a m') : ∃ w', Reflected w' m' := by
  obtain ⟨w', a', t', -, hside, ht', -⟩ := (hr.ends m m hm).of_ok h
  obtain ⟨-, rfl⟩ := EStateM.Result.ok.inj (h.symm.trans ht')
  refine ⟨w', ?_⟩
  unfold Reflected
  rw [show m'.globals = m.globals from hside.globals,
    show m'.resolutions = m.resolutions from hside.resolutions]
  exact hside

/-- A function of the host is made known. -/
theorem Reflected.defineNative (hm : Reflected w m) {n : Native} (hrespectful : n.code.Respectful)
    (hdiscreet : n.code.Discreet) : Reflected w (m.defineNative n) := by
  have hnative : Heaps (mirror m.globals m.resolutions) w
      (m.heap.newNative ⟨n.name, n.arity⟩).2 (m.heap.newNative ⟨n.name, n.arity⟩).2 :=
    { hm.heaps with
      alike := .refl _
      frames := hm.heaps.frames.congr rfl rfl
      bounds := hm.heaps.bounds.imp_right fun hb => ⟨hb.free, hb.methods⟩ }
  have hframes := hnative.frames.define m.globals n.name
    (.native (m.heap.newNative ⟨n.name, n.arity⟩).1)
  have hdefined := hnative.write hframes (World.fine_of_ne fun _ h => by cases h)
  refine ⟨⟨hdefined, rfl, rfl, rfl, rfl, rfl, rfl, rfl, rfl, fun code hcode => ?_, ?_⟩,
    hm.current, hm.current⟩
  · rcases Array.mem_push.mp hcode with hmem | rfl
    · exact hm.respectful code hmem
    · exact hrespectful
  · refine hm.discreet.imp_right fun hall code hcode => ?_
    rcases Array.mem_push.mp hcode with hmem | rfl
    · exact hall code hmem
    · exact hdiscreet

/-- Nothing is known but the frame of the global names. -/
def noWorld : World Bool where
  sites f f' _ := f = ⟨0⟩ ∧ f' = ⟨0⟩
  free _ := False
  methods _ := False

theorem reflected_bare (sink : Sink) (reading : Nat → Float) :
    Reflected noWorld (Machine.bare sink reading) := by
  have hframes : (Machine.bare sink reading).heap.frames = #[⟨none, .empty⟩] := rfl
  have hnames (f : FrameId) (name : String) : (Machine.bare sink reading).heap.get? f name = none :=
    (Heap.get?_newFrame Heap.empty none .empty f name).trans (by split <;> rfl)
  have hheaps : Heaps (mirror ⟨0⟩ .empty) noWorld (Machine.bare sink reading).heap
      (Machine.bare sink reading).heap :=
    { alike := .refl _
      frames :=
        { same := rfl
          globals := ⟨false, rfl, rfl⟩
          itself := fun hs => hs.2.trans hs.1.symm
          bound := by
            rintro f p ⟨rfl, -⟩
            exact Nat.zero_lt_one
          outer := by
            rintro f p outer ⟨rfl, -⟩ houter
            cases houter }
      free := fun _ _ _ hf => hf.elim
      methods := fun _ _ _ hf => hf.elim
      bounds := .inr ⟨fun _ hf => hf.elim, fun _ hf => hf.elim⟩
      known := fun f o ho => by cases ho
      tables := fun c name f hf => by cases hf
      values := fun f name v hv => by
        rw [hnames] at hv
        cases hv
      fields := fun i name v hv => by cases hv }
  have hhost (code : HostCode) : code ∉ (Machine.bare sink reading).host :=
    Array.not_mem_empty code
  exact ⟨⟨hheaps, rfl, rfl, rfl, rfl, rfl, rfl, rfl, rfl,
    fun code hcode => absurd hcode (hhost code),
    .inr fun code hcode => absurd hcode (hhost code)⟩, rfl, rfl⟩

theorem Sim.map {S : Setting} {w : World S.Place} {f f' : FrameId} {α α' β β' : Type} {r : Run α}
    {r' : Run α'} {Q : World S.Place → α → α' → Prop} {Q' : World S.Place → β → β' → Prop}
    {k : α → β} {k' : α' → β'} (h : Sim S w f f' r r' Q)
    (hk : ∀ w a a', Q w a a' → Q' w (k a) (k' a')) : Sim S w f f' (k <$> r) (k' <$> r') Q' := by
  rw [map_eq_pure_bind, map_eq_pure_bind]
  exact h.bind fun w' a a' _ hq => sim_pure (hk w' a a' hq)

end Twin

namespace Session

/-- Nothing in a session refers to what is not there. -/
def Sealed (s : Session) : Prop := ∃ w, Reflected w s.machine

/-- What is done with an input runs beside itself. -/
theorem sim_task (S : Setting) {good : S.Place → Prop} {known : Nat → Prop}
    (hmirrors : S.toKinship.Mirrors good known id) {w : World S.Place} {f f' : FrameId}
    {p : S.Place} (hf : w.sites f f' p) (hp : good p) (fuel : Nat) (input : Input) (first : Nat)
    (hk : AllKnown known (input.nodes first)) :
    Sim S w f f' (input.draft fuel first).task (input.draft fuel first).task fun _ _ _ => True := by
  cases input with
  | program source =>
    exact (sim_execute fuel hf (kin_stmts_self hmirrors _ hp hk)).map fun _ _ _ _ => trivial
  | expression source =>
    show Sim S w f f' (Draft.expression fuel source first).task
      (Draft.expression fuel source first).task fun _ _ _ => True
    have hk : AllKnown known ((readExpression source first).value.elim [] (Nodes.expr [])) := hk
    unfold Draft.expression
    dsimp only
    cases he : (readExpression source first).value with
    | none => exact sim_exhaust
    | some e =>
      rw [he] at hk
      exact ((simWithin S fuel).expr hf (kin_expr_self hmirrors e hp hk)).attempt.map
        fun _ _ _ _ => trivial

theorem Sealed.answer {s s' : Session} {fuel : Nat} {input : Input} {a : Answer}
    (h : answer fuel input s = some (a, s')) (hs : s.Sealed) : s'.Sealed := by
  obtain ⟨w, hw⟩ := hs
  rw [answer_eq_settle] at h
  cases settled_of_settle h with
  | unread => exact ⟨w, hw⟩
  | unscoped => exact ⟨w, hw.withRecords _⟩
  | @done walk _ _ _ _ _ hdone =>
    have hrecorded := hw.withRecords (s.machine.resolutions.recordAll walk.found)
    obtain ⟨p, hp⟩ := hw.heaps.frames.globals
    exact hrecorded.of_ok (sim_task _ mirrorKinship_mirrors hp trivial fuel input _
      fun _ _ => trivial) hdone

theorem sealed_start (sink : Sink) (reading : Nat → Float) {natives : List Native}
    (hnatives : ∀ n ∈ natives, n.code.Respectful ∧ n.code.Discreet) :
    ((start sink reading).withNatives natives).Sealed := by
  have hall : ∀ s : Session, s.Sealed → (s.withNatives natives).Sealed := by
    unfold withNatives
    induction natives with
    | nil => exact fun _ hs => hs
    | cons n rest ih =>
      obtain ⟨⟨hrespectful, hdiscreet⟩, hrest⟩ := List.forall_mem_cons.mp hnatives
      rintro s ⟨w, hw⟩
      exact ih hrest (s.defineNative n) ⟨w, hw.defineNative hrespectful hdiscreet⟩
  exact hall _ ⟨noWorld, (reflected_bare sink reading).defineNative Native.clock_respectful
    Native.clock_discreet⟩

/-- **Whatever inputs a session has taken**, nothing in it refers to what is not there. -/
theorem sealed_of_answers {sink : Sink} {reading : Nat → Float} {natives : List Native}
    (hnatives : ∀ n ∈ natives, n.code.Respectful ∧ n.code.Discreet)
    {inputs : List (Nat × Input)} {as : List Answer} {s : Session}
    (h : answers inputs ((start sink reading).withNatives natives) = some (as, s)) : s.Sealed :=
  answers_induction (fun _ _ _ _ _ => Sealed.answer) inputs h (sealed_start sink reading hnatives)

end Session
end Lox
