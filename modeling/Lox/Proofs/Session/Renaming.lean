import Lox.Proofs.Renaming.Kin
import Lox.Proofs.Session.Blocks
import Lox.Proofs.Session.Sealed

/-! # The names of local variables cannot be observed

In a session that has taken any inputs, a program is executed beside the one in
which a local variable is renamed. What was there before the program is the same
for both, and so is everything that they do. Only an error about an undefined
variable can tell the two names apart. -/

namespace Lox

open Twin

namespace Renaming

variable {r : Renaming} {R : Resolutions} {w : World Bool} {m : Machine} {globals : FrameId}
  {h : Heap}

/-- Errors that are the same, or tell that a variable is undefined by its old and its new name. -/
inductive Blames (r : Renaming) : Diagnostic → Diagnostic → Prop
  | same (d : Diagnostic) : Blames r d d
  | undefined (span : Span) : Blames r
      (.located (.execution (.undefinedVariable r.old)) span)
      (.located (.execution (.undefinedVariable r.fresh)) span)

theorem blames (hr : r.Proper) {d d' : Diagnostic} (h : (setting hr R globals).Blames d d') :
    r.Blames d d' := by
  cases h with
  | located cause hspan =>
    rw [show _ = _ from hspan]
    exact .same _
  | @undefined p id id' name name' span span' huse hspan =>
    rw [show span' = span from hspan]
    have huse : (R.find? id).elim (name' = name) fun hops =>
      r.Goes (p.getD hops false) name name' := huse.2
    cases hfound : R.find? id with
    | none =>
      rw [hfound] at huse
      rw [show name' = name from huse]
      exact .same _
    | some hops =>
      rw [hfound] at huse
      have hgoes : ∃ chosen, r.Goes chosen name name' := ⟨_, huse⟩
      obtain ⟨chosen, hgoes⟩ := hgoes
      cases hgoes with
      | renamed => exact .undefined span
      | plain => exact .same _
      | other => exact .same _
  | output words => exact .same _

theorem rel_blames (hr : r.Proper) {error error' : Option Diagnostic}
    (h : Option.Rel (setting hr R globals).Blames error error') :
    Option.Rel r.Blames error error' := by
  cases h with
  | some h => exact .some (blames hr h)
  | none => exact .none

/-! ## What was there before -/

/-- Before the program there are only frames that are outside of its scopes. -/
def before (w : World Bool) : World (List Bool) where
  sites f f' p := f' = f ∧ p = [] ∧ ∃ q, w.sites f f q
  free := w.free
  methods := w.methods

/-- None of the scopes has the renamed declaration. -/
def Outside (p : List Bool) : Prop := ∀ chosen ∈ p, chosen = false

theorem outside_getD {p : List Bool} (hp : Outside p) (hops : Nat) : p.getD hops false = false := by
  rw [List.getD_eq_getElem?_getD]
  cases hget : p[hops]? with
  | none => rfl
  | some chosen => exact hp chosen (List.mem_of_getElem? hget)

/-- What was there before is the same with the new name, which no scope around it has. -/
theorem mirrors (r : Renaming) (R : Resolutions) :
    (r.kinship R).Mirrors Outside (fun _ => True) id where
  inside p hp := ⟨false :: p, ⟨false, rfl⟩, List.forall_mem_cons.mpr ⟨rfl, hp⟩⟩
  span _ _ _ := rfl
  use p id name hp _ := by
    refine ⟨rfl, ?_⟩
    cases R.find? id with
    | none => rfl
    | some hops =>
      show r.Goes (List.getD p hops false) name name
      rw [outside_getD hp]
      exact .plain
  declare p name hp := by
    have hhead : List.headD p false = false := (headD_drop p 0).trans (outside_getD hp 0)
    show r.Goes (List.headD p false) name name
    rw [hhead]
    exact .plain

theorem framed_before (hf : MirrorFrames globals w.sites h h) :
    r.Framed R globals (before w).sites h h where
  size := rfl
  later hs := hs.1
  bound := by
    rintro f p ⟨-, -, q, hs⟩
    exact hf.bound f q hs
  unique hs hs' := hs.2.1.trans hs'.2.1.symm
  chain := by
    rintro f p q ⟨-, rfl, -⟩ ⟨chosen, hinside⟩
    cases hinside
  held := by
    rintro f p name name' ⟨-, rfl, -⟩ hname
    have hgoes : r.Goes false name name' := hname
    cases hgoes
    rfl
  home := ⟨rfl, rfl, hf.globals⟩
  outside := by
    rintro f ⟨-, -, q, hs⟩
    exact ⟨rfl, fun outer houter => ⟨rfl, rfl, hf.outer f q outer hs houter⟩⟩

theorem heaps_before (hr : r.Proper) {known : Resolutions} (hh : Heaps (mirror globals known) w h h) :
    Heaps (setting hr R globals) (before w) h h where
  alike := hh.alike
  frames := framed_before hh.frames
  free f o o' hf ho ho' := by
    obtain rfl := Option.some.inj (ho.symm.trans ho')
    obtain ⟨p, hs, -, -⟩ := (hh.free f o o hf ho ho).text
    have houtside : Outside [] := List.forall_mem_nil _
    have hkin := kin_lambda_self (mirrors r R) o.fn houtside fun _ _ => trivial
    exact ⟨rfl, [], ⟨rfl, rfl, p, hs⟩, hkin, fun _ => .plain⟩
  methods f o o' hf ho ho' := by
    obtain rfl := Option.some.inj (ho.symm.trans ho')
    obtain ⟨p, -, hs, -, -⟩ := (hh.methods f o o hf ho ho).text
    have houtside : Outside [false] := List.forall_mem_singleton.mpr rfl
    have hkin := kin_lambda_self (mirrors r R) o.fn houtside fun _ _ => trivial
    exact ⟨rfl, [], [false], ⟨rfl, rfl, p, hs⟩, ⟨false, rfl⟩, hkin⟩
  bounds := by
    rcases hh.bounds with hopen | hbounded
    · exact absurd hopen not_open_mirror
    · exact .inr ⟨hbounded.free, hbounded.methods⟩
  known := hh.known
  tables := hh.tables
  values := hh.values
  fields := hh.fields

/-- The two programs start on the same machine. -/
theorem side_before (hr : r.Proper) (hm : Reflected w m) :
    Side (setting hr m.resolutions m.globals) (before w) m.globals m.globals m m where
  heaps := heaps_before hr hm.heaps
  globals := rfl
  globals' := rfl
  resolutions := rfl
  resolutions' := rfl
  callDepth := rfl
  sink := rfl
  clock := rfl
  host := rfl
  respectful := hm.respectful
  discreet := .inr (hm.discreet.resolve_left not_open_mirror)
  current := hm.current
  current' := hm.current

end Renaming

namespace Session

open Renaming

variable {s : Session}

/-- Programs that run side by side end alike. -/
theorem outcome?_renamed {r : Renaming} (hproper : r.Proper) {ss : List Stmt} (hs : s.Sealed)
    (hfound : (Scope.program (r.program ss)).found = (Scope.program ss).found)
    (hkin : KinStmts (r.kinship (recording s.machine (Scope.program ss)).resolutions) [] ss
      (r.program ss)) (fuel : Nat) :
    Option.Rel (fun last last' => last'.2 = last.2 ∧ Option.Rel r.Blames last.1 last'.1)
      (s.outcome? fuel ss) (s.outcome? fuel (r.program ss)) := by
  obtain ⟨w, hw⟩ := hs
  have hsame : recording s.machine (Scope.program (r.program ss)) =
      recording s.machine (Scope.program ss) := by
    unfold recording
    rw [hfound]
  have hm : Reflected w (recording s.machine (Scope.program ss)) := hw.withRecords _
  unfold outcome?
  rw [hsame]
  generalize recording s.machine (Scope.program ss) = m at hkin hm ⊢
  have hside := side_before hproper hm
  have hsim := (sim_execute fuel hside.heaps.frames.home hkin).ends m m hside
  unfold Ends at hsim
  cases hr : execute fuel ss m with
  | ok error t =>
    rw [hr] at hsim
    obtain ⟨w', error', t', -, hside, hr', herror⟩ := hsim
    rw [hr']
    exact .some ⟨hside.sink, rel_blames hproper herror⟩
  | error stop t =>
    rw [hr] at hsim
    obtain ⟨w', stop', t', -, -, hr', -⟩ := hsim
    rw [hr']
    exact .none

/-- The new name of what a program declares is another one, and neither is a keyword. -/
theorem proper_of_named {r : Renaming} {ss : List Stmt} (hnamed : Grammar.Named (Names.stmts ss))
    (hold : r.old ∈ Names.stmts ss) (hfresh : r.fresh ∉ Names.stmts ss)
    (hordinary : Ordinary r.fresh) : r.Proper where
  fresh_ne_old := fun h => hfresh (h ▸ hold)
  this := ⟨((hnamed _ hold).ne .this).symm, (hordinary.ne .this).symm⟩
  super := ⟨((hnamed _ hold).ne .super).symm, (hordinary.ne .super).symm⟩

/-- **The names of local variables cannot be observed.** After any inputs to a session whose host
hands out no functions of its own, let nothing be wrong with a program `P`, and let a variable or a
parameter of `P` get a name that is no keyword and is nowhere in `P`. Then nothing is wrong with
the renamed program, the same distances are found for it, and it ends as `P` does: with the same
output and the same error, except that an undefined variable has the new name if it had the old
one. -/
theorem renamed_local_unobservable {sink : Sink} {reading : Nat → Float} {natives : List Native}
    (hnatives : ∀ n ∈ natives, n.code.Respectful ∧ n.code.Discreet)
    {history : List (Nat × Input)} {as : List Answer} {s : Session}
    (hreached : answers history ((start sink reading).withNatives natives) = some (as, s))
    {source : String} (hread : (readProgram source s.nextId).report.hadError = false)
    (hscopes : (Scope.program (readProgram source s.nextId).value).errors = #[])
    {r : Renaming} (hold : r.old ∈ Names.stmts (readProgram source s.nextId).value)
    (hfresh : r.fresh ∉ Names.stmts (readProgram source s.nextId).value)
    (hordinary : Ordinary r.fresh) :
    (Scope.program (r.program (readProgram source s.nextId).value)).errors = #[] ∧
      (Scope.program (r.program (readProgram source s.nextId).value)).found =
        (Scope.program (readProgram source s.nextId).value).found ∧
      ∀ fuel, Option.Rel (fun last last' => last'.2 = last.2 ∧ Option.Rel r.Blames last.1 last'.1)
        (s.outcome? fuel (readProgram source s.nextId).value)
        (s.outcome? fuel (r.program (readProgram source s.nextId).value)) := by
  have hnumbered : s.Numbered := settled_induction (fun _ _ _ _ => numbered_settled) history
    hreached (numbered_start sink reading natives)
  have hsealed := sealed_of_answers hnatives hreached
  have hdrawn := readProgram_drawn source s.nextId hread
  have hnamed := named_readProgram hread
  have hplain := plain_readProgram hread
  generalize (readProgram source s.nextId).value = ss at *
  have hproper := proper_of_named hnamed hold hfresh hordinary
  have hnew : ∀ id ∈ Nodes.stmts [] ss, id < (readProgram source s.nextId).nextId ∧
      s.machine.resolutions.find? id = none := fun id hid =>
    ⟨(hdrawn.bounds id hid).2, hnumbered id (hdrawn.bounds id hid).1⟩
  have haddressed := Scope.addressed_program hplain hdrawn.nodup hnew hscopes
  obtain ⟨⟨herrors, hfound⟩, hkin⟩ := kin_program hproper hplain hfresh haddressed hscopes
  exact ⟨herrors, hfound, outcome?_renamed hproper hsealed hfound hkin⟩

/-- A variable that is used in its own initializer is undefined by its new name. Another variable of
the old name, and a global one, keep it. -/
theorem renamed_local_unobservable_initializer :
    let history : List (Nat × Input) :=
      [(30, .program "var a = \"global\"; fun get() \x7b return a; \x7d")]
    let source := "\x7b var a = get(); print a; \x7b var a = fun () \x7b return a; \x7d(); \x7d \x7d"
    let ss := (readProgram source 1).value
    let r : Renaming := ⟨⟨"a", ⟨32, 33⟩⟩, "b"⟩
    ∃ as s, answers history ((start .reliable fun _ => 0).withNatives []) = some (as, s) ∧
      s.outcome? 40 ss = some (some (.located (.execution (.undefinedVariable "a")) ⟨52, 53⟩),
        ⟨#["global"], 1, none⟩) ∧
      (Scope.program (r.program ss)).errors = #[] ∧
      (Scope.program (r.program ss)).found = (Scope.program ss).found ∧
      ∃ error, s.outcome? 40 (r.program ss) = some (some error, ⟨#["global"], 1, none⟩) ∧
        r.Blames (.located (.execution (.undefinedVariable "a")) ⟨52, 53⟩) error := by
  intro history source ss r
  have hall : (answers history ((start .reliable fun _ => 0).withNatives [])).map
        (fun run => (run.2.nextId, run.2.outcome? 40 ss)) = some (1,
          some (some (.located (.execution (.undefinedVariable "a")) ⟨52, 53⟩),
            ⟨#["global"], 1, none⟩)) ∧
      (readProgram source 1).report.hadError = false ∧ (Scope.program ss).errors = #[] ∧
      r.old ∈ Names.stmts ss ∧ r.fresh ∉ Names.stmts ss ∧ Ordinary r.fresh := by
    decide +kernel
  obtain ⟨hrun, hread, hscopes, hold, hfresh, hordinary⟩ := hall
  obtain ⟨⟨as, s⟩, hreached, hrun⟩ := Option.map_eq_some_iff.mp hrun
  obtain ⟨hnext, houtcome⟩ := Prod.mk.inj hrun
  have hnext : s.nextId = 1 := hnext
  have houtcome : s.outcome? 40 ss = _ := houtcome
  have hread : (readProgram source s.nextId).report.hadError = false := hnext.symm ▸ hread
  have hss : (readProgram source s.nextId).value = ss := by rw [hnext]
  have hmain := renamed_local_unobservable (r := r) (List.forall_mem_nil _) hreached hread
    (hss.symm ▸ hscopes) (hss.symm ▸ hold) (hss.symm ▸ hfresh) hordinary
  rw [hss] at hmain
  obtain ⟨herrors, hfound, houtcomes⟩ := hmain
  refine ⟨as, s, hreached, houtcome, herrors, hfound, ?_⟩
  have hrel := houtcomes 40
  rw [houtcome] at hrel
  generalize s.outcome? 40 (r.program ss) = last at hrel ⊢
  cases hrel with
  | @some _ last h =>
    obtain ⟨error?, out⟩ := last
    obtain ⟨hsink, herror⟩ := h
    obtain rfl : out = _ := hsink
    have herror : Option.Rel r.Blames (some _) error? := herror
    cases herror with
    | some h => exact ⟨_, rfl, h⟩

/-- With the methods of classes that a function of the host hands out, names can be observed: such a
method has no instance, so it looks one scope too far out for the variables around its class. The
scope there has a variable of the old name, and none of the new one. -/
theorem unbound_method_observes_name :
    let s := (start .reliable fun _ => 0).withNatives Native.extras
    let source := "\x7b var a = \"outer\"; \x7b var a = \"inner\"; " ++
      "class A \x7b m() \x7b return a; \x7d \x7d var f = unbound(A, \"m\"); print f(); \x7d \x7d"
    let ss := (readProgram source s.nextId).value
    let r : Renaming := ⟨⟨"a", ⟨25, 26⟩⟩, "b"⟩
    (Scope.program ss).errors = #[] ∧ r.old ∈ Names.stmts ss ∧ r.fresh ∉ Names.stmts ss ∧
      Ordinary r.fresh ∧ s.outcome? 40 ss = some (none, ⟨#["outer"], 1, none⟩) ∧
      s.outcome? 40 (r.program ss) =
        some (some (.located (.execution (.undefinedVariable "b")) ⟨61, 62⟩), ⟨#[], 0, none⟩) := by
  decide +kernel

end Session
end Lox
