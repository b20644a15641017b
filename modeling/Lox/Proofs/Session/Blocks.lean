import Lox.Proofs.Blocks.Kin
import Lox.Proofs.Session.Flows
import Lox.Proofs.Twin.Eval

/-! # A program does what the block of it does

In a fresh session a program can be executed as it is, with global names, or as
one block, with names of a scope. Its output is the same, and so is the error
that ends it. -/

namespace Lox

open Twin

namespace Scope

/-- A node for which a walk finds no declaration. -/
def Walk.Unrecorded (w : Walk) (id : Nat) : Prop := ∀ entry ∈ w.found, entry.1 ≠ id

instance (w : Walk) (id : Nat) : Decidable (w.Unrecorded id) := by
  unfold Walk.Unrecorded
  infer_instance

theorem unrecorded_of_find? {R : Resolutions} {w : Walk} {id : Nat}
    (h : (R.recordAll w.found).find? id = none) : w.Unrecorded id := by
  rintro ⟨key, hops⟩ hentry rfl
  exact Resolutions.find?_recordAll_of_mem hentry h

end Scope

namespace Session

/-- The error that ends a program, if there is one, and the sink after it. There is no answer when
it does not end within `fuel` steps. -/
def outcome? (fuel : Nat) (ss : List Stmt) (s : Session) : Option (Option Diagnostic × Sink) :=
  match execute fuel ss (recording s.machine (Scope.program ss)) with
  | .ok error m => some (error, m.sink)
  | .error _ _ => none

/-- A program ends with this error, or with none, and with this in the sink. -/
def Yields (s : Session) (ss : List Stmt) (error : Option Diagnostic) (out : Sink) : Prop :=
  ∃ fuel, s.outcome? fuel ss = some (error, out)

variable {ss : List Stmt} {m t : Machine} {error : Option Diagnostic}

/-- Statements that finish normally are executed in sequence. -/
theorem execute_iff (hss : Finishing.stmts False False ss) (hbare : ∀ e, ss ≠ [.expression e]) :
    (∃ fuel, execute fuel ss m = .ok error t) ↔
      ∃ fuel, Eval.stmts fuel ss m = Eval.ending error t := by
  constructor
  · rintro ⟨fuel, h⟩
    rw [execute_statements fuel hbare] at h
    cases hprogram : Eval.program fuel #[] ss m with
    | ok c u =>
      have hend := (bind_of_ok hprogram).symm.trans h
      cases hend
      exact Eval.stmts_of_program hss hprogram
    | error stop u => cases (bind_of_error hprogram).symm.trans h
  · rintro ⟨fuel, h⟩
    obtain ⟨c, hc, rfl⟩ := Eval.program_of_stmts hss h #[]
    refine ⟨fuel, ?_⟩
    rw [execute_statements fuel hbare]
    exact bind_of_ok hc

variable {s : Session} {out : Sink}

theorem outcome?_eq_some {fuel : Nat} : s.outcome? fuel ss = some (error, out) ↔
    ∃ t, execute fuel ss (recording s.machine (Scope.program ss)) = .ok error t ∧ t.sink = out := by
  unfold outcome?
  cases execute fuel ss (recording s.machine (Scope.program ss)) with
  | ok error' t =>
    constructor
    · intro h
      obtain ⟨rfl, rfl⟩ := Prod.mk.inj (Option.some.inj h)
      exact ⟨t, rfl, rfl⟩
    · rintro ⟨u, h, rfl⟩
      cases h
      rfl
  | error stop t =>
    constructor
    · intro h
      cases h
    · rintro ⟨u, h, -⟩
      cases h

theorem yields_iff (hss : Finishing.stmts False False ss) (hbare : ∀ e, ss ≠ [.expression e]) :
    s.Yields ss error out ↔ ∃ fuel t,
      Eval.stmts fuel ss (recording s.machine (Scope.program ss)) = Eval.ending error t ∧
        t.sink = out := by
  constructor
  · rintro ⟨fuel, h⟩
    obtain ⟨t, h, hout⟩ := outcome?_eq_some.mp h
    obtain ⟨fuel', h'⟩ := (execute_iff hss hbare).mp ⟨fuel, h⟩
    exact ⟨fuel', t, h', hout⟩
  · rintro ⟨fuel, t, h, hout⟩
    obtain ⟨fuel', h'⟩ := (execute_iff hss hbare).mpr ⟨fuel, h⟩
    exact ⟨fuel', outcome?_eq_some.mpr ⟨t, h', hout⟩⟩

/-- A block yields what its statements do in a frame of their own. -/
theorem yields_block_iff (hss : Finishing.stmts False False ss) :
    s.Yields [.block ss] error out ↔ ∃ fuel t,
      Eval.stmts fuel ss (Eval.entering (recording s.machine (Scope.program [.block ss]))) =
        Eval.ending error t ∧ t.sink = out := by
  have hblock : Finishing.stmts False False [.block ss] := ⟨hss, trivial⟩
  rw [yields_iff hblock fun e h => by cases h]
  constructor
  · rintro ⟨fuel, t, h, rfl⟩
    obtain ⟨fuel', u, h', rfl⟩ := (Eval.stmts_block hss).mp ⟨fuel, h⟩
    exact ⟨fuel', u, h', rfl⟩
  · rintro ⟨fuel, u, h, rfl⟩
    obtain ⟨fuel', h'⟩ := (Eval.stmts_block hss).mpr ⟨fuel, u, h, rfl⟩
    exact ⟨fuel', _, h', rfl⟩

/-- How a program ends does not depend on the bound on steps. -/
theorem Yields.unique {error' : Option Diagnostic} {out' : Sink}
    (h : s.Yields ss error out) (h' : s.Yields ss error' out') : error = error' ∧ out = out' := by
  obtain ⟨fuel, h⟩ := h
  obtain ⟨fuel', h'⟩ := h'
  obtain ⟨m, hm, rfl⟩ := outcome?_eq_some.mp h
  obtain ⟨m', hm', rfl⟩ := outcome?_eq_some.mp h'
  have hmost {n k : Nat} (hle : n ≤ k) :=
    (Eval.prolongs_of_le (fun fuel => prolongs_execute fuel ss) hle).ends
      (recording s.machine (Scope.program ss))
  have hboth := ((hmost (Nat.le_max_left fuel fuel')).of_ok hm).symm.trans
    ((hmost (Nat.le_max_right fuel fuel')).of_ok hm')
  cases hboth
  exact ⟨rfl, rfl⟩

end Session

namespace Blocks

open Session

variable (sink : Sink) (reading : Nat → Float)

/-- In a fresh session the clock is known and nothing else. -/
theorem get?_start (f : FrameId) (name : String) :
    (start sink reading).machine.heap.get? f name =
      if (⟨0⟩ : FrameId) = f ∧ "clock" = name then some (.native ⟨0⟩) else none := by
  have hbare : (Heap.empty.newFrame none .empty).2.get? f name = none := by
    rw [Heap.get?_newFrame]
    by_cases hf : f = (Heap.empty.newFrame none .empty).1
    · exact if_pos hf
    · exact if_neg hf
  refine (Heap.get?_define _ _ _ _ _ _).trans ?_
  by_cases hclock : (⟨0⟩ : FrameId) = f ∧ "clock" = name
  · rw [if_pos hclock]
    exact if_pos ⟨hclock.1, hclock.2, Nat.zero_lt_one⟩
  · rw [if_neg hclock]
    exact (if_neg fun h => hclock ⟨h.1, h.2.1⟩).trans hbare

/-- Only the frame of the global names stands anywhere yet. -/
def beginning : World Nat where
  sites f f' depth := f = ⟨0⟩ ∧ f' = ⟨1⟩ ∧ depth = 0
  free _ := False
  methods _ := False

variable {R R' : Resolutions} {top : String → Prop}

/-- Before the first statement the frame of the block is as empty as that of the global names is
of names of the program. -/
theorem framed_beginning (hclock : ¬ top "clock") :
    Framed R R' top beginning.sites (start sink reading).machine.heap
      ((start sink reading).machine.heap.newFrame (some ⟨0⟩) .empty).2 where
  size := rfl
  later := by
    rintro f f' depth ⟨rfl, rfl, -⟩
    rfl
  bound := by
    rintro f depth ⟨rfl, -⟩
    exact Nat.zero_lt_one
  unique := by
    rintro f depth depth' ⟨-, -, rfl⟩ ⟨-, -, rfl⟩
    rfl
  chain := by
    rintro f depth depth' ⟨-, -, rfl⟩ hinside
    exact absurd hinside.symm (Nat.succ_ne_zero depth)
  held := by
    rintro f depth name name' ⟨rfl, -, rfl⟩ ⟨rfl, htop⟩
    have hnone : (start sink reading).machine.heap.get? ⟨0⟩ name' = none := by
      rw [get?_start]
      refine if_neg fun h : _ ∧ "clock" = name' => hclock ?_
      rw [h.2]
      exact htop rfl
    rw [hnone, Heap.get?_newFrame]
    exact if_pos rfl
  topmost := ⟨rfl, rfl, rfl⟩
  only _ hf := hf.1
  others name _ := by
    rw [Heap.get?_newFrame]
    exact if_neg fun h => Nat.zero_ne_one (FrameId.mk.inj h)

theorem heaps_beginning (hsuper : ¬ top "super") (hclock : ¬ top "clock") :
    Heaps (setting R R' top hsuper) beginning (start sink reading).machine.heap
      ((start sink reading).machine.heap.newFrame (some ⟨0⟩) .empty).2 where
  alike := ⟨rfl, rfl, rfl, rfl⟩
  frames := framed_beginning sink reading hclock
  free _ _ _ hf := hf.elim
  methods _ _ _ hf := hf.elim
  bounds := .inr ⟨fun _ hf => hf.elim, fun _ hf => hf.elim⟩
  known f o ho := by cases ho
  tables c name f hf := by cases hf
  values f name v hv := by
    rw [get?_start] at hv
    split at hv
    · obtain rfl := Option.some.inj hv
      exact World.fine_of_ne fun _ h => by cases h
    · cases hv
  fields i name v hv := by cases hv

/-- The two machines before the first statement: one at the top, and one in the block. -/
theorem side_beginning (ss : List Stmt) (hsuper : ¬ top "super") (hclock : ¬ top "clock") :
    let m := recording (start sink reading).machine (Scope.program ss)
    let m' := recording (start sink reading).machine (Scope.program [.block ss])
    Side (setting m.resolutions m'.resolutions top hsuper) beginning ⟨0⟩ ⟨1⟩ m (Eval.entering m') := by
  intro m m'
  have hhost : ∀ code ∈ m.host, code = Native.clock.code := fun code hcode =>
    Array.eq_of_mem_singleton hcode
  refine ⟨⟨heaps_beginning sink reading hsuper hclock, rfl, rfl, rfl, rfl, rfl, rfl, rfl, rfl,
    fun code hcode => ?_, .inr fun code hcode => ?_⟩, rfl, rfl⟩
  · rw [hhost code hcode]
    exact Native.clock_respectful
  · rw [hhost code hcode]
    exact Native.clock_discreet

/-- Nothing but what is the same is blamed. -/
theorem eq_of_blames {hsuper : ¬ top "super"} {d d' : Diagnostic}
    (h : (setting R R' top hsuper).Blames d d') : d' = d := by
  cases h with
  | located cause hspan => rw [show _ = _ from hspan]
  | undefined huse hspan => rw [show _ = _ from huse.2.1, show _ = _ from hspan]
  | output words => rfl

/-- Ending normally with this in the sink. -/
theorem ok_ending_iff {flow : Flow} {t : Machine} {error : Option Diagnostic} {out : Sink} :
    (∃ u, .ok flow t = Eval.ending error u ∧ u.sink = out) ↔
      error = none ∧ flow = .normal ∧ t.sink = out := by
  cases error with
  | none =>
    constructor
    · rintro ⟨u, h, rfl⟩
      cases h
      exact ⟨rfl, rfl, rfl⟩
    · rintro ⟨-, rfl, rfl⟩
      exact ⟨t, rfl, rfl⟩
  | some d =>
    constructor
    · rintro ⟨u, h, -⟩
      cases h
    · rintro ⟨h, -⟩
      cases h

/-- Ending with an error and with this in the sink. -/
theorem error_ending_iff {stop : Stop} {t : Machine} {error : Option Diagnostic} {out : Sink} :
    (∃ u, .error stop t = Eval.ending error u ∧ u.sink = out) ↔
      ∃ d, error = some d ∧ stop = .failed d ∧ t.sink = out := by
  constructor
  · rintro ⟨u, h, rfl⟩
    obtain ⟨d, rfl, rfl, rfl⟩ := Eval.error_of_ending h
    exact ⟨d, rfl, rfl, rfl⟩
  · rintro ⟨d, rfl, rfl, rfl⟩
    exact ⟨t, rfl, rfl⟩

/-- Statements that run side by side end in the same ways. -/
theorem ending_iff {hsuper : ¬ top "super"} {w : World Nat} {f f' : FrameId} {m m' : Machine}
    {ss : List Stmt} {depth : Nat} (hm : Side (setting R R' top hsuper) w f f' m m')
    (hf : w.sites f f' depth) (hkin : KinStmts (kinship R R' top) depth ss ss) (fuel : Nat)
    (error : Option Diagnostic) (out : Sink) :
    (∃ t, Eval.stmts fuel ss m = Eval.ending error t ∧ t.sink = out) ↔
      ∃ t, Eval.stmts fuel ss m' = Eval.ending error t ∧ t.sink = out := by
  have hsim := ((simWithin (setting R R' top hsuper) fuel).stmts hf hkin).ends m m' hm
  unfold Ends at hsim
  cases hr : Eval.stmts fuel ss m with
  | ok flow t =>
    rw [hr] at hsim
    obtain ⟨w', flow', t', -, hside, hr', rfl, -⟩ := hsim
    rw [hr', ok_ending_iff, ok_ending_iff, hside.sink]
  | error stop t =>
    rw [hr] at hsim
    obtain ⟨w', stop', t', -, hside, hr', hhalts⟩ := hsim
    rw [hr', error_ending_iff, error_ending_iff, hside.sink]
    cases hhalts with
    | failed hblames => rw [eq_of_blames hblames]
    | outOfFuel => rfl

/-- A statement that declares a name has it. -/
theorem mem_names_of_declared {s : Stmt} {name : String} (h : Watch.declared? s = some name) :
    name ∈ Names.stmt s := by
  cases s with
  | var target value =>
    cases value <;> (obtain rfl := Option.some.inj h; exact List.mem_cons_self)
  | function target fn =>
    obtain rfl := Option.some.inj h
    exact List.mem_cons_self
  | class_ target parent methods =>
    cases parent <;> (obtain rfl := Option.some.inj h; exact List.mem_cons_self)
  | _ => cases h

theorem mem_names_of_topNames {ss : List Stmt} {name : String} (h : name ∈ topNames ss) :
    name ∈ Names.stmts ss := by
  obtain ⟨s, hs, hname⟩ := List.mem_filterMap.mp h
  induction ss with
  | nil => cases hs
  | cons first rest ih =>
    rcases List.mem_cons.mp hs with rfl | hs
    · exact List.mem_append_left _ (mem_names_of_declared hname)
    · exact List.mem_append_right _
        (ih (List.mem_filterMap.mpr ⟨s, hs, hname⟩) hs)

/-- Keywords are declared nowhere. -/
theorem keyword_not_top {ss : List Stmt} (hnamed : Grammar.Named (Names.stmts ss)) (k : Keyword) :
    k.text ∉ topNames ss := fun h => (hnamed _ (mem_names_of_topNames h)).ne k rfl

/-- A program whose uses are known both at the top and in a block is kindred to itself. -/
theorem kin_program {ss : List Stmt} {next : Nat} (hplain : Plain.stmts ss)
    (hnamed : Grammar.Named (Names.stmts ss)) (hdrawn : Grammar.Drawn 0 (Nodes.stmts [] ss) next)
    (hscopes : (Scope.program ss).errors = #[]) (hblock : (Scope.program [.block ss]).errors = #[])
    (huses : ∀ use ∈ Uses.stmts ss, (Scope.program [.block ss]).Unrecorded use.id →
      use.name.text ∉ topNames ss) :
    KinStmts (kinship (Resolutions.empty.recordAll (Scope.program ss).found)
      (Resolutions.empty.recordAll (Scope.program [.block ss]).found) (· ∈ topNames ss))
      (0 : Nat) ss ss := by
  have hnew : ∀ id ∈ Nodes.stmts [] ss, id < next ∧ Resolutions.empty.find? id = none :=
    fun id hid => ⟨(hdrawn.bounds id hid).2, Resolutions.find?_empty id⟩
  have haddressed := Scope.addressed_program hplain hdrawn.nodup hnew hscopes
  have hplain' : Plain.stmts [.block ss] := ⟨hplain, trivial⟩
  have haddressed' := Scope.addressed_program hplain' hdrawn.nodup hnew hblock
  have haround : Around (· ∈ topNames ss) [] [[]] := by
    refine ⟨⟨[], rfl, fun _ h => by cases h⟩, ?_, ?_⟩
    · exact keyword_not_top hnamed .this
    · exact keyword_not_top hnamed .super
  refine kin_stmts ss haround hplain haddressed haddressed'.1 (fun use huse hnone => ?_)
    fun _ _ hname => hname
  exact huses use huse (Scope.unrecorded_of_find? hnone)

end Blocks

namespace Session

open Blocks

variable (sink : Sink) (reading : Nat → Float) {source : String}

/-- Let `P` be an accepted program, other than a bare expression, that does not declare `clock`,
and that uses no name of its own top before it is declared there in the block of `P`. Then `P` and
the block of `P` end alike in a fresh session: with the same output and the same error, or not. -/
theorem program_agrees_with_block
    (hread : (readProgram source 0).report.hadError = false)
    (hscopes : (Scope.program (readProgram source 0).value).errors = #[])
    (hblock : (Scope.program [.block (readProgram source 0).value]).errors = #[])
    (hbare : ∀ e, (readProgram source 0).value ≠ [.expression e])
    (hclock : "clock" ∉ topNames (readProgram source 0).value)
    (huses : ∀ use ∈ Uses.stmts (readProgram source 0).value,
      (Scope.program [.block (readProgram source 0).value]).Unrecorded use.id →
        use.name.text ∉ topNames (readProgram source 0).value)
    (error : Option Diagnostic) (out : Sink) :
    (start sink reading).Yields (readProgram source 0).value error out ↔
      (start sink reading).Yields [.block (readProgram source 0).value] error out := by
  have hdrawn := readProgram_drawn source 0 hread
  have hfinishing := finishing_readProgram hread hscopes
  have hnamed := named_readProgram hread
  have hplain := plain_readProgram hread
  generalize (readProgram source 0).value = ss at *
  have hkin := kin_program hplain hnamed hdrawn hscopes hblock huses
  have hside := side_beginning sink reading ss (keyword_not_top hnamed .super) hclock
  rw [yields_iff hfinishing hbare, yields_block_iff hfinishing]
  exact exists_congr fun fuel => ending_iff hside ⟨rfl, rfl, rfl⟩ hkin fuel error out

/-- Inheritance and an error, inside a block as at the top. -/
theorem program_agrees_with_block_inherited :
    let source := "class A \x7b m() \x7b print \"A\"; return this; \x7d \x7d
      class B < A \x7b m() \x7b return super.m(); \x7d \x7d print B().m(); print c;"
    let ss := (readProgram source 0).value
    (start .reliable fun _ => 0).Yields [.block ss]
      (some (.located (.execution (.undefinedVariable "c")) ⟨113, 114⟩))
      ⟨#["A", "B instance"], 2, none⟩ := by
  intro source ss
  have hall : (readProgram source 0).report.hadError = false ∧ (Scope.program ss).errors = #[] ∧
      (Scope.program [.block ss]).errors = #[] ∧ ss.length ≠ 1 ∧ "clock" ∉ topNames ss ∧
      (∀ use ∈ Uses.stmts ss, (Scope.program [.block ss]).Unrecorded use.id →
        use.name.text ∉ topNames ss) ∧
      (start .reliable fun _ => 0).outcome? 40 ss =
        some (some (.located (.execution (.undefinedVariable "c")) ⟨113, 114⟩),
          ⟨#["A", "B instance"], 2, none⟩) := by
    decide +kernel
  obtain ⟨hread, hscopes, hblock, hlength, hclock, huses, houtcome⟩ := hall
  exact (program_agrees_with_block .reliable (fun _ => 0) hread hscopes hblock
    (fun e he => hlength (congrArg List.length he)) hclock huses _ _).mp ⟨40, houtcome⟩

/-- Without the premise that nothing is wrong with `P` the two can differ: at the top a statement
follows on a `break` outside of loops, and in a block none does. -/
theorem break_ends_block_only :
    let ss := (readProgram "break; print \"a\";" 0).value
    (Scope.program ss).errors = #[] ∧ (Scope.program [.block ss]).errors = #[] ∧
      (∀ e, ss ≠ [.expression e]) ∧ "clock" ∉ topNames ss ∧
      (∀ use ∈ Uses.stmts ss, (Scope.program [.block ss]).Unrecorded use.id →
        use.name.text ∉ topNames ss) ∧
      (start .reliable fun _ => 0).Yields ss none ⟨#["a"], 1, none⟩ ∧
      ¬ (start .reliable fun _ => 0).Yields [.block ss] none ⟨#["a"], 1, none⟩ := by
  intro ss
  have hblock : (start .reliable fun _ => 0).Yields [.block ss] none ⟨#[], 0, none⟩ :=
    ⟨20, by decide +kernel⟩
  refine ⟨by decide +kernel, by decide +kernel, fun e he => ?_, by decide +kernel,
    by decide +kernel, ⟨20, by decide +kernel⟩, fun h => ?_⟩
  · have hlength : ss.length = 1 := congrArg List.length he
    revert hlength
    decide +kernel
  · have hlines := congrArg Sink.lines (h.unique hblock).2
    revert hlines
    decide

end Session
end Lox
