import Lox.Native
import Lox.Proofs.Heap.Chains
import Lox.Proofs.Ledger.Grounds
import Lox.Proofs.Session.Fields

/-! # Frames and classes in their order

At every moment of a session frames lie in older frames and classes are below older
classes, and what lies where never changes. So the way outwards and the way upwards
come to an end, whatever names are bound to in the meantime. -/

namespace Lox

namespace Heap

/-- The way outwards from a frame: it ends in the global one, and to go some frames outwards is to
go along it. -/
def Outward (h : Heap) (globals f : FrameId) : Prop :=
  ∃ chain, Climb h.enclosing? f chain ∧ chain.getLast? = some globals ∧
    ∀ distance, h.ancestor? f distance = chain[distance]?

/-- The way upwards from a class: a method is that of the first class on it that has one. -/
def Upward (h : Heap) (c : ClassId) : Prop :=
  ∃ chain, Climb h.superclass? c chain ∧
    ∀ name, h.findMethod? c name = chain.findSome? (h.ownMethod? · name)

theorem Anchored.outward {h : Heap} {globals f : FrameId} (ha : h.Anchored globals)
    (hf : f.index < h.frames.size) : h.Outward globals f := by
  obtain ⟨chain, hchain, hlast⟩ := ha.climb hf
  exact ⟨chain, hchain, hlast, ancestor?_of_climb hchain⟩

theorem Older.upward {h : Heap} (hh : h.Older) (c : ClassId) : h.Upward c := by
  obtain ⟨chain, hchain⟩ := exists_climb hh c
  exact ⟨chain, hchain, fun name => findMethod?_of_climb hh hchain⟩

end Heap

namespace Machine

variable {m m' : Machine}

/-- Where the frames and the classes of a machine stand. -/
structure Ranked (m : Machine) : Prop where
  /-- Frames lie in older frames, and the outermost one is the global one. -/
  nested : m.heap.Nested
  frames : ∀ f, f.index < m.heap.frames.size → m.heap.Outward m.globals f
  present : m.heap.Outward m.globals m.current
  closures : ∀ f object, m.heap.function? f = some object → m.heap.Outward m.globals object.closure
  /-- Classes are below older classes. -/
  older : m.heap.Older
  classes : ∀ c, m.heap.Upward c
  /-- A class statement makes a class below the one that its superclass is when it begins. -/
  declares : ∀ name superclass methods m',
    Eval.declareClass name superclass methods m = .ok () m' → m.Declared name superclass methods m'

/-- What frames, functions and classes there are stay as they are. -/
structure Settled (m m' : Machine) : Prop where
  globals : m'.globals = m.globals
  enclosing : ∀ f, f.index < m.heap.frames.size → m'.heap.enclosing? f = m.heap.enclosing? f
  functions : ∀ f, f.index < m.heap.functions.size → m'.heap.function? f = m.heap.function? f
  superclass : ∀ c, c.index < m.heap.classes.size → m'.heap.superclass? c = m.heap.superclass? c
  methods : ∀ c name, c.index < m.heap.classes.size →
    m'.heap.ownMethod? c name = m.heap.ownMethod? c name

theorem Anchored.ranked (hm : m.Anchored) (horderly : m.Orderly) : m.Ranked where
  nested := hm.heap.nested
  frames _ := hm.heap.outward
  present := hm.heap.outward hm.current
  closures f object hf := hm.heap.outward (hm.heap.closures f object hf)
  older := horderly.heap.older
  classes := horderly.heap.older.upward
  declares name superclass methods _ hdeclares :=
    (Ledger.ends_declareClass hm name superclass methods).of_ok hdeclares

theorem Later.settled (h : m.Later m') (hm : m.Anchored) : m.Settled m' where
  globals := h.globals
  enclosing f hf := by
    cases houter : m.heap.enclosing? f with
    | some outer => exact h.grows.enclosing f outer houter
    | none =>
      -- Only the global frame lies in no other one, at both moments.
      have hroot : f = m.globals := (hm.heap.outermost f hf).mp houter
      have hlater := Nat.lt_of_lt_of_le hf h.grows.frames
      exact (h.anchored.heap.outermost f hlater).mpr (hroot.trans h.globals.symm)
  functions f hf := by
    have hobject := Array.getElem?_eq_getElem hf
    exact (h.grows.functions f _ hobject).trans hobject.symm
  superclass c hc := Heap.superclass?_of_more h.classes hc
  methods c name hc := Heap.ownMethod?_of_more h.classes hc

end Machine

/-! ## The beginning of a session -/

theorem anchored_bare (sink : Sink) (reading : Nat → Float) :
    (Machine.bare sink reading).Anchored where
  heap := by
    refine ⟨Nat.zero_lt_one, fun f hf => ?_, ?_, fun f object hf => ?_⟩
    · obtain rfl : f = ⟨0⟩ := congrArg FrameId.mk (Nat.lt_one_iff.mp hf)
      exact ⟨fun _ => rfl, fun _ => rfl⟩
    · exact Heap.nested_empty.newFrame (fun _ houter => by cases houter) .empty
    · simp [Machine.bare, Heap.newFrame, Heap.function?, Heap.empty] at hf
  current := Nat.zero_lt_one

theorem Machine.Anchored.defineNative {m : Machine} (hm : m.Anchored) (n : Native) :
    (m.defineNative n).Anchored := by
  have hmade : (m.heap.newNative ⟨n.name, n.arity⟩).2.Anchored m.globals := hm.heap.of_eq rfl rfl
  let value : Value := .native (m.heap.newNative ⟨n.name, n.arity⟩).1
  refine ⟨hmade.define m.globals n.name value, ?_⟩
  have hgrows := (m.heap.newNative ⟨n.name, n.arity⟩).2.grows_define m.globals n.name value
  exact Nat.lt_of_lt_of_le hm.current hgrows.frames

/-- At the beginning there are no classes. -/
theorem anchored_start (sink : Sink) (reading : Nat → Float) (natives : List Native) :
    ((Session.start sink reading).withNatives natives).machine.Anchored ∧
      ((Session.start sink reading).withNatives natives).machine.heap.classes = #[] := by
  have hstart : (Session.start sink reading).machine.Anchored :=
    (anchored_bare sink reading).defineNative Native.clock
  have hnone : (Session.start sink reading).machine.heap.classes = #[] := rfl
  unfold Session.withNatives
  generalize Session.start sink reading = s at hstart hnone
  induction natives generalizing s with
  | nil => exact ⟨hstart, hnone⟩
  | cons n rest ih => exact ih (s.defineNative n) (hstart.defineNative n) hnone

/-! ## Chronicles -/

namespace Ledger
namespace Chronicle

theorem carries_descends : Carries Machine.Anchored Book.Descends where
  refl _ ht := .refl ht
  trans _ _ _ h h' := h.trans h'
  kind _ _ h := h.anchored
  records _ _ ht :=
    (Book.Descends.refl ht).excursion (.refl ht) ⟨⟨ht.heap, ht.current⟩, .refl _, rfl, rfl⟩
  task fuel input first t ht := by
    have hgrounds : Grounds (task fuel input first) [] fun _ => [] := grounds_task fuel input first
    have hends := hgrounds.ends t ht (Heap.hasFrames_nil _)
    exact hends.imp (fun _ _ hend => hend.1) fun _ _ hend => hend

section

variable {s : Session} {inputs : List (Nat × Input)} {m m' : Machine}
  {entries before after : List Entry}

/-- Every moment has come from the beginning. -/
theorem descent_to (hs : s.machine.Anchored)
    (hsplit : ((start s).takeAll inputs).2.book.entries ++
      [.moment ((start s).takeAll inputs).2.book.machine] = before ++ .moment m :: after) :
    Descent s.machine before m := by
  obtain ⟨-, booked, hbooked, hdescent⟩ := carries_descends.takeAll inputs (c := start s) hs
  have hall := hdescent.append (.moment (.rest ((start s).takeAll inputs).2.book.machine))
  have hentries : booked ++ [.moment ((start s).takeAll inputs).2.book.machine] =
      before ++ .moment m :: after := by
    rw [← hsplit, hbooked]
    rfl
  rw [hentries] at hall
  exact hall.split.1

theorem Passes.later (hs : s.machine.Anchored)
    (hpasses : ((start s).takeAll inputs).2.Passes m entries m') : m.Anchored ∧ m.Later m' := by
  obtain ⟨before, after, hsplit, hfirst⟩ := hpasses
  have hto := descent_to hs hsplit
  cases entries with
  | nil =>
    obtain rfl := Entry.moment.inj (Option.some.inj hfirst)
    have hm := (hto.later hs).anchored
    exact ⟨hm, .refl hm⟩
  | cons entry rest =>
    obtain rfl : entry = .moment m := Option.some.inj hfirst
    obtain ⟨hbefore, hrest⟩ := hto.split
    have hm := (hbefore.later hs).anchored
    exact ⟨hm, hrest.later hm⟩

/-- Every class was made by a class statement, at a moment before. -/
theorem Passes.origin (hs : s.machine.Anchored) (hnone : s.machine.heap.classes = #[])
    (hpasses : ((start s).takeAll inputs).2.Passes m entries m') {c : ClassId}
    (hc : c.index < m'.heap.classes.size) :
    ∃ m₀ entries₀, ((start s).takeAll inputs).2.Passes m₀ entries₀ m' ∧ m₀.Makes c m'.heap := by
  obtain ⟨before, after, hsplit, -⟩ := hpasses
  have hnew : s.machine.heap.classes.size ≤ c.index := by
    rw [hnone]
    exact Nat.zero_le _
  obtain ⟨earlier, m₀, later, hbooked, hmakes⟩ := (descent_to hs hsplit).origin hs hnew hc
  rw [hbooked] at hsplit
  exact ⟨m₀, .moment m₀ :: later, ⟨earlier, after, hsplit, rfl⟩, hmakes⟩

end

end Chronicle
end Ledger

/-! ## The main statement -/

namespace Session

open Ledger in
/-- **Chains of frames and classes.** A session with honest functions of the host takes any inputs.
At every moment frames lie in frames that were made before, classes are below classes that were made
before, and what has been made lies where it lay at every moment before. The way outwards from any
frame, so from the present one and from that of every function, ends in the global frame, and to go
some frames outwards is to go along it. The way upwards from any class ends, and a method that is
looked up is that of the first class on it that has one. Every class was made by a class statement:
its superclass is the class that the variable held as the statement began, and its methods are those
that were written last under their names. The session along with which the ledger is kept is the
session itself. -/
theorem chains_end {sink : Sink} {reading : Nat → Float} {natives : List Native}
    (hnatives : ∀ n ∈ natives, n.code.Honest) {inputs : List (Nat × Input)}
    {as : Option (List Answer)} {c : Chronicle}
    (hcourse : (Chronicle.start ((start sink reading).withNatives natives)).takeAll inputs = (as, c)) :
    (∀ m entries m', c.Passes m entries m' → m'.Ranked ∧ m.Settled m' ∧
        ∀ cls, cls.index < m'.heap.classes.size →
          ∃ m₀ entries₀, c.Passes m₀ entries₀ m' ∧ m₀.Makes cls m'.heap) ∧
      answers inputs ((start sink reading).withNatives natives) =
        as.map fun as => (as, c.session) := by
  have hanswers := Chronicle.answers_eq_takeAll inputs
    (Chronicle.start ((start sink reading).withNatives natives))
  rw [hcourse] at hanswers
  refine ⟨fun m entries m' hpasses => ?_, hanswers⟩
  obtain ⟨hanchored, hnone⟩ := anchored_start sink reading natives
  have hpassed : ((Chronicle.start ((start sink reading).withNatives natives)).takeAll
      inputs).2.Passes m entries m' := hcourse ▸ hpasses
  obtain ⟨-, horderly, -⟩ := hpassed.explained (orderly_start sink reading hnatives)
  obtain ⟨hm, hlater⟩ := hpassed.later hanchored
  refine ⟨hlater.anchored.ranked horderly, hlater.settled hm, fun cls hcls => ?_⟩
  have horigin := hpassed.origin hanchored hnone hcls
  rw [hcourse] at horigin
  exact horigin

/-- Whether an entry is a moment at which there are so many classes. -/
def hasClasses (count : Nat) : Ledger.Entry → Bool
  | .moment m => m.heap.classes.size = count
  | .set .. => false

open Ledger in
/-- A class is below an older one of its name that a variable holds, and has a method that is
written twice. Below it classes are made in a recursion, and in a loop another one takes its name,
and the variable, each time. -/
theorem chains_end_renamed :
    let inputs : List (Nat × Input) := [
      (60, .program "class A \x7b m() \x7b return \"old\"; \x7d \x7d var Old = A;
        class A < Old \x7b n() \x7b return \"first\"; \x7d n() \x7b return \"last\"; \x7d \x7d
        fun make(depth) \x7b class R < A \x7b \x7d
          if (depth > 0) return make(depth - 1); return R; \x7d
        var a = make(1)(); print a.m(); print a.n();"),
      (60, .program "for (var i = 0; i < 2; i = i + 1) \x7b class A < Old \x7b \x7d Old = A; \x7d
        print Old().m(); print Old().n();")]
    ∃ as c m entries, (Chronicle.start ((start .reliable fun _ => 0).withNatives
          Native.extras)).takeAll inputs = (some as, c) ∧
      c.session.machine.sink.lines = #["old", "last", "old"] ∧
      c.Passes m entries c.book.machine ∧ m.heap.classes.size = 4 ∧
      m.heap.superclass? ⟨3⟩ = some ⟨1⟩ ∧ m.heap.superclass? ⟨1⟩ = some ⟨0⟩ ∧
      c.book.machine.heap.superclass? ⟨5⟩ = some ⟨4⟩ ∧
      c.book.machine.heap.findMethod? ⟨3⟩ "n" = some ⟨2⟩ ∧
      c.book.machine.heap.findMethod? ⟨5⟩ "n" = none ∧
      c.book.machine.Ranked ∧ m.Settled c.book.machine := by
  intro inputs
  have hrun : ((Chronicle.start ((start .reliable fun _ => 0).withNatives
      Native.extras)).takeAll inputs).1.isSome = true ∧
        ((Chronicle.start ((start .reliable fun _ => 0).withNatives
          Native.extras)).takeAll inputs).2.session.machine.sink.lines = #["old", "last", "old"] ∧
        (((Chronicle.start ((start .reliable fun _ => 0).withNatives
          Native.extras)).takeAll inputs).2.since ⟨0⟩).head?.any (hasClasses 4) = true ∧
        (let h := ((Chronicle.start ((start .reliable fun _ => 0).withNatives
          Native.extras)).takeAll inputs).2.book.machine.heap
        h.superclass? ⟨3⟩ = some ⟨1⟩ ∧ h.superclass? ⟨1⟩ = some ⟨0⟩ ∧ h.superclass? ⟨5⟩ = some ⟨4⟩ ∧
          h.findMethod? ⟨3⟩ "n" = some ⟨2⟩ ∧ h.findMethod? ⟨5⟩ "n" = none) := by
    decide +kernel
  cases hcourse : (Chronicle.start ((start .reliable fun _ => 0).withNatives
      Native.extras)).takeAll inputs with
  | mk as? c =>
    rw [hcourse] at hrun
    obtain ⟨hsome, hlines, hfirst, hthree, hone, hfive, hlast, hgone⟩ := hrun
    obtain ⟨as, rfl⟩ := Option.isSome_iff_exists.mp hsome
    obtain ⟨entry, hhead, hentry⟩ := (Option.any_eq_true ..).mp hfirst
    cases entry with
    | set => cases hentry
    | moment m =>
      have hfour : m.heap.classes.size = 4 := of_decide_eq_true hentry
      have hpasses := Chronicle.passes_since hhead
      obtain ⟨hranked, hsettled, -⟩ := (chains_end Native.extras_honest hcourse).1 m _ _ hpasses
      have hstays (i : Nat) (hi : i < 4) :
          m.heap.superclass? ⟨i⟩ = c.book.machine.heap.superclass? ⟨i⟩ :=
        (hsettled.superclass ⟨i⟩ (hfour ▸ hi)).symm
      exact ⟨as, c, m, _, rfl, hlines, hpasses, hfour, (hstays 3 (by decide)).trans hthree,
        (hstays 1 (by decide)).trans hone, hfive, hlast, hgone, hranked, hsettled⟩

end Session
end Lox
