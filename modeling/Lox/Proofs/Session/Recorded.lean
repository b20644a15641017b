import Lox.Proofs.Grammar.Drawing
import Lox.Proofs.Scope.Ambience
import Lox.Proofs.Session.Rejection

/-! # Distances are recorded once

The numbers in a tree are different from each other and from all that were known
before it was read. A walk finds each of them once at most. So while the distances
of an input are recorded nothing is recorded yet for the node that comes next, and
what is recorded for the nodes of an input that has been done stays as it is. -/

namespace Lox

open Grammar

/-! ## What is found in one input -/

theorem Scope.Adds.found_start {ids : List Nat} {piece : Scope.Walk → Scope.Walk}
    (h : Scope.Adds ids piece) : ((piece .start).found.toList.map Prod.fst).Subperm ids := by
  obtain ⟨new, hnew, hsub⟩ := h.found .start
  rw [hnew]
  exact hsub

/-- The numbers for which distances are found have been drawn for the input, whatever is wrong
with it. -/
theorem drawn_found {fuel first : Nat} {input : Input} {walk : Scope.Walk}
    (hwalk : (input.draft fuel first).walk = some walk) :
    Drawn first (walk.found.toList.map Prod.fst) (input.draft fuel first).nextId := by
  cases input with
  | program source =>
    obtain rfl := Option.some.inj hwalk
    have hdrawn := drawn_parseProgram (Lexer.scan source).tokens first
    exact hdrawn.of_subperm (Scope.adds_stmts _).found_start
  | expression source =>
    obtain ⟨e, he, rfl⟩ := Option.map_eq_some_iff.mp hwalk
    have hdrawn := drawn_parseExpression (Lexer.scan source).tokens first
    have he : (parseExpression (Lexer.scan source).tokens first).value = some e := he
    rw [he] at hdrawn
    exact hdrawn.of_subperm (Scope.adds_expr e).found_start

/-! ## Recording -/

section

variable {R : Resolutions} {found : Array (Nat × Nat)} {before after : List (Nat × Nat)}
  {id hops : Nat}

/-- A distance that is found for a node, and for no other time, is the one that is recorded. -/
theorem Resolutions.find?_recordAll_of_nodup (hnodup : (found.toList.map Prod.fst).Nodup)
    (hmem : (id, hops) ∈ found.toList) : (R.recordAll found).find? id = some hops := by
  refine find?_recordAll_of_only fun other => ⟨fun hother => ?_, fun heq => ?_⟩
  · have hsame := List.inj_on_of_nodup_map hnodup (Array.mem_toList_iff.mpr hother) hmem rfl
    exact (Prod.mk.inj hsame).2
  · exact heq ▸ Array.mem_toList_iff.mp hmem

/-- When the turn of a distance comes, only those of other nodes have been recorded. -/
theorem Resolutions.find?_recordAll_before (hnodup : (found.toList.map Prod.fst).Nodup)
    (hsplit : found.toList = before ++ (id, hops) :: after) :
    (R.recordAll before.toArray).find? id = R.find? id := by
  rw [hsplit, List.map_append, List.nodup_append] at hnodup
  refine find?_recordAll_of_absent fun entry hentry => ?_
  exact hnodup.2.2 entry.1 (List.mem_map_of_mem (List.mem_toArray.mp hentry)) id List.mem_cons_self

end

namespace Session

variable {d : Draft} {s s' : Session} {a : Answer}

/-- What is recorded stays recorded, whether an input is done or rejected. -/
theorem find?_settled (hd : d.Fair s.nextId) (h : Settled d s a s') (hs : s.Numbered)
    {id hops : Nat} (hfound : s.machine.resolutions.find? id = some hops) :
    s'.machine.resolutions.find? id = some hops := by
  have hid : id < s.nextId := by
    refine Nat.lt_of_not_le fun hle => ?_
    rw [hs id hle] at hfound
    cases hfound
  cases h with
  | unread _ => exact hfound
  | unscoped hwalk hread hscope =>
    refine (Resolutions.find?_forgetFrom ..).trans ((if_pos hid).trans ?_)
    exact (find?_recording hd hwalk hread (.inl hid)).trans hfound
  | done hwalk hread hscope hdone =>
    show Resolutions.find? _ id = some hops
    rw [(done_fine hd hwalk hread hscope hdone).2, find?_recording hd hwalk hread (.inl hid)]
    exact hfound

/-- **Numbers are unique, and distances are recorded once.** Whatever the tokens are, with errors or
without, the numbers in the tree that is read from them are all different, and none of them is less
than the next number before or not less than the next one after it. A walk finds distances for nodes
of its tree only, and for each of them once at most. In every session, when an input is walked next,
nothing is recorded yet for a node when the distance of that node is recorded; afterwards this is
the distance recorded for the node, and what was recorded before is still there, as it is after any
further inputs. -/
theorem numbers_unique_recorded_once :
    (∀ stream first,
      Drawn first (Nodes.program (parseProgram stream first).value)
        (parseProgram stream first).nextId ∧
      Drawn first (optionalExpr (parseExpression stream first).value)
        (parseExpression stream first).nextId) ∧
    (∀ ss, ((Scope.program ss).found.toList.map Prod.fst).Subperm (Nodes.program ss)) ∧
    (∀ e, ((Scope.wholeExpression e).found.toList.map Prod.fst).Subperm (Nodes.expr [] e)) ∧
    ∀ sink reading natives history as s,
      answers history ((start sink reading).withNatives natives) = some (as, s) →
        (∀ fuel (input : Input) walk, (input.draft fuel s.nextId).walk = some walk →
          (∀ before id hops after, walk.found.toList = before ++ (id, hops) :: after →
            (s.machine.resolutions.recordAll before.toArray).find? id = none ∧
              (recording s.machine walk).resolutions.find? id = some hops) ∧
          ∀ id hops, s.machine.resolutions.find? id = some hops →
            (recording s.machine walk).resolutions.find? id = some hops) ∧
        ∀ more as' s', answers more s = some (as', s') → ∀ id hops,
          s.machine.resolutions.find? id = some hops →
            s'.machine.resolutions.find? id = some hops := by
  refine ⟨fun stream first => ⟨drawn_parseProgram stream first, drawn_parseExpression stream first⟩,
    fun ss => (Scope.adds_stmts ss).found_start, fun e => (Scope.adds_expr e).found_start, ?_⟩
  intro sink reading natives history as s hhistory
  have hnumbered : s.Numbered := settled_induction (fun _ _ _ _ => numbered_settled) history
    hhistory (numbered_start sink reading natives)
  refine ⟨fun fuel input walk hwalk => ?_, fun more as' s' hmore id hops hfound => ?_⟩
  · have hdrawn := drawn_found hwalk
    refine ⟨fun before id hops after hsplit => ⟨?_, ?_⟩, fun id hops hfound => ?_⟩
    · rw [Resolutions.find?_recordAll_before hdrawn.nodup hsplit]
      refine hnumbered id (hdrawn.bounds id ?_).1
      rw [hsplit]
      simp
    · refine Resolutions.find?_recordAll_of_nodup hdrawn.nodup ?_
      rw [hsplit]
      simp
    · refine (Resolutions.find?_recordAll_of_absent fun entry hentry heq => ?_).trans hfound
      -- Numbers that are drawn now were not known before.
      have hmem := List.mem_map_of_mem (f := Prod.fst) (Array.mem_toList_iff.mpr hentry)
      rw [hnumbered id (heq ▸ (hdrawn.bounds entry.1 hmem).1)] at hfound
      cases hfound
  · have hkept : s'.Numbered ∧ s'.machine.resolutions.find? id = some hops :=
      settled_induction (P := fun t => t.Numbered ∧ t.machine.resolutions.find? id = some hops)
        (fun _ _ _ _ hd ht hkeep =>
          ⟨numbered_settled hd ht hkeep.1, find?_settled hd ht hkeep.1 hkeep.2⟩)
        more hmore ⟨hnumbered, hfound⟩
    exact hkept.2

/-- Two distances of a program are known and one program has been rejected when a third one is
walked, in which assignments have lost the numbers of their left sides: nothing is recorded yet for
any of its nodes. -/
theorem numbers_unique_recorded_once_assignments :
    let history : List (Nat × Input) := [(40, .program "\x7b var a = 1; a = a; \x7d"),
      (40, .program "\x7b var b = ; b = b \x7d")]
    let next : Input := .program "\x7b var c; c = c; fun f() \x7b return c = f; \x7d \x7d"
    ∃ as s walk, answers history ((start .reliable fun _ => 0).withNatives Native.extras) =
        some (as, s) ∧ s.resolutionCount = 2 ∧ (next.draft 40 s.nextId).walk = some walk ∧
      walk.found.size = 4 ∧ ∀ before id hops after,
        walk.found.toList = before ++ (id, hops) :: after →
          (s.machine.resolutions.recordAll before.toArray).find? id = none ∧
            (recording s.machine walk).resolutions.find? id = some hops := by
  intro history next
  have hrun : ((answers history ((start .reliable fun _ => 0).withNatives Native.extras)).bind
      fun r => (next.draft 40 r.2.nextId).walk.map fun walk =>
        (r.2.resolutionCount, walk.found.size)) = some (2, 4) := by
    decide +kernel
  obtain ⟨⟨as, s⟩, hreached, hrun⟩ := Option.bind_eq_some_iff.mp hrun
  obtain ⟨walk, hwalk, hrun⟩ := Option.map_eq_some_iff.mp hrun
  obtain ⟨hcount, hsize⟩ := Prod.mk.inj hrun
  obtain ⟨-, -, -, hsession⟩ := numbers_unique_recorded_once
  exact ⟨as, s, walk, hreached, hcount, hwalk, hsize,
    ((hsession _ _ _ _ _ _ hreached).1 40 next walk hwalk).1⟩

end Session
end Lox
