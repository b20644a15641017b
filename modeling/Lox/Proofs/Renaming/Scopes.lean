import Lox.Proofs.Renaming.Setting
import Lox.Proofs.Scope.Unrepeated

/-! # Scopes with another name in them

The program and the renamed one are walked side by side. The scopes of the two
walks have the same names, except that the new name stands for the old one in the
scope of the renamed declaration, and what the walks find is the same. -/

namespace Lox.Renaming

open Scope Twin

variable (r : Renaming)

/-- The statement is the renamed declaration. -/
def picks : Stmt → Bool
  | .var name _ => name = r.declaration
  | _ => false

/-- In the scope of these statements the old name is declared by the renamed declaration, or else
by another one. -/
def Fits (p : List Bool) (ss : List Stmt) : Prop :=
  ∀ chosen outer, p = chosen :: outer →
    ∀ s ∈ ss, Watch.declared? s = some r.old → r.picks s = chosen

/-- A name that a scope is to declare, and the name that stands there in its stead. -/
structure Takes (p : List Bool) (chosen : Bool) (name name' : String) : Prop where
  goes : r.Goes chosen name name'
  fresh : name ≠ r.fresh
  fits : name = r.old → chosen = p.headD false

/-- A scope of the walk and the same scope of the other one. -/
structure Scoped (chosen : Bool) (mark : Option Bool) (scope scope' : Names) : Prop where
  held : ∀ {name name'}, r.Goes (mark.getD false) name name' →
    scope'.get? name' = scope.get? name
  fresh : scope.get? r.fresh = none
  gone : mark = some true → scope'.get? r.old = none
  marked : scope.contains r.old = mark.isSome
  final : ∀ c, mark = some c → c = chosen

/-- The scopes of the two walks. -/
inductive Stacked : List Bool → Marks → List Names → List Names → Prop
  | nil : Stacked [] [] [] []
  | cons {chosen mark scope scope' p o scopes scopes'} (hhead : r.Scoped chosen mark scope scope')
    (htail : Stacked p o scopes scopes') :
    Stacked (chosen :: p) (mark :: o) (scope :: scopes) (scope' :: scopes')

/-- The two walks at the same place. -/
structure Scene (p : List Bool) (o : Marks) (w w' : Walk) : Prop where
  stacked : r.Stacked p o w.scopes w'.scopes
  function : w'.function = w.function
  class_ : w'.class_ = w.class_
  found : w'.found = w.found
  errors : w'.errors = w.errors

variable {r} {p : List Bool} {o : Marks} {chosen : Bool} {mark : Option Bool}
  {name name' : String} {scope scope' : Names} {scopes scopes' : List Names}

/-! ## What names become -/

theorem name_of_ne (h : name ≠ r.old) (o : Marks) : r.name o name = name := if_neg fun h' => h h'.1

theorem name_old (o : Marks) : r.name o r.old = if o.bound = true then r.fresh else r.old := by
  simp only [Renaming.name, true_and]

theorem name_none (o : Marks) (name : String) : r.name (none :: o) name = r.name o name := rfl

theorem goes_name (c : Bool) (o : Marks) : r.Goes c r.old (r.name (some c :: o) r.old) := by
  rw [name_old]
  cases c with
  | false => exact .plain
  | true => exact .renamed

theorem mark_of_ne (h : name ≠ r.old) (chosen : Bool) (o : Marks) : r.mark chosen name o = o := by
  cases o with
  | nil => rfl
  | cons mark outer => exact congrArg (· :: outer) (if_neg h)

theorem chooses_of_ne {target : Ident} (h : target.text ≠ r.old) (o : Marks) :
    r.chooses target o = false := by
  cases o with
  | nil => rfl
  | cons mark outer =>
    refine decide_eq_false fun heq => h ?_
    rw [heq]
    rfl

theorem Goes.eq_of_ne (h : r.Goes chosen name name') (hname : name ≠ r.old) : name' = name := by
  cases h with
  | plain => rfl
  | renamed => exact absurd rfl hname
  | other => rfl

theorem Takes.declares (h : r.Takes p chosen name name') : r.Goes (p.headD false) name name' := by
  by_cases hname : name = r.old
  · rw [← h.fits hname]
    exact h.goes
  · rw [h.goes.eq_of_ne hname]
    exact goes_self hname h.fresh _

theorem takes_keyword (hr : r.Proper) (h : name = "this" ∨ name = "super") (p : List Bool) :
    r.Takes p false name name := by
  refine ⟨.plain, ?_, fun hname => ?_⟩
  · rcases h with rfl | rfl
    · exact hr.this.2
    · exact hr.super.2
  · rcases h with rfl | rfl
    · exact absurd hname hr.this.1
    · exact absurd hname hr.super.1

/-! ## One scope -/

theorem Scoped.get? (h : r.Scoped chosen mark scope scope') (hname : name ≠ r.fresh) (o : Marks) :
    scope'.get? (r.name (mark :: o) name) = scope.get? name := by
  by_cases hold : name = r.old
  · subst hold
    cases mark with
    | some c => exact h.held (goes_name c o)
    | none =>
      have hnone : scope.get? r.old = none :=
        Option.not_isSome_iff_eq_none.mp (Bool.eq_false_iff.mp h.marked)
      rw [name_none, name_old, hnone]
      split
      · rw [h.held .plain, h.fresh]
      · rw [h.held .plain, hnone]
  · rw [name_of_ne hold]
    exact h.held (goes_self hold hname _)

theorem Scoped.contains (h : r.Scoped chosen mark scope scope') (hname : name ≠ r.fresh)
    (o : Marks) : scope'.contains (r.name (mark :: o) name) = scope.contains name := by
  unfold Bindings.contains
  rw [h.get? hname]

theorem Scoped.unmarked (h : r.Scoped chosen mark scope scope')
    (hnew : ¬ scope.contains r.old = true) : mark = none := by
  rw [h.marked] at hnew
  exact Option.not_isSome_iff_eq_none.mp hnew

/-- A name that one scope has not yet is as new in the other one. -/
theorem Scoped.not_contains (h : r.Scoped chosen mark scope scope') {c : Bool}
    (hgoes : r.Goes c name name') (hfresh : name ≠ r.fresh)
    (hnew : ¬ scope.contains name = true) : ¬ scope'.contains name' = true := by
  have hnone : scope.get? name = none := Option.not_isSome_iff_eq_none.mp hnew
  have hnone' : scope'.get? name' = none := by
    by_cases hold : name = r.old
    · subst hold
      obtain rfl := h.unmarked hnew
      rw [h.held .plain]
      cases hgoes with
      | plain => exact hnone
      | renamed => exact h.fresh
      | other hne => exact absurd rfl hne
    · rw [hgoes.eq_of_ne hold, h.held (goes_self hold hfresh _), hnone]
  unfold Bindings.contains
  rw [hnone']
  exact Bool.false_ne_true

theorem scoped_empty (chosen : Bool) : r.Scoped chosen none .empty .empty where
  held _ := rfl
  fresh := rfl
  gone h := by cases h
  marked := rfl
  final c h := by cases h

/-- A name is bound in both scopes: one that they have not yet, or have in the same way. -/
theorem Scoped.insert (hr : r.Proper) (h : r.Scoped chosen mark scope scope') {c : Bool}
    (hgoes : r.Goes c name name') (hfresh : name ≠ r.fresh)
    (hname : name = r.old → c = chosen ∧ (mark = none ∨ mark = some c)) (v : Bool) :
    r.Scoped chosen (if name = r.old then some c else mark) (scope.insert name v)
      (scope'.insert name' v) := by
  by_cases hold : name = r.old
  · rw [if_pos hold]
    obtain ⟨rfl, hmark⟩ := hname hold
    refine ⟨fun {other other'} hother => ?_, ?_, fun htrue => ?_, ?_, fun d hd => ?_⟩
    · have hsame := hgoes.distinct hother
      rw [Bindings.get?_insert, Bindings.get?_insert]
      by_cases heq : name = other
      · rw [if_pos heq, if_pos (hsame.mp heq)]
      · rw [if_neg heq, if_neg fun h => heq (hsame.mpr h)]
        rcases hmark with rfl | rfl
        · have hne : other ≠ r.old := fun h => heq (hold.trans h.symm)
          rw [hother.eq_of_ne hne]
          exact h.held .plain
        · exact h.held hother
    · rw [Bindings.get?_insert_of_ne _ hfresh]
      exact h.fresh
    · obtain rfl := Option.some.inj htrue
      subst hold
      cases hgoes with
      | renamed =>
        rw [Bindings.get?_insert_of_ne _ hr.fresh_ne_old]
        rcases hmark with rfl | rfl
        · rw [h.held .plain]
          exact Option.not_isSome_iff_eq_none.mp (Bool.eq_false_iff.mp h.marked)
        · exact h.gone rfl
      | other hne => exact absurd rfl hne
    · subst hold
      unfold Bindings.contains
      rw [Bindings.get?_insert_self]
      rfl
    · exact (Option.some.inj hd).symm
  · rw [if_neg hold]
    obtain rfl := hgoes.eq_of_ne hold
    refine ⟨fun {other other'} hother => ?_, ?_, fun htrue => ?_, ?_, h.final⟩
    · have hsame := (goes_self hold hfresh _).distinct hother
      rw [Bindings.get?_insert, Bindings.get?_insert, h.held hother]
      by_cases heq : name' = other
      · rw [if_pos heq, if_pos (hsame.mp heq)]
      · rw [if_neg heq, if_neg fun h => heq (hsame.mpr h)]
    · rw [Bindings.get?_insert_of_ne _ hfresh]
      exact h.fresh
    · rw [Bindings.get?_insert_of_ne _ hold]
      exact h.gone htrue
    · unfold Bindings.contains
      rw [Bindings.get?_insert_of_ne _ hold]
      exact h.marked

/-! ## All scopes -/

/-- A use finds the same scope in both walks, and there the name that stands for the other. -/
theorem Stacked.find (h : r.Stacked p o scopes scopes') (hname : name ≠ r.fresh) :
    scopes'.findIdx? (·.contains (r.name o name)) = scopes.findIdx? (·.contains name) ∧
      (scopes.findIdx? (·.contains name)).elim (r.name o name = name) fun hops =>
        r.Goes (p.getD hops false) name (r.name o name) := by
  induction h with
  | nil => exact ⟨rfl, if_neg fun h => by cases h.2⟩
  | @cons chosen mark scope scope' p o scopes scopes' hhead htail ih =>
    have hcontains := hhead.contains hname o
    rw [List.findIdx?_cons, List.findIdx?_cons, hcontains]
    by_cases hin : scope.contains name = true
    · rw [if_pos hin, if_pos hin]
      refine ⟨rfl, ?_⟩
      show r.Goes chosen name (r.name (mark :: o) name)
      by_cases hold : name = r.old
      · subst hold
        rw [hhead.marked] at hin
        obtain ⟨c, rfl⟩ := Option.isSome_iff_exists.mp hin
        obtain rfl := hhead.final c rfl
        exact goes_name c o
      · rw [name_of_ne hold]
        exact goes_self hold hname chosen
    · rw [if_neg hin, if_neg hin]
      have hsame : r.name (mark :: o) name = r.name o name := by
        by_cases hold : name = r.old
        · subst hold
          rw [hhead.marked, Option.not_isSome_iff_eq_none] at hin
          rw [hin, name_none]
        · rw [name_of_ne hold, name_of_ne hold]
      rw [hsame]
      obtain ⟨hfind, hgoes⟩ := ih
      rw [hfind]
      refine ⟨rfl, ?_⟩
      cases hlevel : scopes.findIdx? (·.contains name) with
      | none =>
        rw [hlevel] at hgoes
        exact hgoes
      | some hops =>
        rw [hlevel] at hgoes
        exact hgoes

/-! ## The two walks -/

namespace Scene

variable {w w' : Walk}

theorem start : r.Scene [] [] .start .start := ⟨.nil, rfl, rfl, rfl, rfl⟩

theorem of_function (h : r.Scene p o w w') (kind : FunctionKind) :
    r.Scene p o { w with function := kind } { w' with function := kind } :=
  { h with function := rfl }

theorem of_class (h : r.Scene p o w w') (kind : ClassKind) :
    r.Scene p o { w with class_ := kind } { w' with class_ := kind } :=
  { h with class_ := rfl }

theorem note (h : r.Scene p o w w') (error : ScopeError) (span : Span) :
    r.Scene p o (w.note error span) (w'.note error span) :=
  { h with errors := congrArg (·.push (.located (.scoping error) span)) h.errors }

theorem openScope (h : r.Scene p o w w') (chosen : Bool) :
    r.Scene (chosen :: p) (none :: o) w.openScope w'.openScope :=
  { h with stacked := .cons (scoped_empty chosen) h.stacked }

theorem closeScope (h : r.Scene (chosen :: p) o w w') :
    r.Scene p o.tail w.closeScope w'.closeScope := by
  refine { h with stacked := ?_ }
  have hstacked := h.stacked
  unfold Walk.closeScope
  generalize w.scopes = scopes at hstacked ⊢
  generalize w'.scopes = scopes' at hstacked ⊢
  cases hstacked with
  | cons _ htail => exact htail

theorem checkSuper (h : r.Scene p o w w') (keyword : Span) :
    r.Scene p o (w.checkSuper keyword) (w'.checkSuper keyword) := by
  unfold Walk.checkSuper
  rw [h.class_]
  cases w.class_ with
  | none => exact h.note _ _
  | plain => exact h.note _ _
  | subclass => exact h

theorem checkReturn (h : r.Scene p o w w') (keyword : Span) :
    r.Scene p o (w.checkReturn keyword) (w'.checkReturn keyword) := by
  unfold Walk.checkReturn
  rw [h.function]
  split
  · exact h.note _ _
  · exact h

theorem checkReturnValue (h : r.Scene p o w w') (keyword : Span) :
    r.Scene p o (w.checkReturnValue keyword) (w'.checkReturnValue keyword) := by
  unfold Walk.checkReturnValue
  rw [h.function]
  split
  · exact h.note _ _
  · exact h

theorem checkRead (h : r.Scene p o w w') {target : Ident} (hname : target.text ≠ r.fresh) :
    r.Scene p o (w.checkRead target) (w'.checkRead ⟨r.name o target.text, target.span⟩) := by
  have hstacked := h.stacked
  unfold Walk.checkRead
  generalize w.scopes = scopes at hstacked ⊢
  generalize w'.scopes = scopes' at hstacked ⊢
  cases hstacked with
  | nil => exact h
  | cons hhead htail =>
    dsimp only
    rw [hhead.get? hname]
    split
    · exact h.note _ _
    · exact h

theorem use (h : r.Scene p o w w') (hname : name ≠ r.fresh) (id : Nat) :
    r.Scene p o (w.use id name) (w'.use id (r.name o name)) := by
  unfold Walk.use
  rw [show w'.distance? (r.name o name) = w.distance? name from (h.stacked.find hname).1]
  cases w.distance? name with
  | none => exact h
  | some hops => exact { h with found := congrArg (·.push (id, hops)) h.found }

/-- A keyword is used as it is. -/
theorem use_keyword (hr : r.Proper) (h : r.Scene p o w w') (hname : name = "this" ∨ name = "super")
    (id : Nat) : r.Scene p o (w.use id name) (w'.use id name) := by
  have htakes := takes_keyword hr hname []
  have hne : name ≠ r.old := by
    rcases hname with rfl | rfl
    · exact hr.this.1
    · exact hr.super.1
  have huse := h.use htakes.fresh id
  rwa [name_of_ne hne] at huse

/-- The name of a class is not renamed, so another name does not become its name. -/
theorem checkInheritance (h : r.Scene p o w w') {target parent : Ident}
    (htarget : target.text ≠ r.fresh) (hne : parent.text ≠ target.text) :
    r.Scene p o (w.checkInheritance target parent)
      (w'.checkInheritance target ⟨r.name o parent.text, parent.span⟩) := by
  have hne' : r.name o parent.text ≠ target.text := by
    unfold Renaming.name
    split
    · exact htarget.symm
    · exact hne
  unfold Walk.checkInheritance
  rw [if_neg hne, if_neg hne']
  exact h

/-- A new name is declared. -/
theorem declare (hr : r.Proper) (h : r.Scene p o w w') {target target' : Ident}
    (htakes : r.Takes p chosen target.text target'.text)
    (hclean : (w.declare target).errors.size = 0) :
    r.Scene p (r.mark chosen target.text o) (w.declare target) (w'.declare target') := by
  have hstacked := h.stacked
  unfold Walk.declare at hclean ⊢
  cases hscopes : w.scopes with
  | nil =>
    rw [hscopes] at hstacked
    cases hscopes' : w'.scopes with
    | nil =>
      rw [hscopes'] at hstacked
      cases hstacked
      exact h
    | cons => rw [hscopes'] at hstacked; cases hstacked
  | cons scope outer =>
    rw [hscopes] at hstacked hclean
    cases hscopes' : w'.scopes with
    | nil => rw [hscopes'] at hstacked; cases hstacked
    | cons scope' outer' =>
      rw [hscopes'] at hstacked
      cases hstacked with
      | @cons final mark _ _ _ o _ _ hhead htail =>
        dsimp only at hclean ⊢
        by_cases hcontains : scope.contains target.text = true
        · rw [if_pos hcontains] at hclean
          exact absurd hclean (by simp [Walk.note])
        · have hcontains' := hhead.not_contains htakes.goes htakes.fresh hcontains
          rw [if_neg hcontains, if_neg hcontains']
          refine { h with stacked := .cons ?_ htail }
          exact hhead.insert hr htakes.goes htakes.fresh
            (fun hold => ⟨htakes.fits hold, .inl (hhead.unmarked (hold ▸ hcontains))⟩) false

/-- A name that has been declared gets its value. -/
theorem define (hr : r.Proper) (h : r.Scene p (r.mark chosen name o) w w')
    (htakes : r.Takes p chosen name name') :
    r.Scene p (r.mark chosen name o) (w.define name) (w'.define name') := by
  have hstacked := h.stacked
  unfold Walk.define
  cases o with
  | nil =>
    unfold Renaming.mark at hstacked ⊢
    generalize hscopes : w.scopes = scopes at hstacked ⊢
    generalize hscopes' : w'.scopes = scopes' at hstacked ⊢
    cases hstacked
    exact h
  | cons mark o =>
    have hagain := h
    unfold Renaming.mark at hstacked ⊢
    generalize hscopes : w.scopes = scopes at hstacked ⊢
    generalize hscopes' : w'.scopes = scopes' at hstacked ⊢
    cases hstacked with
    | cons hhead htail =>
      refine { h with stacked := .cons ?_ htail }
      have hinsert := hhead.insert hr htakes.goes htakes.fresh (fun hold => by
        rw [if_pos hold]
        exact ⟨htakes.fits hold, .inr rfl⟩) true
      by_cases hold : name = r.old
      · rw [if_pos hold] at hinsert ⊢
        exact hinsert
      · rw [if_neg hold] at hinsert ⊢
        rw [if_neg hold] at hinsert
        exact hinsert

theorem introduce (hr : r.Proper) (h : r.Scene p o w w') {target target' : Ident}
    (htakes : r.Takes p chosen target.text target'.text)
    (hclean : (w.declare target).errors.size = 0) :
    r.Scene p (r.mark chosen target.text o) (w.introduce target) (w'.introduce target') :=
  (h.declare hr htakes hclean).define hr htakes

/-- A keyword gets a value in a scope of its own. -/
theorem define_keyword (hr : r.Proper) (h : r.Scene p o w w')
    (hname : name = "this" ∨ name = "super") : r.Scene p o (w.define name) (w'.define name) := by
  have htakes := takes_keyword hr hname p
  have hne : name ≠ r.old := by
    rcases hname with rfl | rfl
    · exact hr.this.1
    · exact hr.super.1
  have hmark : r.mark false name o = o := mark_of_ne hne false o
  have hscene : r.Scene p (r.mark false name o) w w' := hmark.symm ▸ h
  have hdefine := hscene.define hr htakes
  rwa [hmark] at hdefine

end Scene
end Lox.Renaming
