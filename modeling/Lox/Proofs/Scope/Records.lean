import Lox.Scope.Resolutions

/-! # What is found in records

Recording changes the entries that are recorded and no others. How many
distances are recorded depends only on what is found, not on how long the table
is. -/

namespace Lox.Resolutions

variable {R R' : Resolutions} {id : Nat}

theorem recordAll_eq_foldl (found : Array (Nat × Nat)) :
    R.recordAll found = found.toList.foldl (fun R entry => R.record entry.1 entry.2) R := by
  unfold recordAll
  rw [Array.foldl_toList]

theorem recordAll_append (found more : Array (Nat × Nat)) :
    R.recordAll (found ++ more) = (R.recordAll found).recordAll more :=
  Array.foldl_append

/-- What is recorded about other nodes changes nothing. -/
theorem find?_recordAll_of_absent {found : Array (Nat × Nat)}
    (h : ∀ entry ∈ found, entry.1 ≠ id) : (R.recordAll found).find? id = R.find? id := by
  have habsent : ∀ entry ∈ found.toList, entry.1 ≠ id := fun entry hentry =>
    h entry (Array.mem_toList_iff.mp hentry)
  rw [recordAll_eq_foldl]
  revert habsent
  induction found.toList generalizing R with
  | nil => exact fun _ => rfl
  | cons entry rest ih =>
    intro habsent
    rw [List.foldl_cons, ih fun other hother => habsent other (List.mem_cons_of_mem _ hother),
      find?_record, if_neg (habsent entry List.mem_cons_self)]

/-- When all that is recorded about a node is the same, that is found. -/
theorem find?_recordAll_of_only {found : Array (Nat × Nat)} {hops : Nat}
    (h : ∀ other, (id, other) ∈ found ↔ other = hops) :
    (R.recordAll found).find? id = some hops := by
  have hfold : ∀ (l : List (Nat × Nat)) (R : Resolutions),
      (∀ other, (id, other) ∈ l → other = hops) → (id, hops) ∈ l ∨ R.find? id = some hops →
      (l.foldl (fun R entry => R.record entry.1 entry.2) R).find? id = some hops := by
    intro l
    induction l with
    | nil =>
      intro R _ hfound
      exact hfound.resolve_left (List.not_mem_nil)
    | cons entry rest ih =>
      intro R honly hfound
      obtain ⟨key, other⟩ := entry
      refine ih _ (fun other hother => honly other (List.mem_cons_of_mem _ hother)) ?_
      rw [find?_record]
      by_cases hkey : key = id
      · subst hkey
        rw [if_pos rfl, honly other List.mem_cons_self]
        exact .inr rfl
      · rw [if_neg hkey]
        refine hfound.imp_left fun hmem => ?_
        rcases List.mem_cons.mp hmem with heq | hmem
        · exact absurd (congrArg Prod.fst heq).symm hkey
        · exact hmem
  rw [recordAll_eq_foldl]
  refine hfold found.toList R (fun other hother => ?_) (.inl ?_)
  · exact (h other).mp (Array.mem_toList_iff.mp hother)
  · exact Array.mem_toList_iff.mpr ((h hops).mpr rfl)

/-- Something is recorded for whatever something is found for. -/
theorem find?_recordAll_of_mem {found : Array (Nat × Nat)} {hops : Nat} (h : (id, hops) ∈ found) :
    (R.recordAll found).find? id ≠ none := by
  have hfold : ∀ (l : List (Nat × Nat)) (R : Resolutions),
      (id, hops) ∈ l ∨ R.find? id ≠ none →
      (l.foldl (fun R entry => R.record entry.1 entry.2) R).find? id ≠ none := by
    intro l
    induction l with
    | nil => exact fun R hfound => hfound.resolve_left List.not_mem_nil
    | cons entry rest ih =>
      intro R hfound
      refine ih _ ?_
      rw [find?_record]
      by_cases hkey : entry.1 = id
      · rw [if_pos hkey]
        exact .inr fun heq => by cases heq
      · rw [if_neg hkey]
        refine hfound.imp_left fun hmem => ?_
        exact (List.mem_cons.mp hmem).resolve_left fun heq => hkey (congrArg Prod.fst heq).symm
  rw [recordAll_eq_foldl]
  exact hfold found.toList R (.inl (Array.mem_toList_iff.mpr h))

/-- Records under other numbers are found under the other numbers. -/
theorem find?_recordAll_map {ρ : Nat → Nat} (hρ : Function.Injective ρ)
    (h : ∀ id, R'.find? (ρ id) = R.find? id) (found : Array (Nat × Nat)) (id : Nat) :
    (R'.recordAll (found.map fun entry => (ρ entry.1, entry.2))).find? (ρ id) =
      (R.recordAll found).find? id := by
  rw [recordAll_eq_foldl, recordAll_eq_foldl, Array.toList_map]
  induction found.toList generalizing R R' with
  | nil => exact h id
  | cons entry rest ih =>
    rw [List.map_cons, List.foldl_cons, List.foldl_cons]
    refine ih fun other => ?_
    rw [find?_record, find?_record, h other]
    simp only [hρ.eq_iff]

theorem countP_eq_of_getElem? {l l' : List (Option Nat)}
    (h : ∀ i : Nat, l[i]?.getD none = l'[i]?.getD none) :
    l.countP Option.isSome = l'.countP Option.isSome := by
  have hempty : ∀ k : List (Option Nat), (∀ i : Nat, k[i]?.getD none = none) →
      k.countP Option.isSome = 0 := by
    intro k hk
    rw [List.countP_eq_zero]
    intro entry hentry
    obtain ⟨i, hi⟩ := List.mem_iff_getElem?.mp hentry
    have := hk i
    rw [hi, Option.getD_some] at this
    rw [this]
    exact Bool.false_ne_true
  induction l generalizing l' with
  | nil => exact (hempty l' fun i => by rw [← h i]; rfl).symm
  | cons entry rest ih =>
    cases l' with
    | nil => exact hempty (entry :: rest) fun i => by rw [h i]; rfl
    | cons entry' rest' =>
      have hhead : entry = entry' := h 0
      have htail : rest.countP Option.isSome = rest'.countP Option.isSome :=
        ih fun i => h (i + 1)
      rw [List.countP_cons, List.countP_cons, htail, hhead]

/-- The same distances are found, so they are as many. -/
theorem count_eq_of_find? (h : ∀ id, R'.find? id = R.find? id) : R'.count = R.count := by
  unfold count
  rw [← Array.countP_toList, ← Array.countP_toList]
  refine countP_eq_of_getElem? fun i => ?_
  rw [Array.getElem?_toList, Array.getElem?_toList]
  exact h i

end Lox.Resolutions
