import Lox.Diagnostic.Report
import Mathlib.Data.List.Permutation

/-! # What is left of a report

Of the static diagnostics of a report, those are shown that start at least two bytes
after the one shown before. What is shown is spaced well and still tells of every
place at which something is wrong. -/

namespace Lox.Report

variable {d : Diagnostic} {ds ds' kept : List Diagnostic} {last : Option Nat}

/-! ## Sorting -/

/-- The same diagnostics in the order of their places; those of one place stay in their order. -/
structure StablySorted (errors sorted : List Diagnostic) : Prop where
  perm : sorted.Perm errors
  ordered : sorted.Pairwise fun a b => a.start ≤ b.start
  stable : ∀ place, sorted.filter (·.start = place) = errors.filter (·.start = place)

/-- Before, or at the same place. -/
def byStart (a b : Diagnostic) : Bool := decide (a.start ≤ b.start)

theorem byStart_trans (a b c : Diagnostic) (hab : byStart a b = true) (hbc : byStart b c = true) :
    byStart a c = true := by
  simp only [byStart, decide_eq_true_eq] at *
  omega

theorem byStart_total (a b : Diagnostic) : (byStart a b || byStart b a) = true := by
  simp only [byStart, Bool.or_eq_true, decide_eq_true_eq]
  omega

/-- Sorting keeps the diagnostics of one place in their order. -/
theorem filter_mergeSort (place : Nat) (errors : List Diagnostic) :
    (errors.mergeSort byStart).filter (·.start = place) = errors.filter (·.start = place) := by
  have hequal : (errors.filter (·.start = place)).Pairwise fun a b => byStart a b = true := by
    refine List.pairwise_of_forall_mem_list fun a ha b hb => ?_
    simp only [List.mem_filter, decide_eq_true_eq] at ha hb
    simp [byStart, ha.2, hb.2]
  have hsublist := (List.sublist_mergeSort byStart_trans byStart_total hequal
    List.filter_sublist).filter (·.start = place)
  rw [List.filter_filter] at hsublist
  simp only [Bool.and_self] at hsublist
  have hperm := (List.mergeSort_perm errors byStart).filter (·.start = place)
  exact (hsublist.eq_of_length hperm.length_eq.symm).symm

theorem stablySorted_mergeSort (errors : List Diagnostic) :
    StablySorted errors (errors.mergeSort byStart) where
  perm := List.mergeSort_perm errors byStart
  ordered := (List.pairwise_mergeSort byStart_trans byStart_total errors).imp of_decide_eq_true
  stable place := filter_mergeSort place errors

theorem StablySorted.starts_eq {errors errors' sorted sorted' : List Diagnostic}
    (h : StablySorted errors sorted) (h' : StablySorted errors' sorted')
    (hperm : (errors'.map Diagnostic.start).Perm (errors.map Diagnostic.start)) :
    sorted'.map Diagnostic.start = sorted.map Diagnostic.start := by
  have hstarts := (h'.perm.map Diagnostic.start).trans
    (hperm.trans (h.perm.map Diagnostic.start).symm)
  have hordered := List.pairwise_map.mpr h.ordered
  have hordered' := List.pairwise_map.mpr h'.ordered
  exact hstarts.eq_of_pairwise (fun a b _ _ => Nat.le_antisymm) hordered' hordered

/-! ## Thinning -/

theorem thin_cons (last : Option Nat) (d : Diagnostic) (ds : List Diagnostic) :
    (∃ k ∈ last, d.start ≤ k + 1) ∧ thin last (d :: ds) = thin last ds ∨
      (∀ k ∈ last, k + 2 ≤ d.start) ∧ thin last (d :: ds) = d :: thin (some d.start) ds := by
  rw [thin]
  cases last with
  | none => exact .inr ⟨nofun, rfl⟩
  | some k =>
    by_cases hnear : d.start ≤ k + 1
    · exact .inl ⟨⟨k, rfl, hnear⟩, by simp [hnear]⟩
    · refine .inr ⟨?_, by simp [hnear]⟩
      rintro _ ⟨⟩
      omega

theorem thin_none_eq_nil_iff : thin none ds = [] ↔ ds = [] := by
  cases ds with
  | nil => simp [thin]
  | cons d ds => simp [thin]

theorem thin_sublist (last : Option Nat) (ds : List Diagnostic) : (thin last ds).Sublist ds := by
  induction ds generalizing last with
  | nil => simp [thin]
  | cons d ds ih =>
    obtain ⟨-, heq⟩ | ⟨-, heq⟩ := thin_cons last d ds
    · rw [heq]
      exact (ih last).cons d
    · rw [heq]
      exact (ih (some d.start)).cons_cons d

/-- What is kept starts at least two bytes after what was kept last. -/
theorem far_of_mem_thin (h : d ∈ thin last ds) : ∀ k ∈ last, k + 2 ≤ d.start := by
  induction ds generalizing last with
  | nil => simp [thin] at h
  | cons e ds ih =>
    obtain ⟨-, heq⟩ | ⟨hfar, heq⟩ := thin_cons last e ds
    · rw [heq] at h
      exact ih h
    · rw [heq] at h
      obtain rfl | h := List.mem_cons.mp h
      · exact hfar
      · intro k hk
        have hnext := ih h e.start rfl
        have hbefore := hfar k hk
        omega

theorem thin_spaced (last : Option Nat) (ds : List Diagnostic) :
    (thin last ds).Pairwise fun a b => a.start + 2 ≤ b.start := by
  induction ds generalizing last with
  | nil => simp [thin]
  | cons d ds ih =>
    obtain ⟨-, heq⟩ | ⟨-, heq⟩ := thin_cons last d ds
    · rw [heq]
      exact ih last
    · rw [heq]
      exact .cons (fun e he => far_of_mem_thin he d.start rfl) (ih (some d.start))

/-- In a sorted list, what is dropped starts at, or one byte after, something that was kept. -/
theorem thin_covers (hsorted : ds.Pairwise fun a b => a.start ≤ b.start)
    (hlast : ∀ k ∈ last, ∀ d ∈ ds, k ≤ d.start) (hd : d ∈ ds) :
    ∃ k, (k ∈ last ∨ k ∈ (thin last ds).map Diagnostic.start) ∧ (d.start = k ∨ d.start = k + 1) := by
  induction ds generalizing last with
  | nil => cases hd
  | cons e ds ih =>
    obtain ⟨hle, hrest⟩ := List.pairwise_cons.mp hsorted
    obtain ⟨⟨k, hk, hnear⟩, heq⟩ | ⟨-, heq⟩ := thin_cons last e ds
    · rw [heq]
      obtain rfl | hd := List.mem_cons.mp hd
      · have hbehind := hlast k hk d (List.mem_cons_self ..)
        exact ⟨k, .inl hk, by omega⟩
      · exact ih hrest (fun k hk d hd => hlast k hk d (List.mem_cons_of_mem _ hd)) hd
    · rw [heq, List.map_cons]
      obtain rfl | hd := List.mem_cons.mp hd
      · exact ⟨d.start, .inr (List.mem_cons_self ..), .inl rfl⟩
      · have hnext : ∀ k ∈ some e.start, ∀ d ∈ ds, k ≤ d.start := by
          rintro _ ⟨⟩ d hd
          exact hle d hd
        obtain ⟨k, hk, hnear⟩ := ih hrest hnext hd
        obtain hk | hk := hk
        · obtain rfl := Option.some.inj hk
          exact ⟨e.start, .inr (List.mem_cons_self ..), hnear⟩
        · exact ⟨k, .inr (List.mem_cons_of_mem _ hk), hnear⟩

/-- What is kept is the first of all that start where it does. -/
theorem thin_first (h : d ∈ thin last ds) : (ds.filter (·.start = d.start)).head? = some d := by
  induction ds generalizing last with
  | nil => simp [thin] at h
  | cons e ds ih =>
    obtain ⟨⟨k, hk, hnear⟩, heq⟩ | ⟨-, heq⟩ := thin_cons last e ds
    · rw [heq] at h
      have hfar := far_of_mem_thin h k hk
      rw [List.filter_cons_of_neg (by simp; omega)]
      exact ih h
    · rw [heq] at h
      obtain rfl | h := List.mem_cons.mp h
      · simp
      · have hfar := far_of_mem_thin h e.start rfl
        rw [List.filter_cons_of_neg (by simp; omega)]
        exact ih h

/-- Where the kept ones start depends only on where all start. -/
theorem thin_starts_eq (last : Option Nat)
    (h : ds'.map Diagnostic.start = ds.map Diagnostic.start) :
    (thin last ds').map Diagnostic.start = (thin last ds).map Diagnostic.start := by
  induction ds generalizing ds' last with
  | nil =>
    obtain rfl : ds' = [] := by simpa using h
    rfl
  | cons d ds ih =>
    cases ds' with
    | nil => cases h
    | cons d' ds' =>
      obtain ⟨hhead, htail⟩ := List.cons.inj h
      rw [thin, thin, hhead]
      split
      · exact ih last htail
      · rw [List.map_cons, List.map_cons, hhead, ih (some d.start) htail]

/-- What is spaced well is kept. -/
theorem thin_eq_self (hspaced : ds.Pairwise fun a b => a.start + 2 ≤ b.start)
    (hlast : ∀ k ∈ last, ∀ d ∈ ds, k + 2 ≤ d.start) : thin last ds = ds := by
  induction ds generalizing last with
  | nil => rfl
  | cons d ds ih =>
    obtain ⟨hfar, hrest⟩ := List.pairwise_cons.mp hspaced
    obtain ⟨⟨k, hk, hnear⟩, -⟩ | ⟨-, heq⟩ := thin_cons last d ds
    · have hbehind := hlast k hk d (List.mem_cons_self ..)
      omega
    · rw [heq, ih hrest]
      rintro _ ⟨⟩ e he
      exact hfar e he

/-! ## Reports -/

/-- The static diagnostics among those that are added to a report, in the order of reporting. -/
def told (ds : Array Diagnostic) : List Diagnostic := ds.toList.filter Diagnostic.isStatic

/-- Each bucket gets what belongs into it. -/
theorem addAll_eq (r : Report) (ds : Array Diagnostic) :
    r.addAll ds = ⟨r.static ++ (told ds).toArray,
      r.runtime ++ (ds.toList.filter fun d => !d.isStatic).toArray⟩ := by
  have hlist : ∀ (l : List Diagnostic) (r : Report),
      l.foldl add r = ⟨r.static ++ (l.filter Diagnostic.isStatic).toArray,
        r.runtime ++ (l.filter fun d => !d.isStatic).toArray⟩ := by
    intro l
    induction l with
    | nil => simp
    | cons d l ih =>
      intro r
      rw [List.foldl_cons, ih]
      by_cases hstatic : d.isStatic = true
      · simp [add, hstatic]
      · simp [add, hstatic]
  rw [addAll, ← Array.foldl_toList]
  exact hlist ds.toList r

theorem static_addAll (r : Report) (ds : Array Diagnostic) :
    (r.addAll ds).static.toList = r.static.toList ++ told ds := by
  simp [addAll_eq]

theorem distinct_eq (r : Report) : r.distinct = thin none (r.static.toList.mergeSort byStart) := rfl

theorem distinct_addAll (ds : Array Diagnostic) :
    (empty.addAll ds).distinct = thin none ((told ds).mergeSort byStart) := by
  rw [distinct_eq, static_addAll]
  rfl

theorem distinct_eq_nil_iff (r : Report) : r.distinct = [] ↔ r.hadError = false := by
  rw [distinct_eq, thin_none_eq_nil_iff, ← List.length_eq_zero_iff, List.length_mergeSort]
  simp [hadError]

/-- Some of the diagnostics, which are spaced well and cover them all. -/
structure SpacedCover (errors kept : List Diagnostic) : Prop where
  /-- They stand in the order of their places. -/
  sublist : ∃ sorted, StablySorted errors sorted ∧ kept.Sublist sorted
  spaced : kept.Pairwise fun a b => a.start + 2 ≤ b.start
  /-- One that is dropped starts at, or one byte after, one that is kept. -/
  covers : ∀ d ∈ errors, ∃ k ∈ kept, d.start = k.start ∨ d.start = k.start + 1
  /-- Of those of one place the one that was reported first is kept. -/
  first : ∀ k ∈ kept, (errors.filter (·.start = k.start)).head? = some k

theorem spacedCover_thin (errors : List Diagnostic) :
    SpacedCover errors (thin none (errors.mergeSort byStart)) where
  sublist := ⟨_, stablySorted_mergeSort errors, thin_sublist ..⟩
  spaced := thin_spaced ..
  covers := by
    intro d hd
    have hsorted := stablySorted_mergeSort errors
    have hnone : ∀ k ∈ (none : Option Nat), ∀ e ∈ errors.mergeSort byStart, k ≤ e.start := by simp
    obtain ⟨k, hk, hnear⟩ := thin_covers hsorted.ordered hnone (hsorted.perm.mem_iff.mpr hd)
    obtain ⟨e, he, rfl⟩ := List.mem_map.mp (hk.resolve_left (by simp))
    exact ⟨e, he, hnear⟩
  first := by
    intro k hk
    rw [← filter_mergeSort]
    exact thin_first hk

/-- **What is shown of a report keeps a well-spaced cover of it.** Whatever is added to a report, of
its static diagnostics some are shown in the order of their places, two bytes apart at least, and every
other one starts at or one byte after one of them; of those of one place it is the first one reported.
Something is shown if something is wrong with the text. Where the shown ones start depends on where all
of them start, and not on the order of reporting; what goes wrong at run time changes nothing; and
nothing is left out of what is shown when it is reported again. -/
theorem distinct_spaced_cover (ds : Array Diagnostic) :
    let report := empty.addAll ds
    SpacedCover (told ds) report.distinct ∧
      (report.distinct = [] ↔ report.hadError = false) ∧
      (∀ ds', ((told ds').map Diagnostic.start).Perm ((told ds).map Diagnostic.start) →
        (empty.addAll ds').distinct.map Diagnostic.start = report.distinct.map Diagnostic.start) ∧
      (∀ more : Array Diagnostic, (∀ d ∈ more, d.isStatic = false) →
        (report.addAll more).distinct = report.distinct) ∧
      thin none report.distinct = report.distinct ∧
      (empty.addAll report.distinct.toArray).distinct = report.distinct := by
  intro report
  have hcover : SpacedCover (told ds) report.distinct :=
    distinct_addAll ds ▸ spacedCover_thin (told ds)
  have hagain : thin none report.distinct = report.distinct := thin_eq_self hcover.spaced nofun
  refine ⟨hcover, distinct_eq_nil_iff report, ?_, ?_, hagain, ?_⟩
  · intro ds' hperm
    rw [distinct_addAll, distinct_addAll]
    exact thin_starts_eq none
      ((stablySorted_mergeSort _).starts_eq (stablySorted_mergeSort _) hperm)
  · intro more hmore
    have hnone : told more = [] := by
      simpa [told] using hmore
    rw [distinct_eq, static_addAll, hnone, List.append_nil, ← distinct_eq]
  · obtain ⟨sorted, hsorted, hsublist⟩ := hcover.sublist
    have hstatic : told report.distinct.toArray = report.distinct := by
      refine List.filter_eq_self.mpr fun d hd => ?_
      have hmem := hsorted.perm.mem_iff.mp (hsublist.subset hd)
      exact (List.mem_filter.mp hmem).2
    have hordered : report.distinct.Pairwise fun a b => byStart a b = true :=
      (hsorted.ordered.sublist hsublist).imp decide_eq_true
    rw [distinct_addAll, hstatic, List.mergeSort_of_pairwise hordered, hagain]

/-- Four errors in two orders: the one that stands between two kept ones is dropped in both. -/
theorem distinct_spaced_cover_reordered :
    let at_ (place : Nat) : Diagnostic := .located (.lexical .unterminatedString) (.point place)
    let ds := #[at_ 5, at_ 4, .output "closed", at_ 6, at_ 20]
    let ds' := #[at_ 20, at_ 6, at_ 5, at_ 4]
    ((told ds').map Diagnostic.start).Perm ((told ds).map Diagnostic.start) ∧
      (empty.addAll ds').distinct.map Diagnostic.start =
        (empty.addAll ds).distinct.map Diagnostic.start ∧
      (empty.addAll ds).distinct.map Diagnostic.start = [4, 6, 20] := by
  intro at_ ds ds'
  have hperm : ((told ds').map Diagnostic.start).Perm ((told ds).map Diagnostic.start) := by decide
  obtain ⟨-, -, horder, -⟩ := distinct_spaced_cover ds
  exact ⟨hperm, horder ds' hperm, by cbv⟩

end Lox.Report
