import Lox.Proofs.Token.LongestMatch
import Lox.Proofs.Diagnostic.Shown

/-! # Reading a slice of a text

A slice from the start of one token to the end of another one is read as the text
is read there: reading starts afresh at every token, and no token needs to see
what comes behind it. -/

namespace Lox.Lexer

variable {offset : Nat} {cs text rest rest' : List Char} {t b : Token} {ts : List Token}
  {xs ys : List Item}

/-- The items of tokens. -/
def tokenItems (ts : List Token) : List Item := ts.map .token

/-! ## Less of the text -/

theorem Longest.of_prefix (h : Longest text rest) (hrest : rest' <+: rest) : Longest text rest' :=
  fun longer hlonger => h longer (hlonger.trans ((List.prefix_append_right_inj text).mpr hrest))

theorem Separator.of_prefix (h : Separator text rest) (hrest : rest' <+: rest) :
    Separator text rest' := by
  cases h with
  | space h => exact .space h
  | line hline hend =>
    refine .line hline fun d hd => hend d ?_
    obtain ⟨more, rfl⟩ := hrest
    rw [List.head?_append, Option.mem_def.mp hd]
    rfl
  | block hopen => exact .block hopen

/-- What stands from a token on is covered by the items from it on. -/
theorem Covered.back (h : Covered offset cs (xs ++ .token t :: ys)) :
    ∃ before rest, cs = before ++ rest ∧ offset + Text.width before = t.span.start ∧
      Covered t.span.start rest (.token t :: ys) := by
  generalize hitems : xs ++ .token t :: ys = items at h
  induction h generalizing xs with
  | done => simp at hitems
  | @separator offset text rest items _ _ ih =>
    obtain ⟨before, rest, rfl, hstart, hcovered⟩ := ih hitems
    exact ⟨text ++ before, rest, by simp, by rw [Text.width_append]; omega, hcovered⟩
  | @token offset kind text rest items hpart hlongest hrest ih =>
    cases xs with
    | nil =>
      obtain ⟨ht, rfl⟩ := List.cons.inj hitems
      obtain rfl := Item.token.inj ht
      exact ⟨[], text ++ rest, rfl, rfl, .token hpart hlongest hrest⟩
    | cons x xs =>
      obtain ⟨before, rest, rfl, hstart, hcovered⟩ := ih (List.cons.inj hitems).2
      exact ⟨text ++ before, rest, by simp, by rw [Text.width_append]; omega, hcovered⟩
  | @unexpected offset c rest items _ _ _ ih =>
    cases xs with
    | nil => cases (List.cons.inj hitems).1
    | cons x xs =>
      obtain ⟨before, rest, rfl, hstart, hcovered⟩ := ih (List.cons.inj hitems).2
      exact ⟨c :: before, rest, rfl, by rw [Text.width_cons]; omega, hcovered⟩
  | openString => cases xs <;> simp at hitems
  | openComment => cases xs <;> simp at hitems

/-- What stands up to the end of a token is covered by the tokens up to it. -/
theorem Covered.front (h : Covered offset cs (tokenItems (t :: ts) ++ ys))
    (hb : (t :: ts).getLast? = some b) :
    ∃ text after, cs = text ++ after ∧ b.span.stop = offset + Text.width text ∧
      Covered offset text (tokenItems (t :: ts)) := by
  generalize hitems : tokenItems (t :: ts) ++ ys = items at h
  induction h generalizing t ts with
  | done => cases hitems
  | @separator offset text rest items hpart _ ih =>
    obtain ⟨more, after, rfl, hstop, hcovered⟩ := ih hb hitems
    have hpart := hpart.of_prefix (List.prefix_append more after)
    exact ⟨text ++ more, after, by simp, by rw [Text.width_append]; omega,
      .separator hpart hcovered⟩
  | @token offset kind text rest items hpart hlongest _ ih =>
    obtain ⟨ht, hbehind⟩ := List.cons.inj hitems
    obtain rfl := Item.token.inj ht
    cases ts with
    | nil =>
      obtain rfl := Option.some.inj hb
      have halone : Covered offset (text ++ []) _ :=
        .token hpart (hlongest.of_prefix List.nil_prefix) .done
      rw [List.append_nil] at halone
      exact ⟨text, rest, rfl, rfl, halone⟩
    | cons u ts =>
      obtain ⟨more, after, rfl, hstop, hcovered⟩ := ih (by simpa using hb) hbehind
      have hlongest := hlongest.of_prefix (List.prefix_append more after)
      exact ⟨text ++ more, after, by simp, by rw [Text.width_append]; omega,
        .token hpart hlongest hcovered⟩
  | unexpected => cases (List.cons.inj hitems).1
  | openString => cases (List.cons.inj hitems).1
  | openComment => cases (List.cons.inj hitems).1

/-! ## Reading what is left -/

/-- A text is read for itself as it is read so many bytes further on. -/
theorem items_of_covered (h : Covered offset cs (tokenItems ts)) :
    (scan (String.ofList cs)).items.toList.map (Item.later offset) = tokenItems ts := by
  have hthere := congrArg Array.toList (scanFrom_of_covered h #[])
  have hlater := scanFrom_later offset #[] 0 #[] cs
  simp only [Nat.zero_add, Array.empty_append, Array.map_empty] at hlater
  rw [hlater] at hthere
  simpa [scan] using hthere

/-- Tokens that are read further on are read. -/
theorem tokens_of_later {k : Nat} {s : Scan}
    (h : s.items.toList.map (Item.later k) = tokenItems ts) :
    s.faults = #[] ∧ s.tokens.tokens.map (Token.respan (Span.later k)) = ts := by
  constructor
  · refine faults_of_sound fun item hitem => ?_
    have hlater := List.mem_map_of_mem (f := Item.later k) (Array.mem_toList_iff.mpr hitem)
    rw [h] at hlater
    obtain ⟨t, -, ht⟩ := List.mem_map.mp hlater
    cases item with
    | token u => trivial
    | fault error span => cases ht
  · rw [Scan.tokens]
    generalize s.items.toList = items at h
    induction items generalizing ts with
    | nil => simpa [tokenItems, eq_comm] using h
    | cons item items ih =>
      cases ts with
      | nil => simp [tokenItems] at h
      | cons t ts =>
        obtain ⟨hitem, hitems⟩ := List.cons.inj h
        cases item with
        | token u =>
          obtain rfl := Item.token.inj hitem
          exact congrArg (_ :: ·) (ih hitems)
        | fault error span => cases hitem

/-- Where nothing is wrong all items are tokens. -/
theorem items_of_faults {source : String} (h : (scan source).faults = #[]) :
    (scan source).items.toList = tokenItems (scan source).tokens.tokens := by
  have hsound : ∀ item ∈ (scan source).items.toList, item.Sound :=
    fun item hitem => sound_of_faults h item (Array.mem_toList_iff.mp hitem)
  rw [Scan.tokens]
  generalize (scan source).items.toList = items at hsound ⊢
  induction items with
  | nil => rfl
  | cons item items ih =>
    obtain ⟨hitem, hitems⟩ := List.forall_mem_cons.mp hsound
    cases item with
    | token t => exact congrArg (.token t :: ·) (ih hitems)
    | fault error span => exact hitem.elim

/-- **A slice is read as the text is read there.** Where nothing is wrong with a text, the slice of it
from the first to the last of some tokens that stand side by side is read as these tokens. -/
theorem scan_slice {source : String} {own : List Token} (h : (scan source).faults = #[])
    (hown : own <:+: (scan source).tokens.tokens) (ht : own.head? = some t)
    (hb : own.getLast? = some b) :
    ∃ before text after : String, source = before ++ text ++ after ∧
      before.utf8ByteSize = t.span.start ∧ (before ++ text).utf8ByteSize = b.span.stop ∧
      (scan text).faults = #[] ∧
      (scan text).tokens.tokens.map (Token.respan (Span.later t.span.start)) = own := by
  obtain ⟨xs, ys, hsplit⟩ := hown
  cases own with
  | nil => cases ht
  | cons u ts =>
    obtain rfl := Option.some.inj ht
    have hitems := items_of_faults h
    rw [← hsplit, tokenItems, List.map_append, List.map_append, List.append_assoc] at hitems
    have hcovered := (covered_iff source _).mpr hitems.symm
    obtain ⟨before, rest, hsource, hstart, hback⟩ := hcovered.back
    obtain ⟨text, after, rfl, hstop, hslice⟩ := hback.front hb
    rw [Nat.zero_add] at hstart
    refine ⟨String.ofList before, String.ofList text, String.ofList after, ?_, ?_, ?_, ?_⟩
    · rw [← String.ofList_append, ← String.ofList_append, List.append_assoc, ← hsource,
        String.ofList_toList]
    · rw [← Text.width_ofList, hstart]
    · rw [← String.ofList_append, ← Text.width_ofList, Text.width_append, hstart, hstop]
    · exact tokens_of_later (items_of_covered hslice)

/-! ## Items that cut no character

Reading goes from character to character, so all that it yields stands between
two of them: tokens, faults and the end of the text. -/

variable {items : List Item} {source : String}

theorem fits_stretch {before text after : List Char} (hbefore : Text.width before = offset) :
    Span.Fits ⟨offset, offset + Text.width text⟩ (String.ofList (before ++ (text ++ after))) := by
  have hfits := Span.Fits.stretch (String.ofList before) (String.ofList text) (String.ofList after)
  rwa [← String.ofList_append, ← String.ofList_append, List.append_assoc, ← Text.width_ofList,
    ← Text.width_ofList, hbefore] at hfits

/-- The items of a text that stands behind another one fit both together. -/
theorem Covered.fits (h : Covered offset cs items) (before : List Char)
    (hbefore : Text.width before = offset) :
    ∀ item ∈ items, item.span.Fits (String.ofList (before ++ cs)) := by
  induction h generalizing before with
  | done => simp
  | @separator offset text rest items _ _ ih =>
    rw [← List.append_assoc]
    exact ih (before ++ text) (by rw [Text.width_append, hbefore])
  | @token offset kind text rest items _ _ _ ih =>
    refine List.forall_mem_cons.mpr ⟨fits_stretch hbefore, ?_⟩
    rw [← List.append_assoc]
    exact ih (before ++ text) (by rw [Text.width_append, hbefore])
  | @unexpected offset c rest items _ _ _ ih =>
    have hone : Text.width [c] = c.utf8Size := by simp
    refine List.forall_mem_cons.mpr ⟨?_, ?_⟩
    · rw [← List.singleton_append, Item.span, ← hone]
      exact fits_stretch hbefore
    · have hrest := ih (before ++ [c]) (by rw [Text.width_append, hbefore, hone])
      rwa [List.append_assoc] at hrest
  | @openString offset inside =>
    have hfinish := Span.Fits.finish (String.ofList (before ++ '"' :: inside))
    rw [← Text.width_ofList, Text.width_append, hbefore] at hfinish
    simpa [Item.span] using hfinish
  | @openComment offset inside =>
    have hopening : Text.width ['/', '*'] = 2 := rfl
    have hfits : Span.Fits ⟨offset, offset + Text.width ['/', '*']⟩
        (String.ofList (before ++ (['/', '*'] ++ inside))) := fits_stretch hbefore
    rw [hopening] at hfits
    simpa [Item.span] using hfits

theorem fits_of_mem {item : Item} (h : item ∈ (scan source).items.toList) :
    item.span.Fits source := by
  have hfits := ((covered_iff source _).mpr rfl).fits [] rfl item h
  rwa [List.nil_append, String.ofList_toList] at hfits

theorem token_fits {t : Token} (h : t ∈ (scan source).tokens.tokens) : t.span.Fits source :=
  fits_of_mem (mem_tokens.mp h)

theorem finish_fits (source : String) : (Span.point (scan source).finish).Fits source := by
  rw [finish_scan]
  exact .finish source

/-- Every lexical fault has a place in the text. -/
theorem fault_fits {d : Diagnostic} (h : d ∈ (scan source).faults) :
    ∃ error span, d = .located (.lexical error) span ∧ span.Fits source := by
  obtain ⟨item, hitem, hfault⟩ := Array.mem_filterMap.mp h
  cases item with
  | token t => cases hfault
  | fault error span =>
    obtain rfl := Option.some.inj hfault
    exact ⟨error, span, rfl, fits_of_mem (Array.mem_toList_iff.mpr hitem)⟩

end Lox.Lexer
