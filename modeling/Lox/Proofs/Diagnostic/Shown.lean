import Lox.Diagnostic.Excerpt
import Mathlib.Data.List.DropRight

/-! # A diagnostic beside its text

The lines of a text are what stands between its line breaks. A place between two
characters stands on one of them, and the search for the line of a byte offset finds
that line. So a diagnostic at a span that starts between two characters is shown with
the line on which the span starts, and with a caret under the character with which it
starts. -/

namespace Lox.Text

/-- The lines of a text, without their breaks. -/
def lines (source : String) : List (List Char) := source.toList.splitOn '\n'

/-- The byte offset at which a line starts: behind the lines above and their breaks. Lines are
counted from zero here. -/
def lineStart (source : String) (n : Nat) : Nat :=
  width (((lines source).take n).flatMap (· ++ ['\n']))

/-- A place between two characters of a text, and the line on which it stands. -/
structure Spot (source : String) (offset : Nat) where
  /-- The characters before the place. -/
  before : List Char
  after : List Char
  source_eq : source.toList = before ++ after
  offset_eq : width before = offset
  line : List Char
  line_eq : (lines source)[before.count '\n']? = some line
  /-- The characters before the place that stand on its line. -/
  front : List Char
  front_prefix : front <+: line
  start_add : lineStart source (before.count '\n') + width front = offset

/-- The number of the line, counted from one: there is one line break before it for every line above. -/
def Spot.number {source : String} {offset : Nat} (spot : Spot source offset) : Nat :=
  1 + spot.before.count '\n'

/-! ## Splitting -/

theorem splitOn_append (above rest : List Char) :
    (above ++ '\n' :: rest).splitOn '\n' = above.splitOn '\n' ++ rest.splitOn '\n' := by
  simp only [List.splitOn_eq_splitOnP]
  exact List.splitOnP_append_cons above rest (by simp)

theorem splitOn_cons_of_ne {c : Char} (h : c ≠ '\n') (cs : List Char) :
    (c :: cs).splitOn '\n' = (cs.splitOn '\n').modifyHead (List.cons c) := by
  simp [List.splitOn_eq_splitOnP, List.splitOnP_cons_eq_if_modifyHead, h]

theorem splitOn_cons_break (cs : List Char) :
    ('\n' :: cs).splitOn '\n' = [] :: cs.splitOn '\n' := splitOn_append [] cs

/-- The first line ends at the first break. -/
theorem splitOn_head (cs : List Char) :
    ∃ more, cs.splitOn '\n' = cs.takeWhile (· ≠ '\n') :: more := by
  induction cs with
  | nil => exact ⟨[], rfl⟩
  | cons c cs ih =>
    by_cases hbreak : c = '\n'
    · subst hbreak
      exact ⟨_, splitOn_cons_break cs⟩
    · obtain ⟨more, hmore⟩ := ih
      exact ⟨more, by simp [splitOn_cons_of_ne hbreak, hmore, hbreak]⟩

/-- There is one line more than there are breaks. -/
theorem length_splitOn (cs : List Char) : (cs.splitOn '\n').length = cs.count '\n' + 1 := by
  induction cs with
  | nil => rfl
  | cons c cs ih =>
    by_cases hbreak : c = '\n'
    · subst hbreak
      simp [splitOn_cons_break, ih]
    · simp [splitOn_cons_of_ne hbreak, ih, hbreak]

/-- The lines with their breaks are the text, with a break at its end. -/
theorem flatMap_splitOn (cs : List Char) :
    (cs.splitOn '\n').flatMap (· ++ ['\n']) = cs ++ ['\n'] := by
  induction cs with
  | nil => rfl
  | cons c cs ih =>
    by_cases hbreak : c = '\n'
    · subst hbreak
      simp [splitOn_cons_break, ih]
    · obtain ⟨more, hmore⟩ := splitOn_head cs
      rw [hmore] at ih
      simpa [splitOn_cons_of_ne hbreak, hmore] using ih

/-! ## The line of a place -/

/-- What stands before a place is what stands on its line, and lines above it if there are any. -/
theorem exists_front (before : List Char) : ∃ front, '\n' ∉ front ∧
    (before = front ∨ ∃ above, before = above ++ '\n' :: front) := by
  induction before with
  | nil => exact ⟨[], List.not_mem_nil, .inl rfl⟩
  | cons c cs ih =>
    obtain ⟨front, hfront, rfl | ⟨above, rfl⟩⟩ := ih
    · by_cases hbreak : c = '\n'
      · subst hbreak
        exact ⟨cs, hfront, .inr ⟨[], rfl⟩⟩
      · exact ⟨c :: cs, by simp [hfront, Ne.symm hbreak], .inl rfl⟩
    · exact ⟨front, hfront, .inr ⟨c :: above, rfl⟩⟩

theorem takeWhile_front {front : List Char} (h : '\n' ∉ front) (after : List Char) :
    (front ++ after).takeWhile (· ≠ '\n') = front ++ after.takeWhile (· ≠ '\n') := by
  refine List.takeWhile_append_of_pos fun c hc => ?_
  simp only [ne_eq, decide_not, Bool.not_eq_eq_eq_not, Bool.not_true, decide_eq_false_iff_not]
  exact fun hbreak => h (hbreak ▸ hc)

/-- The search passes a line that ends before the place. -/
theorem lineFrom_above (offset : Nat) (above rest : List Char) :
    ∀ (byte : Nat) (here : Line), byte + width above < offset →
      lineFrom offset byte here (above ++ '\n' :: rest) =
        lineFrom offset (byte + width above + 1)
          ⟨here.number + above.count '\n' + 1, byte + width above + 1, rest⟩ rest := by
  induction above with
  | nil =>
    intro byte here hbyte
    have hnot : ¬ offset ≤ byte := by simpa using hbyte
    simp [lineFrom, hnot]
  | cons c above ih =>
    intro byte here hbyte
    rw [width_cons] at hbyte
    have hnot : ¬ offset ≤ byte := by omega
    by_cases hbreak : c = '\n'
    · subst hbreak
      have hone : '\n'.utf8Size = 1 := rfl
      rw [hone] at hbyte
      simp only [List.cons_append, lineFrom, if_neg hnot, if_true, width_cons, hone,
        List.count_cons_self]
      have hnumber : here.number + 1 + above.count '\n' = here.number + (above.count '\n' + 1) := by
        omega
      rw [ih (byte + 1) _ (by omega), hnumber, Nat.add_assoc byte]
    · simp only [List.cons_append, lineFrom, if_neg hnot, if_neg hbreak, width_cons,
        List.count_cons_of_ne hbreak]
      rw [ih _ here (by omega), Nat.add_assoc byte]

/-- The search stays on a line up to the place. -/
theorem lineFrom_front {front : List Char} (h : '\n' ∉ front) (after : List Char) :
    ∀ (byte : Nat) (here : Line),
      lineFrom (byte + width front) byte here (front ++ after) = here := by
  induction front with
  | nil => intro byte here; cases after <;> simp [lineFrom]
  | cons c front ih =>
    intro byte here
    have hsize := c.utf8Size_pos
    obtain ⟨hbreak, hrest⟩ : '\n' ≠ c ∧ '\n' ∉ front := by simpa using h
    rw [width_cons, ← Nat.add_assoc]
    have hnot : ¬ byte + c.utf8Size + width front ≤ byte := by omega
    simp only [List.cons_append, lineFrom, if_neg hnot, if_neg (Ne.symm hbreak)]
    exact ih hrest _ here

/-- As many characters take the width of a front as the front has. -/
theorem charactersIn_append (front after : List Char) (count : Nat) :
    charactersIn count (width front) (front ++ after) = some (count + front.length) := by
  induction front generalizing count with
  | nil => cases after <;> simp [charactersIn]
  | cons c front ih =>
    have hsize := c.utf8Size_pos
    have hzero : ¬ c.utf8Size + width front = 0 := by omega
    have hinside : ¬ c.utf8Size + width front < c.utf8Size := by omega
    simp only [List.cons_append, width_cons, charactersIn, if_neg hzero, if_neg hinside,
      Nat.add_sub_cancel_left, ih, List.length_cons]
    congr 1; omega

/-- Up to the break after the place, the text from the start of a line is that line. -/
theorem splitOn_front {front : List Char} (h : '\n' ∉ front) (after : List Char) :
    ∃ more, (front ++ after).splitOn '\n' = (front ++ after.takeWhile (· ≠ '\n')) :: more := by
  obtain ⟨more, hmore⟩ := splitOn_head (front ++ after)
  exact ⟨more, by rw [hmore, takeWhile_front h]⟩

/-- A place on the first line: its line starts at zero. -/
theorem first_line {source : String} {front after : List Char}
    (hsource : source.toList = front ++ after) (hfront : '\n' ∉ front) :
    (lines source)[front.count '\n']? = some (front ++ after.takeWhile (· ≠ '\n')) ∧
      lineStart source (front.count '\n') + width front = width front ∧
      lineAt source (width front) =
        ⟨1 + front.count '\n', lineStart source (front.count '\n'), front ++ after⟩ := by
  obtain ⟨more, hmore⟩ := splitOn_front hfront after
  have hcount : front.count '\n' = 0 := List.count_eq_zero.mpr hfront
  have hstart : lineStart source 0 = 0 := rfl
  have hfound := lineFrom_front hfront after 0 ⟨1, 0, front ++ after⟩
  rw [hcount, hstart, lines, lineAt, hsource, hmore]
  exact ⟨rfl, Nat.zero_add _, by simpa using hfound⟩

/-- A place with lines above it: its line starts behind the break that ends them. -/
theorem later_line {source : String} {above front after : List Char}
    (hsource : source.toList = (above ++ '\n' :: front) ++ after) (hfront : '\n' ∉ front) :
    (lines source)[(above ++ '\n' :: front).count '\n']? =
        some (front ++ after.takeWhile (· ≠ '\n')) ∧
      lineStart source ((above ++ '\n' :: front).count '\n') + width front =
        width (above ++ '\n' :: front) ∧
      lineAt source (width (above ++ '\n' :: front)) =
        ⟨1 + (above ++ '\n' :: front).count '\n',
          lineStart source ((above ++ '\n' :: front).count '\n'), front ++ after⟩ := by
  obtain ⟨more, hmore⟩ := splitOn_front hfront after
  have hone : '\n'.utf8Size = 1 := rfl
  have hcount : (above ++ '\n' :: front).count '\n' = (above.splitOn '\n').length := by
    rw [length_splitOn, List.count_append, List.count_cons_self, List.count_eq_zero.mpr hfront]
  have hlines : lines source =
      above.splitOn '\n' ++ (front ++ after.takeWhile (· ≠ '\n')) :: more := by
    rw [lines, hsource, List.append_assoc, List.cons_append, splitOn_append, hmore]
  have hstart : lineStart source (above.splitOn '\n').length = width above + 1 := by
    rw [lineStart, hlines, List.take_left, flatMap_splitOn, width_append]
    rfl
  have hwidth : width (above ++ '\n' :: front) = width above + 1 + width front := by
    rw [width_append, width_cons, hone, Nat.add_assoc]
  rw [hcount, hstart, hlines, hwidth, lineAt, hsource]
  refine ⟨by simp, rfl, ?_⟩
  rw [List.append_assoc, List.cons_append,
    lineFrom_above _ above (front ++ after) 0 ⟨1, 0, _⟩ (by simp; omega)]
  have hfound := lineFrom_front hfront after (width above + 1)
    ⟨1 + above.count '\n' + 1, width above + 1, front ++ after⟩
  rw [length_splitOn, ← Nat.add_assoc]
  simpa using hfound

/-- Between any two characters there is a spot, and the search for a line finds its line. -/
theorem exists_spot {source : String} {offset : Nat}
    (hvalid : (String.Pos.Raw.mk offset).IsValid source) :
    ∃ spot : Spot source offset,
      (lineAt source offset).number = spot.number ∧
      (lineAt source offset).start = lineStart source (spot.before.count '\n') ∧
      (lineAt source offset).text = spot.line.rdropWhile (· = '\r') ∧
      charactersIn 0 (width spot.front) (lineAt source offset).tail = some spot.front.length := by
  obtain ⟨s₁, s₂, rfl, hoffset⟩ := String.Pos.Raw.isValid_iff_exists_append.mp hvalid
  obtain rfl : offset = width s₁.toList := by
    rw [width_toList]
    exact congrArg String.Pos.Raw.byteIdx hoffset
  have hsource : (s₁ ++ s₂).toList = s₁.toList ++ s₂.toList := by simp
  generalize s₁.toList = before at hsource ⊢
  generalize s₂.toList = after at hsource
  generalize s₁ ++ s₂ = source at hsource ⊢
  obtain ⟨front, hfront, hline, hadd, hat⟩ : ∃ front, '\n' ∉ front ∧
      (lines source)[before.count '\n']? = some (front ++ after.takeWhile (· ≠ '\n')) ∧
      lineStart source (before.count '\n') + width front = width before ∧
      lineAt source (width before) =
        ⟨1 + before.count '\n', lineStart source (before.count '\n'), front ++ after⟩ := by
    obtain ⟨front, hfront, rfl | ⟨above, rfl⟩⟩ := exists_front before
    · exact ⟨before, hfront, first_line hsource hfront⟩
    · exact ⟨front, hfront, later_line hsource hfront⟩
  refine ⟨⟨before, after, hsource, rfl, _, hline, front, List.prefix_append .., hadd⟩, ?_⟩
  rw [hat]
  refine ⟨rfl, rfl, ?_, by simpa using charactersIn_append front after 0⟩
  rw [Line.text, takeWhile_front hfront]
  rfl

end Lox.Text

/-! ## Spans that cut no character -/

namespace Lox

/-- A span of a text that cuts no character in two. -/
structure Span.Fits (span : Span) (source : String) : Prop where
  ordered : span.start ≤ span.stop
  within : span.stop ≤ source.utf8ByteSize
  start_valid : (String.Pos.Raw.mk span.start).IsValid source
  stop_valid : (String.Pos.Raw.mk span.stop).IsValid source

namespace Span.Fits

variable {source : String} {a b : Span}

theorem cover (ha : a.Fits source) (hb : b.Fits source) : (a.cover b).Fits source where
  ordered := by
    have := ha.ordered
    simp only [Span.cover]
    omega
  within := Nat.max_le.mpr ⟨ha.within, hb.within⟩
  start_valid := by
    simp only [Span.cover]
    rcases Nat.le_total a.start b.start with h | h
    · rw [Nat.min_eq_left h]
      exact ha.start_valid
    · rw [Nat.min_eq_right h]
      exact hb.start_valid
  stop_valid := by
    simp only [Span.cover]
    rcases Nat.le_total a.stop b.stop with h | h
    · rw [Nat.max_eq_right h]
      exact hb.stop_valid
    · rw [Nat.max_eq_left h]
      exact ha.stop_valid

/-- A stretch of a text, from behind what comes before it up to what comes after it. -/
theorem stretch (before text after : String) :
    Fits ⟨before.utf8ByteSize, before.utf8ByteSize + text.utf8ByteSize⟩
      (before ++ text ++ after) where
  ordered := Nat.le_add_right ..
  within := by
    rw [String.utf8ByteSize_append, String.utf8ByteSize_append]
    exact Nat.le_add_right ..
  start_valid := String.Pos.Raw.isValid_iff_exists_append.mpr
    ⟨before, text ++ after, String.append_assoc, rfl⟩
  stop_valid := String.Pos.Raw.isValid_iff_exists_append.mpr
    ⟨before ++ text, after, rfl, by
      simp [String.Pos.Raw.ext_iff, String.utf8ByteSize_append]⟩

theorem finish (source : String) : (point source.utf8ByteSize).Fits source := by
  have hempty := stretch source "" ""
  rwa [String.append_empty, String.append_empty] at hempty

end Span.Fits

/-- What is shown of a message at a spot: the line without the carriage returns at its end, behind
its number, and below it the caret. -/
def Text.Spot.shown {source : String} {offset : Nat} (spot : Text.Spot source offset)
    (message : String) : String :=
  let margin := "    " ++ toString spot.number ++ " | "
  "Error: " ++ message ++ "\n\n" ++ margin ++ String.ofList (spot.line.rdropWhile (· = '\r')) ++ "\n"
    ++ String.ofList (List.replicate (margin.length + spot.front.length) ' ') ++ "^-- Here.\n"

/-- A diagnostic is shown at the spot at which its span starts. -/
theorem Diagnostic.excerpt_of_fits {span : Span} {source : String} (hspan : span.Fits source)
    (message : String) :
    ∃ spot : Text.Spot source span.start,
      span.location source = ⟨spot.number, Text.width spot.front⟩ ∧
      excerpt message span source = spot.shown message := by
  have hmin : min span.start source.utf8ByteSize = span.start :=
    Nat.min_eq_left (Nat.le_trans hspan.ordered hspan.within)
  obtain ⟨spot, hnumber, hstart, htext, hcaret⟩ := Text.exists_spot hspan.start_valid
  have hcolumn : span.start - Text.lineStart source (spot.before.count '\n') =
      Text.width spot.front := by
    have hadd := spot.start_add
    omega
  refine ⟨spot, ?_, ?_⟩
  · simp only [Span.location, hmin, hnumber, hstart, hcolumn]
  · simp only [excerpt, hmin, hnumber, hstart, hcolumn, htext, caretColumn, hcaret,
      Option.getD_some, Text.Spot.shown]

end Lox
