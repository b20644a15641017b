import Lox.Token.Lexer

/-! # One text after another

When a text in which every string and every block comment ends is followed by a
line break and another text, no piece goes across the break: the pieces are those
of the first text, and those of the second one so many bytes further on. -/

namespace Lox

/-- A span that lies so many bytes further on. -/
def Span.later (k : Nat) (span : Span) : Span := ⟨span.start + k, span.stop + k⟩

/-- A token that stands elsewhere. -/
def Token.respan (σ : Span → Span) (t : Token) : Token := { t with span := σ t.span }

namespace Lexer

/-- An item that stands so many bytes further on. -/
def Item.later (k : Nat) : Item → Item
  | .token t => .token (t.respan (Span.later k))
  | .fault error span => .fault error (span.later k)

/-! ## Further on -/

theorem item?_later (k : Nat) (piece : Piece) (lexeme : List Char) (start stop : Nat) :
    piece.item? lexeme (start + k) (stop + k) =
      (piece.item? lexeme start stop).map (Item.later k) := by
  cases piece with
  | openComment => simp only [Piece.item?, Option.map_some, Item.later, Span.later,
      Nat.add_right_comm]
  | _ => rfl

theorem widthFrom_later (k offset : Nat) (cs : List Char) :
    Text.widthFrom (offset + k) cs = Text.widthFrom offset cs + k := by
  rw [Text.widthFrom_eq, Text.widthFrom_eq, Nat.add_right_comm]

/-- A text that stands further on, after other items. -/
theorem scanFrom_later (k : Nat) (before : Array Item) (offset : Nat) (items : Array Item)
    (cs : List Char) :
    scanFrom (offset + k) (before ++ items.map (Item.later k)) cs =
      ⟨before ++ (scanFrom offset items cs).items.map (Item.later k),
        (scanFrom offset items cs).finish + k⟩ := by
  fun_induction scanFrom offset items cs with
  | case1 => rw [scanFrom]
  | case2 offset items c cs head lexeme stop items' ih =>
    rw [scanFrom, ← ih]
    rw [widthFrom_later, item?_later]
    congr 1
    simp only [items', head, lexeme, stop]
    cases (cut c cs).piece.item? (c :: cs.take (cut c cs).extra) offset
      (Text.widthFrom offset (c :: cs.take (cut c cs).extra)) with
    | none => rfl
    | some item => simp only [Option.map_some, Array.map_push, Array.append_push]

/-- Items are kept. -/
theorem mem_scanFrom {item : Item} (offset : Nat) (items : Array Item) (cs : List Char)
    (h : item ∈ items) : item ∈ (scanFrom offset items cs).items := by
  fun_induction scanFrom offset items cs with
  | case1 => exact h
  | case2 offset items c cs head lexeme stop items' ih =>
    refine ih ?_
    simp only [items']
    split
    · exact Array.mem_push_of_mem _ h
    · exact h

theorem finish_scanFrom (offset : Nat) (items : Array Item) (cs : List Char) :
    (scanFrom offset items cs).finish = offset + Text.width cs := by
  fun_induction scanFrom offset items cs with
  | case1 => rfl
  | case2 offset items c cs head lexeme stop items' ih =>
    have hsplit : Text.width cs = Text.width (cs.take head.extra) + Text.width (cs.drop head.extra) := by
      rw [← Text.width_append, List.take_append_drop]
    rw [ih]
    simp only [stop, lexeme, Text.widthFrom_eq, Text.width_cons]
    omega

/-! ## Before a line break -/

/-- A piece that ends where it should. -/
def Piece.Ends (piece : Piece) : Prop := piece ≠ .openString ∧ piece ≠ .openComment

variable {p : Char → Bool} (cs ds : List Char)

theorem takeWhile_break (hbreak : p '\n' = false) :
    (cs ++ '\n' :: ds).takeWhile p = cs.takeWhile p := by
  rw [List.takeWhile_append, List.takeWhile_cons, hbreak]
  split
  · next hall =>
    rw [if_neg Bool.false_ne_true, List.append_nil]
    exact ((List.takeWhile_prefix p).eq_of_length hall).symm
  · rfl

theorem dropWhile_break (hbreak : p '\n' = false) :
    (cs ++ '\n' :: ds).dropWhile p = cs.dropWhile p ++ '\n' :: ds := by
  rw [List.dropWhile_append, List.dropWhile_cons, hbreak]
  split
  · next hempty =>
    rw [List.isEmpty_iff.mp hempty]
    rfl
  · rfl

theorem length_takeWhile_le (p : Char → Bool) : (cs.takeWhile p).length ≤ cs.length :=
  (List.takeWhile_prefix p).length_le

theorem commentEnd_append {cs : List Char} {count n : Nat} (h : commentEnd count cs = some n) :
    commentEnd count (cs ++ ds) = some n ∧ n ≤ count + cs.length := by
  fun_induction commentEnd count cs with
  | case1 => cases h
  | case2 count rest =>
    obtain rfl := Option.some.inj h
    refine ⟨rfl, ?_⟩
    simp only [List.length_cons]
    omega
  | case3 count c cs hne ih =>
    obtain ⟨hsome, hle⟩ := ih h
    constructor
    · rw [List.cons_append, commentEnd]
      · exact hsome
      · rintro rest' rfl hcs
        cases cs with
        | nil => cases h
        | cons d cs =>
          obtain ⟨rfl, -⟩ := List.cons.inj hcs
          exact hne cs rfl rfl
    · simp only [List.length_cons]
      omega

theorem cutSlash_break {cs : List Char} (h : (cutSlash cs).piece.Ends) (ds : List Char) :
    cutSlash (cs ++ '\n' :: ds) = cutSlash cs ∧ (cutSlash cs).extra ≤ cs.length := by
  cases cs with
  | nil => exact ⟨rfl, Nat.le_refl 0⟩
  | cons c cs =>
    by_cases hline : c = '/'
    · subst hline
      have hstop := takeWhile_break (p := fun d => decide (d ≠ '\n')) cs ds rfl
      have hle := length_takeWhile_le cs fun d => decide (d ≠ '\n')
      simp only [cutSlash, List.cons_append, hstop, List.length_cons, true_and]
      omega
    · by_cases hblock : c = '*'
      · subst hblock
        cases hend : commentEnd 0 cs with
        | none =>
          simp only [cutSlash, hend] at h
          exact absurd rfl h.2
        | some n =>
          obtain ⟨hsome, hle⟩ := commentEnd_append ('\n' :: ds) hend
          simp only [cutSlash, List.cons_append, hend, hsome, List.length_cons, true_and]
          omega
      · have hother (rest : List Char) : cutSlash (c :: rest) = ⟨.token (.symbol .slash), 0⟩ := by
          unfold cutSlash
          split
          · next heq => exact absurd (List.cons.inj heq).1 hline
          · next heq => exact absurd (List.cons.inj heq).1 hblock
          · rfl
        rw [List.cons_append, hother, hother]
        exact ⟨rfl, Nat.zero_le _⟩

theorem cutString_break {cs : List Char} (h : (cutString cs).piece.Ends) (ds : List Char) :
    cutString (cs ++ '\n' :: ds) = cutString cs ∧ (cutString cs).extra ≤ cs.length := by
  unfold cutString at h ⊢
  rw [List.takeWhile_append, List.dropWhile_append]
  have hsplit := congrArg List.length (List.takeWhile_append_dropWhile (p := (· ≠ '"')) (l := cs))
  cases hdrop : cs.dropWhile (· ≠ '"') with
  | nil =>
    rw [hdrop] at h
    exact absurd rfl h.1
  | cons d rest =>
    rw [hdrop, List.length_append, List.length_cons] at hsplit
    have hsome : ¬ (d :: rest).isEmpty = true := Bool.false_ne_true
    rw [if_neg (by omega), if_neg hsome]
    refine ⟨rfl, ?_⟩
    show (cs.takeWhile (· ≠ '"')).length + 1 ≤ cs.length
    omega

theorem cutNumber_break (c : Char) (cs ds : List Char) :
    cutNumber c (cs ++ '\n' :: ds) = cutNumber c cs ∧ (cutNumber c cs).extra ≤ cs.length := by
  unfold cutNumber
  rw [takeWhile_break (p := Char.isDigit) cs ds rfl, dropWhile_break (p := Char.isDigit) cs ds rfl]
  have hsplit := congrArg List.length
    (List.takeWhile_append_dropWhile (p := Char.isDigit) (l := cs))
  rw [List.length_append] at hsplit
  cases hdrop : cs.dropWhile Char.isDigit with
  | nil =>
    refine ⟨rfl, ?_⟩
    show (cs.takeWhile Char.isDigit).length ≤ cs.length
    omega
  | cons d rest =>
    rw [hdrop, List.length_cons] at hsplit
    by_cases hpoint : d = '.'
    · subst hpoint
      have hle := length_takeWhile_le rest Char.isDigit
      simp only [List.cons_append, takeWhile_break (p := Char.isDigit) rest ds rfl, true_and]
      split
      · dsimp only
        omega
      · dsimp only
        omega
    · rw [List.cons_append]
      split
      · next heq => exact absurd (List.cons.inj heq).1 hpoint
      · split
        · next heq => exact absurd (List.cons.inj heq).1 hpoint
        · refine ⟨rfl, ?_⟩
          show (cs.takeWhile Char.isDigit).length ≤ cs.length
          omega

theorem cutWord_break (c : Char) (cs ds : List Char) :
    cutWord c (cs ++ '\n' :: ds) = cutWord c cs ∧ (cutWord c cs).extra ≤ cs.length := by
  unfold cutWord
  rw [takeWhile_break (p := inWord) cs ds rfl]
  exact ⟨rfl, length_takeWhile_le cs inWord⟩

/-- A piece that ends is the same before a line break, and does not take the break. -/
theorem cut_break {c : Char} {cs : List Char} (h : (cut c cs).piece.Ends) (ds : List Char) :
    cut c (cs ++ '\n' :: ds) = cut c cs ∧ (cut c cs).extra ≤ cs.length := by
  unfold cut at h ⊢
  cases hsingle : single? c with
  | some s => exact ⟨rfl, Nat.zero_le _⟩
  | none =>
    rw [hsingle] at h
    cases hprolonged : prolonged? c with
    | some symbols =>
      cases cs with
      | nil => exact ⟨rfl, Nat.le_refl 0⟩
      | cons d cs =>
        refine ⟨rfl, ?_⟩
        show (ite (some d = some '=') _ _ : Cut).extra ≤ cs.length + 1
        split
        · exact Nat.le_add_left 1 _
        · exact Nat.zero_le _
    | none =>
      rw [hprolonged] at h
      dsimp only at h ⊢
      by_cases hblank : isBlank c = true
      · simp only [if_pos hblank]
        exact ⟨trivial, Nat.zero_le _⟩
      simp only [if_neg hblank] at h ⊢
      by_cases hslash : c = '/'
      · simp only [if_pos hslash] at h ⊢
        exact cutSlash_break h ds
      simp only [if_neg hslash] at h ⊢
      by_cases hquote : c = '"'
      · simp only [if_pos hquote] at h ⊢
        exact cutString_break h ds
      simp only [if_neg hquote] at h ⊢
      by_cases hdigit : c.isDigit = true
      · simp only [if_pos hdigit]
        exact cutNumber_break c cs ds
      simp only [if_neg hdigit]
      by_cases hword : startsWord c = true
      · simp only [if_pos hword]
        exact cutWord_break c cs ds
      · simp only [if_neg hword]
        exact ⟨trivial, Nat.zero_le _⟩

/-- An item that ends where it should: neither a string nor a comment is left open. -/
def Item.Closed : Item → Prop
  | .token _ | .fault (.unexpectedCharacter _) _ => True
  | .fault .unterminatedString _ | .fault .unterminatedComment _ => False

instance : DecidablePred Item.Closed
  | .token _ | .fault (.unexpectedCharacter _) _ => .isTrue trivial
  | .fault .unterminatedString _ | .fault .unterminatedComment _ => .isFalse not_false

theorem ends_of_closed {piece : Piece} (lexeme : List Char) (start stop : Nat)
    (h : ∀ item, piece.item? lexeme start stop = some item → item.Closed) : piece.Ends := by
  constructor
  · rintro rfl
    exact h _ rfl
  · rintro rfl
    exact h _ rfl

/-- Reading goes on behind the line break as if the second text were read for itself. -/
theorem scanFrom_break (offset : Nat) (items : Array Item) (cs ds : List Char)
    (h : ∀ item ∈ (scanFrom offset items cs).items, item.Closed) :
    scanFrom offset items (cs ++ '\n' :: ds) =
      scanFrom ((scanFrom offset items cs).finish + 1) (scanFrom offset items cs).items ds := by
  fun_induction scanFrom offset items cs with
  | case1 offset items =>
    rw [List.nil_append, scanFrom]
    rfl
  | case2 offset items c cs head lexeme stop items' ih =>
    have hends : (cut c cs).piece.Ends := by
      refine ends_of_closed lexeme offset stop fun item hitem => h item (mem_scanFrom _ _ _ ?_)
      simp only [items', head]
      rw [hitem]
      exact Array.mem_push_self
    obtain ⟨hcut, hextra⟩ := cut_break hends ds
    rw [← ih h, List.cons_append, scanFrom, hcut, List.take_append_of_le_length hextra,
      List.drop_append_of_le_length hextra]

/-! ## Whole texts -/

variable {source : String}

theorem finish_scan (source : String) : (scan source).finish = source.utf8ByteSize := by
  rw [scan, finish_scanFrom, Text.width_toList, Nat.zero_add]

/-- An item that is no fault. -/
def Item.Sound : Item → Prop
  | .token _ => True
  | .fault .. => False

theorem Item.Sound.closed {item : Item} (h : item.Sound) : item.Closed := by
  cases item with
  | token t => trivial
  | fault error span => exact h.elim

theorem sound_of_faults (h : (scan source).faults = #[]) : ∀ item ∈ (scan source).items,
    item.Sound := by
  intro item hitem
  cases item with
  | token t => trivial
  | fault error span =>
    have hmem : faultDiagnostic error span ∈ (scan source).faults :=
      Array.mem_filterMap.mpr ⟨.fault error span, hitem, rfl⟩
    rw [h] at hmem
    exact Array.not_mem_empty _ hmem

theorem faults_of_sound {s : Scan} (h : ∀ item ∈ s.items, item.Sound) : s.faults = #[] := by
  refine Array.eq_empty_iff_forall_not_mem.mpr fun d hd => ?_
  obtain ⟨item, hitem, hfault⟩ := Array.mem_filterMap.mp hd
  cases item with
  | token t => cases hfault
  | fault error span => exact h _ hitem

/-- Two texts with a line break between them. -/
def joined (first second : String) : String := first ++ "\n" ++ second

/-- How many bytes further on the second of two texts stands. -/
def offsetAfter (first : String) : Nat := first.utf8ByteSize + 1

variable {first second : String}

theorem scan_joined_of_closed (h : ∀ item ∈ (scan first).items, item.Closed) :
    scan (joined first second) =
      ⟨(scan first).items ++ (scan second).items.map (Item.later (offsetAfter first)),
        (scan second).finish + offsetAfter first⟩ := by
  have hbreak := scanFrom_break 0 #[] first.toList second.toList h
  have hlater := scanFrom_later (offsetAfter first) (scan first).items 0 #[] second.toList
  have hfinish : (scanFrom 0 #[] first.toList).finish + 1 = 0 + offsetAfter first := by
    rw [Nat.zero_add]
    exact congrArg (· + 1) (finish_scan first)
  rw [hfinish] at hbreak
  rw [Array.map_empty, Array.append_empty] at hlater
  have htext : (joined first second).toList = first.toList ++ '\n' :: second.toList := by
    rw [joined, String.toList_append, String.toList_append, List.append_assoc]
    rfl
  rw [scan, htext]
  exact hbreak.trans hlater

theorem scan_joined (h : (scan first).faults = #[]) :
    scan (joined first second) =
      ⟨(scan first).items ++ (scan second).items.map (Item.later (offsetAfter first)),
        (scan second).finish + offsetAfter first⟩ :=
  scan_joined_of_closed fun item hitem => (sound_of_faults h item hitem).closed

/-- The tokens of two texts in which nothing is wrong. -/
theorem tokens_joined (h : (scan first).faults = #[]) :
    (scan (joined first second)).tokens.tokens = (scan first).tokens.tokens ++
      (scan second).tokens.tokens.map (Token.respan (Span.later (offsetAfter first))) := by
  rw [scan_joined h]
  unfold Scan.tokens
  dsimp only
  rw [Array.toList_append, List.filterMap_append, Array.toList_map, List.filterMap_map,
    List.map_filterMap]
  congr 2
  funext item
  cases item <;> rfl

theorem faults_joined (h : (scan first).faults = #[]) (h' : (scan second).faults = #[]) :
    (scan (joined first second)).faults = #[] := by
  rw [scan_joined h]
  refine faults_of_sound fun item hitem => ?_
  rcases Array.mem_append.mp hitem with hitem | hitem
  · exact sound_of_faults h item hitem
  · obtain ⟨old, hold, rfl⟩ := Array.mem_map.mp hitem
    have hsound := sound_of_faults h' old hold
    cases old with
    | token t => trivial
    | fault error span => exact hsound

/-! ## All that reading yields -/

/-- What reading yields: an item, or the end of the text. -/
inductive Yield where
  | item (item : Item)
  | finish (span : Span)
deriving DecidableEq

/-- What reading yields so many bytes further on. -/
def Yield.later (k : Nat) : Yield → Yield
  | .item i => .item (i.later k)
  | .finish span => .finish (span.later k)

/-- What the reading of a text yields one after the other: its items, and behind them its end. -/
def Scan.yields (s : Scan) : List Yield := s.items.toList.map .item ++ [.finish (.point s.finish)]

theorem yields_append (before : Array Item) (s : Scan) (k : Nat) :
    (Scan.mk (before ++ s.items.map (Item.later k)) (s.finish + k)).yields =
      before.toList.map .item ++ s.yields.map (Yield.later k) := by
  have hitems : (s.items.toList.map (Item.later k)).map Yield.item =
      (s.items.toList.map .item).map (Yield.later k) := by
    simp only [List.map_map]
    rfl
  unfold Scan.yields
  simp only [Array.toList_append, Array.toList_map, List.map_append, List.append_assoc, hitems]
  rfl

/-- **Reading is compositional at line breaks.** If no string and no comment of the first text is left
open, then the two texts with a line break between them yield what the first one yields but its end,
and then all that the second one yields, faults and the end included, further on by the first text and
the break. -/
theorem yields_at_line_break (h : ∀ item ∈ (scan first).items, item.Closed) :
    (scan (first ++ "\n" ++ second)).yields =
      (scan first).yields.dropLast ++
        (scan second).yields.map (Yield.later (first.utf8ByteSize + 1)) := by
  have hfirst : (scan first).yields.dropLast = (scan first).items.toList.map .item :=
    List.dropLast_concat
  have hjoined : scan (first ++ "\n" ++ second) = _ := scan_joined_of_closed h
  rw [hjoined, hfirst, yields_append]
  rfl

/-- The first text has a stray character and ends in a comment, the second one leaves a string
open. -/
theorem yields_at_line_break_comment :
    let first := "é <// \"end"
    let second := "= 1.\"é"
    (∀ item ∈ (scan first).items, item.Closed) ∧
      (scan (first ++ "\n" ++ second)).yields =
        (scan first).yields.dropLast ++ (scan second).yields.map (Yield.later (11 + 1)) ∧
      (scan (first ++ "\n" ++ second)).faults =
        #[faultDiagnostic (.unexpectedCharacter 'é') ⟨0, 2⟩,
          faultDiagnostic .unterminatedString ⟨19, 19⟩] := by
  intro first second
  have hclosed : ∀ item ∈ (scan first).items, item.Closed := by decide +kernel
  exact ⟨hclosed, yields_at_line_break hclosed, by decide +kernel⟩

end Lexer
end Lox
