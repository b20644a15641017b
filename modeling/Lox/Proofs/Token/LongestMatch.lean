import Lox.Proofs.Token.Stretches
import Lox.Token.Listing

/-! # A text is read by longest match

Reading covers a text as the lexical grammar says, there is only one such cover,
and every token is a slice of the text. -/

namespace Lox

/-- A token is a slice of a source text, where its span says and between two
characters, and no longer lexeme stands there. -/
def Token.StandsIn (t : Token) (source : String) : Prop :=
  ∃ before after : String, source = before ++ t.lexeme ++ after ∧
    before.utf8ByteSize = t.span.start ∧ (before ++ t.lexeme).utf8ByteSize = t.span.stop ∧
    t.lexeme ≠ "" ∧ Lexer.Lexeme t.kind t.lexeme.toList ∧
    Lexer.Longest t.lexeme.toList after.toList

namespace Lexer

/-- Where an item stands. -/
def Item.span : Item → Span
  | .token t => t.span
  | .fault _ span => span

/-- An item is over before the next one starts, and starts before it. -/
def Item.Precedes (a b : Item) : Prop := a.span.stop ≤ b.span.start ∧ a.span.start < b.span.start

/-! ## Reading covers a text -/

variable {offset : Nat} {piece : Piece} {kind : TokenKind} {text rest cs : List Char}
  {items more : List Item}

theorem Lexeme.ne_nil (h : Lexeme kind text) : text ≠ [] := by
  rintro rfl
  generalize htext : [] = text at h
  cases h with
  | symbol s => cases s <;> cases htext
  | string => cases htext
  | whole hsome => exact hsome htext.symm
  | fraction => simp at htext
  | keyword k => cases k <;> cases htext
  | identifier => cases htext

theorem Separator.ne_nil (h : Separator text rest) : text ≠ [] := by
  cases h <;> exact nofun

theorem Stands.ne_nil (h : Stands piece text rest) : text ≠ [] := by
  cases piece with
  | blank => exact Separator.ne_nil h
  | token kind => exact h.1.ne_nil
  | unexpected c =>
    obtain ⟨rfl, -⟩ := h
    exact nofun
  | openString =>
    obtain ⟨⟨inside, -, rfl⟩, -⟩ := h
    exact nofun
  | openComment =>
    obtain ⟨⟨inside, -, rfl⟩, -⟩ := h
    exact nofun

theorem items_of_covered_nil (h : Covered offset [] items) : items = [] := by
  generalize htext : [] = text at h
  cases h with
  | done => rfl
  | separator hpart => exact absurd (List.append_eq_nil_iff.mp htext.symm).1 hpart.ne_nil
  | token hpart => exact absurd (List.append_eq_nil_iff.mp htext.symm).1 hpart.ne_nil
  | unexpected => cases htext
  | openString => cases htext
  | openComment => cases htext

/-- What stands at the head of a covered text's front covers it further. -/
theorem Covered.of_stands (h : Stands piece text rest)
    (hrest : Covered (offset + Text.width text) rest items) :
    Covered offset (text ++ rest)
      ((piece.item? text offset (offset + Text.width text)).toList ++ items) := by
  cases piece with
  | blank => exact .separator h hrest
  | token kind => exact .token h.1 h.2 hrest
  | unexpected c =>
    obtain ⟨rfl, hblank, hnone⟩ := h
    exact .unexpected hblank hnone hrest
  | openString =>
    obtain ⟨⟨inside, hinside, rfl⟩, rfl⟩ := h
    rw [items_of_covered_nil hrest, List.append_nil]
    exact .openString hinside
  | openComment =>
    obtain ⟨⟨inside, hinside, rfl⟩, rfl⟩ := h
    rw [items_of_covered_nil hrest, List.append_nil]
    exact .openComment hinside

theorem covered_scanFrom (offset : Nat) (items : Array Item) (cs : List Char) :
    ∃ more, (scanFrom offset items cs).items.toList = items.toList ++ more ∧
      Covered offset cs more := by
  fun_induction scanFrom offset items cs with
  | case1 => exact ⟨[], (List.append_nil _).symm, .done⟩
  | case2 offset items c cs head lexeme stop items' ih =>
    obtain ⟨more, hmore, hcovered⟩ := ih
    have hstop : stop = offset + Text.width lexeme := Text.widthFrom_eq ..
    have hstands : Stands head.piece lexeme (cs.drop head.extra) := stands_cut c cs
    refine ⟨(head.piece.item? lexeme offset stop).toList ++ more, ?_, ?_⟩
    · rw [hmore, ← List.append_assoc]
      congr 1
      simp only [items']
      cases head.piece.item? lexeme offset stop with
      | none => simp
      | some item => simp
    · rw [hstop] at hcovered ⊢
      have hall := Covered.of_stands hstands hcovered
      rwa [List.cons_append, List.take_append_drop] at hall

/-- Reading goes past what stands at the head of a text. -/
theorem scanFrom_stands (offset : Nat) (piece : Piece) (h : Stands piece text rest)
    (items : Array Item) :
    scanFrom offset items (text ++ rest) = scanFrom (offset + Text.width text)
      (items ++ (piece.item? text offset (offset + Text.width text)).toList) rest := by
  obtain ⟨c, body, rfl⟩ := List.exists_cons_of_ne_nil h.ne_nil
  rw [List.cons_append, scanFrom, cut_of_stands h, List.take_left, List.drop_left,
    Text.widthFrom_eq]
  congr 1
  cases piece.item? (c :: body) offset (offset + Text.width (c :: body)) with
  | none => simp
  | some item => simp

theorem scanFrom_of_covered (h : Covered offset cs more) (items : Array Item) :
    (scanFrom offset items cs).items = items ++ more := by
  induction h generalizing items with
  | done => simp [scanFrom]
  | separator hpart _ ih =>
    rw [scanFrom_stands _ .blank hpart, ih]
    simp [Piece.item?]
  | token hpart hlongest _ ih =>
    rw [scanFrom_stands _ (.token _) ⟨hpart, hlongest⟩, ih]
    simp [Piece.item?]
  | @unexpected offset c rest items' hblank hnone _ ih =>
    rw [← List.singleton_append, scanFrom_stands _ (.unexpected c) ⟨rfl, hblank, hnone⟩]
    refine (ih _).trans ?_
    simp [Piece.item?]
  | @openString offset inside hopen =>
    have hstands : Stands .openString ('"' :: inside) [] := ⟨⟨inside, hopen, rfl⟩, rfl⟩
    have hscan := scanFrom_stands offset _ hstands items
    rw [List.append_nil] at hscan
    rw [hscan, scanFrom]
    rfl
  | @openComment offset inside hopen =>
    have hstands : Stands .openComment ('/' :: '*' :: inside) [] := ⟨⟨inside, hopen, rfl⟩, rfl⟩
    have hscan := scanFrom_stands offset _ hstands items
    rw [List.append_nil] at hscan
    rw [hscan, scanFrom]
    rfl

/-- There is one cover of a text, and it is what reading yields. -/
theorem covered_iff (source : String) (items : List Item) :
    Covered 0 source.toList items ↔ items = (scan source).items.toList := by
  obtain ⟨more, hmore, hcovered⟩ := covered_scanFrom 0 #[] source.toList
  have hitems : (scan source).items.toList = more := by simpa [scan] using hmore
  constructor
  · intro h
    rw [scan, scanFrom_of_covered h]
    simp
  · rintro rfl
    rwa [hitems]

/-! ## Where the items stand -/

theorem width_pos (h : cs ≠ []) : 0 < Text.width cs := by
  obtain ⟨c, cs, rfl⟩ := List.exists_cons_of_ne_nil h
  have hpos := c.utf8Size_pos
  rw [Text.width_cons]
  omega

theorem Covered.within (h : Covered offset cs items) : ∀ item ∈ items,
    offset ≤ item.span.start ∧ item.span.stop ≤ offset + Text.width cs := by
  induction h with
  | done => exact nofun
  | separator hpart _ ih =>
    intro item hitem
    have hin := ih item hitem
    rw [Text.width_append]
    omega
  | token hpart _ _ ih =>
    intro item hitem
    rw [Text.width_append]
    rcases List.mem_cons.mp hitem with rfl | hitem
    · simp only [Item.span]
      omega
    · have hin := ih item hitem
      omega
  | unexpected _ _ _ ih =>
    intro item hitem
    rw [Text.width_cons]
    rcases List.mem_cons.mp hitem with rfl | hitem
    · simp only [Item.span]
      omega
    · have hin := ih item hitem
      omega
  | openString =>
    intro item hitem
    obtain rfl := List.mem_singleton.mp hitem
    simp only [Item.span, Span.point]
    omega
  | openComment =>
    intro item hitem
    obtain rfl := List.mem_singleton.mp hitem
    have hslash : '/'.utf8Size = 1 := rfl
    have hstar : '*'.utf8Size = 1 := rfl
    simp only [Item.span, Text.width_cons]
    omega

/-- The items stand one behind the other. -/
theorem Covered.pairwise (h : Covered offset cs items) : items.Pairwise Item.Precedes := by
  induction h with
  | done => exact .nil
  | separator _ _ ih => exact ih
  | @token offset _ _ _ _ hpart _ hrest ih =>
    refine .cons (fun item hitem => ?_) ih
    have hin := hrest.within item hitem
    have hpos := width_pos hpart.ne_nil
    have hstart : offset < item.span.start := by omega
    exact ⟨hin.1, hstart⟩
  | @unexpected offset c _ _ _ _ hrest ih =>
    refine .cons (fun item hitem => ?_) ih
    have hin := hrest.within item hitem
    have hpos := c.utf8Size_pos
    have hstart : offset < item.span.start := by omega
    exact ⟨hin.1, hstart⟩
  | openString => exact .cons nofun .nil
  | openComment => exact .cons nofun .nil

/-- Every token of a covered text that stands behind another text is a slice of both. -/
theorem Covered.standsIn {t : Token} (h : Covered offset cs items) (ht : .token t ∈ items)
    (before : List Char) (hbefore : Text.width before = offset) :
    t.StandsIn (String.ofList (before ++ cs)) := by
  induction h generalizing before with
  | done => cases ht
  | @separator offset text rest items hpart _ ih =>
    rw [← List.append_assoc]
    exact ih ht (before ++ text) (by rw [Text.width_append, hbefore])
  | @token offset kind text rest items hpart hlongest _ ih =>
    rcases List.mem_cons.mp ht with heq | ht
    · obtain rfl := Item.token.inj heq
      refine ⟨String.ofList before, String.ofList rest, ?_, ?_, ?_, ?_, ?_, ?_⟩
      · rw [← List.append_assoc, String.ofList_append, String.ofList_append]
      · rw [← Text.width_ofList, hbefore]
      · rw [← String.ofList_append, ← Text.width_ofList, Text.width_append, hbefore]
      · exact fun hempty => hpart.ne_nil (String.ofList_injective hempty)
      · rwa [String.toList_ofList]
      · rwa [String.toList_ofList, String.toList_ofList]
    · rw [← List.append_assoc]
      exact ih ht (before ++ text) (by rw [Text.width_append, hbefore])
  | @unexpected offset c rest items _ _ _ ih =>
    rcases List.mem_cons.mp ht with heq | ht
    · cases heq
    · have hall := ih ht (before ++ [c]) (by simp [Text.width_append, hbefore])
      rwa [List.append_assoc] at hall
  | openString => simp at ht
  | openComment => simp at ht

theorem mem_tokens {s : Scan} {t : Token} : t ∈ s.tokens.tokens ↔ .token t ∈ s.items.toList := by
  unfold Scan.tokens
  rw [List.mem_filterMap]
  constructor
  · rintro ⟨item, hitem, htoken⟩
    cases item with
    | token u =>
      obtain rfl := Option.some.inj htoken
      exact hitem
    | fault => cases htoken
  · exact fun h => ⟨.token t, h, rfl⟩

/-- The tokens that are read from a text are slices of it. -/
theorem standsIn_of_mem {source : String} {t : Token} (h : t ∈ (scan source).tokens.tokens) :
    t.StandsIn source := by
  have hslice := ((covered_iff source _).mpr rfl).standsIn (mem_tokens.mp h) [] rfl
  rwa [List.nil_append, String.ofList_toList] at hslice

/-- What the lexical grammar says of a text is what is read from it, from its
start to its end: the items of the only cover it has, which stand one behind the
other, tokens that are slices of the text, and the end of the input behind all. -/
theorem scan_longest_match (source : String) :
    (∀ items, Covered 0 source.toList items ↔ items = (scan source).items.toList) ∧
    (scan source).items.toList.Pairwise Item.Precedes ∧
    (∀ item ∈ (scan source).items.toList, item.span.stop ≤ source.utf8ByteSize) ∧
    (∀ t ∈ (scan source).tokens.tokens, t.StandsIn source) ∧
    (scan source).tokens.toJson =
      .array ((scan source).tokens.tokens.map Token.toJson ++
        [Listing.entry (.string Listing.endName) "" (.point source.utf8ByteSize)]) := by
  have hcovered := (covered_iff source _).mpr rfl
  refine ⟨covered_iff source, hcovered.pairwise, fun item hitem => ?_, fun _ => standsIn_of_mem,
    ?_⟩
  · have hin := (hcovered.within item hitem).2
    rwa [Text.width_toList, Nat.zero_add] at hin
  · have hfinish : (scan source).tokens.finish = source.utf8ByteSize := finish_scan source
    rw [TokenStream.toJson, hfinish]

theorem scan_longest_match_stray :
    let source := "1.é\"ab\"/*"
    (scan source).items.toList.map Item.span = [⟨0, 1⟩, ⟨1, 2⟩, ⟨2, 4⟩, ⟨4, 8⟩, ⟨8, 10⟩] ∧
      ∃ t ∈ (scan source).tokens.tokens, t.kind = .string "ab" ∧ t.StandsIn source := by
  intro source
  refine ⟨by decide +kernel, ⟨.string "ab", "\"ab\"", ⟨4, 8⟩⟩, by decide +kernel, rfl, ?_⟩
  exact (scan_longest_match source).2.2.2.1 _ (by decide +kernel)

end Lexer
end Lox
