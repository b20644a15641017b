import Lox.Proofs.Token.Slices

/-! # Texts rebuilt from lexemes

A blank ends every token but a string, and a string ends at its own quote. So
lexemes with blanks between them are read as the tokens they are lexemes of,
whatever stood between these tokens before. -/

namespace Lox

/-- A token without its place. -/
def Token.placeless (t : Token) : Token := t.respan fun _ => .point 0

namespace Lexer

/-- What reading yields, without its place. -/
def Yield.placeless : Yield → Yield
  | .item (.token t) => .item (.token t.placeless)
  | .item (.fault error _) => .item (.fault error (.point 0))
  | .finish _ => .finish (.point 0)

/-- The text of what reading yields: a token has its lexeme, the end has none. -/
def Yield.lexeme : Yield → String
  | .item (.token t) => t.lexeme
  | .item (.fault ..) | .finish _ => ""

/-! ## A blank ends a lexeme -/

variable {kind : TokenKind} {c : Char} {text rest cs : List Char}

/-- Blanks stand in strings only. -/
theorem Lexeme.blank_not_mem (h : Lexeme kind (c :: cs)) (hquote : c ≠ '"') : ' ' ∉ c :: cs := by
  rcases h.head with ⟨s, -, htext⟩ | ⟨hc, -⟩ | ⟨hc, digits, hdigits, hcs⟩ | ⟨hc, hcs, -⟩
  · rw [← htext]
    cases s <;> decide
  · exact absurd hc hquote
  · have hblank : ' ' ∉ c :: digits := by
      intro hmem
      rcases List.mem_cons.mp hmem with rfl | hmem
      · cases hc
      · cases hdigits _ hmem
    rcases hcs with ⟨rfl, -⟩ | ⟨behind, -, hbehind, rfl, -⟩
    · exact hblank
    · have hbehind : ' ' ∉ '.' :: behind := by
        intro hmem
        cases hbehind _ (List.mem_of_ne_of_mem (by decide) hmem)
      exact List.not_mem_append hblank hbehind
  · intro hmem
    rcases List.mem_cons.mp hmem with rfl | hmem
    · cases hc
    · cases hcs _ hmem

/-- No string goes on behind its closing quote. -/
theorem Lexeme.not_beyond {inside more : List Char} (hmore : more ≠ []) :
    ¬ Lexeme kind ('"' :: inside ++ '"' :: more) := by
  intro h
  obtain ⟨inside', hinside', hcs, -⟩ := h.of_quote
  have hfront : inside' = inside ++ '"' :: more.dropLast := by
    have hdrop : (inside ++ '"' :: more).dropLast = inside' := by
      rw [← List.append_eq, hcs, List.dropLast_concat]
    rw [← hdrop, List.dropLast_append_of_ne_nil (List.cons_ne_nil _ _),
      List.dropLast_cons_of_ne_nil hmore]
  exact hinside' (hfront ▸ List.mem_append_right inside List.mem_cons_self)

/-- A lexeme stands alone before a blank and at the end of a text. -/
theorem Lexeme.longest (h : Lexeme kind text) (hrest : ∀ d ∈ rest.head?, d = ' ') :
    Longest text rest := by
  intro longer hfront hlonger
  -- What is longer goes on with the blank.
  obtain ⟨more, rfl⟩ : ∃ more, longer = text ++ ' ' :: more := by
    have htext : text <+: longer :=
      List.prefix_of_prefix_length_le (List.prefix_append text rest) hfront hlonger.le
    obtain ⟨behind, rfl⟩ := htext
    obtain ⟨after, hafter⟩ := (List.prefix_append_right_inj text).mp hfront
    cases behind with
    | nil => simp at hlonger
    | cons d more =>
      obtain rfl := hrest d (by rw [← hafter]; rfl)
      exact ⟨more, rfl⟩
  have hblank : ' ' ∈ text ++ ' ' :: more := List.mem_append_right text List.mem_cons_self
  refine ⟨fun other hother => ?_, fun heq => ?_, fun heq => ?_⟩
  · obtain ⟨c, cs, rfl⟩ := List.exists_cons_of_ne_nil h.ne_nil
    by_cases hquote : c = '"'
    · subst hquote
      obtain ⟨inside, -, rfl, -⟩ := h.of_quote
      rw [List.cons_append, List.append_assoc] at hother
      exact Lexeme.not_beyond (List.cons_ne_nil ' ' more) hother
    · exact hother.blank_not_mem hquote hblank
  · rw [heq] at hblank
    exact absurd hblank (by decide)
  · rw [heq] at hblank
    exact absurd hblank (by decide)

/-! ## Lexemes that are whole texts -/

variable {ts : List Token}

/-- A text that tokens cover is read as these tokens. -/
theorem scan_of_covered {source : String} (h : Covered 0 source.toList (tokenItems ts)) :
    (scan source).faults = #[] ∧ (scan source).tokens.tokens = ts := by
  have hitems := (covered_iff source _).mp h
  have hfaults : (scan source).faults = #[] := by
    refine faults_of_sound fun item hitem => ?_
    rw [← Array.mem_toList_iff, ← hitems] at hitem
    obtain ⟨t, -, rfl⟩ := List.mem_map.mp hitem
    trivial
  refine ⟨hfaults, List.map_injective_iff.mpr (fun _ _ => Item.token.inj) ?_⟩
  exact (items_of_faults hfaults).symm.trans hitems.symm

/-- A symbol with which no longer one starts stands alone before everything. -/
theorem longest_of_single {c : Char} {s : Symbol} (hc : single? c = some s) : Longest [c] rest := by
  intro longer hfront hlonger
  obtain ⟨after, hafter⟩ := hfront
  cases longer with
  | nil => simp at hlonger
  | cons d more =>
    obtain rfl : d = c := (List.cons.inj hafter).1
    refine ⟨fun kind hlexeme => ?_, ?_, ?_⟩
    · obtain rfl := (hlexeme.of_single hc).2
      simp at hlonger
    · intro heq
      obtain rfl := (List.cons.inj heq).1
      cases hc
    · intro heq
      obtain rfl := (List.cons.inj heq).1
      cases hc

theorem covered_lexeme (offset : Nat) (h : Lexeme kind text) :
    Covered offset text
      [.token ⟨kind, String.ofList text, ⟨offset, offset + Text.width text⟩⟩] := by
  have halone : Longest text [] := h.longest nofun
  have hcovered := Covered.token h halone (@Covered.done (offset + Text.width text))
  rwa [List.append_nil] at hcovered

/-- A lexeme that is a whole text. -/
theorem scan_lexeme (h : Lexeme kind text) :
    (scan (String.ofList text)).faults = #[] ∧
      (scan (String.ofList text)).tokens.tokens =
        [⟨kind, String.ofList text, ⟨0, 0 + Text.width text⟩⟩] := by
  refine scan_of_covered ?_
  rw [String.toList_ofList]
  exact covered_lexeme 0 h

/-- A minus and a lexeme. -/
theorem scan_minus_lexeme (h : Lexeme kind text) :
    (scan (String.ofList ('-' :: text))).faults = #[] ∧
      (scan (String.ofList ('-' :: text))).tokens.tokens =
        [⟨.symbol .minus, "-", ⟨0, 1⟩⟩, ⟨kind, String.ofList text, ⟨1, 1 + Text.width text⟩⟩] := by
  refine scan_of_covered ?_
  rw [String.toList_ofList]
  exact .token (.symbol .minus) (longest_of_single rfl) (covered_lexeme 1 h)

/-! ## Lexemes side by side -/

variable {ending : List Char}

/-- What stands behind the first of some lexemes with blanks between them. -/
def behindFirst (ts : List Token) : List Char := ts.flatMap fun t => ' ' :: t.lexeme.toList

theorem head_behindFirst (hending : ending ∈ [[], [' ']]) :
    ∀ d ∈ (behindFirst ts ++ ending).head?, d = ' ' := by
  cases ts with
  | nil =>
    rcases List.mem_pair.mp hending with rfl | rfl
    · exact nofun
    · exact fun d hd => (Option.some.inj hd).symm
  | cons t ts => exact fun d hd => (Option.some.inj hd).symm

/-- A lexeme is read as the token it is a lexeme of, and what stands behind it after that. -/
theorem Covered.lexeme {t : Token} {offset : Nat} {items : List Item}
    (ht : Lexeme t.kind t.lexeme.toList) (hrest : ∀ d ∈ rest.head?, d = ' ')
    (h : Covered (offset + Text.width t.lexeme.toList) rest items) :
    ∃ u : Token, u.placeless = t.placeless ∧
      Covered offset (t.lexeme.toList ++ rest) (.token u :: items) := by
  have hcovered := Covered.token ht (ht.longest hrest) h
  rw [String.ofList_toList] at hcovered
  exact ⟨⟨t.kind, t.lexeme, ⟨offset, offset + Text.width t.lexeme.toList⟩⟩, rfl, hcovered⟩

theorem covered_behindFirst (hending : ending ∈ [[], [' ']])
    (hts : ∀ t ∈ ts, Lexeme t.kind t.lexeme.toList) (offset : Nat) :
    ∃ us, us.map Token.placeless = ts.map Token.placeless ∧
      Covered offset (behindFirst ts ++ ending) (tokenItems us) := by
  induction ts generalizing offset with
  | nil =>
    refine ⟨[], rfl, ?_⟩
    rcases List.mem_pair.mp hending with rfl | rfl
    · exact .done
    · have hblank : Covered offset ([' '] ++ []) [] := .separator (.space (by decide)) .done
      exact hblank
  | cons t ts ih =>
    obtain ⟨ht, hts⟩ := List.forall_mem_cons.mp hts
    obtain ⟨us, hus, hrest⟩ := ih hts (offset + Text.width [' '] + Text.width t.lexeme.toList)
    obtain ⟨u, hu, hcovered⟩ := Covered.lexeme ht (head_behindFirst hending) hrest
    refine ⟨u :: us, congrArg₂ List.cons hu hus, ?_⟩
    have htext : behindFirst (t :: ts) ++ ending =
        [' '] ++ (t.lexeme.toList ++ (behindFirst ts ++ ending)) := by
      simp [behindFirst]
    rw [htext]
    exact .separator (.space (by decide)) hcovered

/-- Texts with blanks between them. -/
theorem toList_spaced (first : String) (texts : List String) :
    (" ".intercalate (first :: texts)).toList =
      first.toList ++ texts.flatMap fun text => ' ' :: text.toList := by
  rw [String.toList_intercalate]
  induction texts generalizing first with
  | nil => simp [List.intercalate]
  | cons text texts ih =>
    rw [List.map_cons, List.map_cons, List.intercalate_cons_cons, ← List.map_cons, ih]
    simp

/-- Lexemes of tokens, with blanks between them and maybe one more behind them, are read as these
tokens. -/
theorem scan_spaced {last : List String} (hts : ∀ t ∈ ts, Lexeme t.kind t.lexeme.toList)
    (hlast : last ∈ [[], [""]]) :
    let rebuilt := " ".intercalate (ts.map Token.lexeme ++ last)
    (scan rebuilt).faults = #[] ∧
      (scan rebuilt).tokens.tokens.map Token.placeless = ts.map Token.placeless := by
  intro rebuilt
  obtain ⟨us, hus, hcovered⟩ : ∃ us, us.map Token.placeless = ts.map Token.placeless ∧
      Covered 0 rebuilt.toList (tokenItems us) := by
    cases ts with
    | nil =>
      have hempty : rebuilt.toList = [] := by
        rcases List.mem_pair.mp hlast with rfl | rfl <;> rfl
      exact ⟨[], rfl, hempty ▸ .done⟩
    | cons t ts =>
      obtain ⟨ht, hts⟩ := List.forall_mem_cons.mp hts
      have hending : (last.flatMap fun text => ' ' :: text.toList) ∈ [[], [' ']] := by
        rcases List.mem_pair.mp hlast with rfl | rfl <;> simp
      have htext : rebuilt.toList = t.lexeme.toList ++
          (behindFirst ts ++ last.flatMap fun text => ' ' :: text.toList) := by
        simp only [rebuilt, List.map_cons, List.cons_append, toList_spaced, List.flatMap_append,
          behindFirst, List.flatMap_map]
      obtain ⟨us, hus, hrest⟩ :=
        covered_behindFirst hending hts (0 + Text.width t.lexeme.toList)
      obtain ⟨u, hu, hcovered⟩ := Covered.lexeme ht (head_behindFirst hending) hrest
      exact ⟨u :: us, congrArg₂ List.cons hu hus, htext ▸ hcovered⟩
  obtain ⟨hfaults, htokens⟩ := scan_of_covered hcovered
  exact ⟨hfaults, htokens ▸ hus⟩

/-! ## Whole texts -/

variable {source : String}

theorem yields_of_faults (h : (scan source).faults = #[]) :
    (scan source).yields =
      ((scan source).tokens.tokens.map fun t => .item (.token t)) ++
        [.finish (.point (scan source).finish)] := by
  rw [Scan.yields, items_of_faults h, tokenItems, List.map_map]
  rfl

/-- **Reading survives the rebuilding of a text from its lexemes.** Where nothing is wrong with a text,
the lexemes of its tokens with single spaces between them are read without a fault as the same
kinds with the same values and lexemes, up to the end of the text; whether the end, which has no
text, is set behind a space of its own or not. -/
theorem yields_rebuilt (h : (scan source).faults = #[]) :
    let texts := (scan source).tokens.tokens.map Token.lexeme
    ∀ rebuilt ∈ [" ".intercalate texts,
        " ".intercalate ((scan source).yields.map Yield.lexeme)],
      (scan rebuilt).faults = #[] ∧
        (scan rebuilt).yields.map Yield.placeless = (scan source).yields.map Yield.placeless := by
  intro texts rebuilt hrebuilt
  have hts : ∀ t ∈ (scan source).tokens.tokens, Lexeme t.kind t.lexeme.toList := by
    intro t ht
    obtain ⟨-, -, -, -, -, -, hlexeme, -⟩ := standsIn_of_mem ht
    exact hlexeme
  obtain ⟨last, hlast, rfl⟩ : ∃ last ∈ [[], [""]], rebuilt = " ".intercalate (texts ++ last) := by
    rcases List.mem_pair.mp hrebuilt with rfl | rfl
    · exact ⟨[], List.mem_cons_self, by rw [List.append_nil]⟩
    · refine ⟨[""], by simp, ?_⟩
      rw [yields_of_faults h, List.map_append, List.map_map]
      rfl
  obtain ⟨hfaults, htokens⟩ := scan_spaced hts hlast
  refine ⟨hfaults, ?_⟩
  have hyields (ts : List Token) : (ts.map fun t => Yield.item (.token t)).map Yield.placeless =
      (ts.map Token.placeless).map fun t => .item (.token t) := by
    simp only [List.map_map]
    rfl
  rw [yields_of_faults hfaults, yields_of_faults h, List.map_append, List.map_append, hyields,
    hyields, htokens]
  rfl

/-- A string that holds a comment, a quote's neighbour and a line break, a point behind a number, a
division before a comment, and keywords before and inside words. -/
theorem yields_rebuilt_neighbours :
    let source := "\"// \n\"or!1.2.5/**//nil_==orchid"
    let rebuilt := "\"// \n\" or ! 1.2 . 5 / nil_ == orchid"
    (scan source).faults = #[] ∧
      " ".intercalate ((scan source).tokens.tokens.map Token.lexeme) = rebuilt ∧
      (scan rebuilt).faults = #[] ∧
      (scan rebuilt).yields.map Yield.placeless = (scan source).yields.map Yield.placeless := by
  intro source rebuilt
  have hfaults : (scan source).faults = #[] := by decide +kernel
  have htext : " ".intercalate ((scan source).tokens.tokens.map Token.lexeme) = rebuilt := by
    decide +kernel
  exact ⟨hfaults, htext, yields_rebuilt hfaults rebuilt (by simp [htext])⟩

end Lexer
end Lox
