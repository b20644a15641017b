import Lox.Token.Lexer

/-! # The lexical grammar

What the texts of the kinds of token are, and how a source text is covered by
tokens, by what separates them, and by faults. Nothing here says how a text is
read. -/

namespace Lox

/-- The text of a symbol. -/
def Symbol.text : Symbol → List Char
  | leftParen => ['(']
  | rightParen => [')']
  | leftBrace => ['\x7b']
  | rightBrace => ['\x7d']
  | comma => [',']
  | dot => ['.']
  | minus => ['-']
  | plus => ['+']
  | semicolon => [';']
  | slash => ['/']
  | star => ['*']
  | bang => ['!']
  | bangEqual => ['!', '=']
  | equal => ['=']
  | equalEqual => ['=', '=']
  | greater => ['>']
  | greaterEqual => ['>', '=']
  | less => ['<']
  | lessEqual => ['<', '=']

namespace Lexer

/-- The texts of a kind of token. A word is a keyword if all of it is. -/
inductive Lexeme : TokenKind → List Char → Prop
  | symbol (s : Symbol) : Lexeme (.symbol s) s.text
  | string {inside : List Char} (hclosed : '"' ∉ inside) :
      Lexeme (.string (String.ofList inside)) ('"' :: inside ++ ['"'])
  | whole {digits : List Char} (hsome : digits ≠ []) (hdigits : ∀ d ∈ digits, d.isDigit) :
      Lexeme (.number (Decimal.ofText digits []).toFloat) digits
  | fraction {digits behind : List Char} (hsome : digits ≠ []) (hdigits : ∀ d ∈ digits, d.isDigit)
      (hmore : behind ≠ []) (hbehind : ∀ d ∈ behind, d.isDigit) :
      Lexeme (.number (Decimal.ofText digits behind).toFloat) (digits ++ '.' :: behind)
  | keyword (k : Keyword) : Lexeme (.keyword k) k.text.toList
  | identifier {c : Char} {cs : List Char} (hstart : startsWord c) (hword : ∀ d ∈ cs, inWord d)
      (hother : ∀ k : Keyword, k.text.toList ≠ c :: cs) : Lexeme .identifier (c :: cs)

/-- What separates tokens: a blank character, a comment up to the end of its
line, and a comment between its two marks, of which the second is the first one
behind the opening. -/
inductive Separator : (text rest : List Char) → Prop
  | space {c : Char} {rest : List Char} (h : c ∈ [' ', '\t', '\r', '\n']) : Separator [c] rest
  | line {inside rest : List Char} (hline : '\n' ∉ inside) (hend : ∀ d ∈ rest.head?, d = '\n') :
      Separator ('/' :: '/' :: inside) rest
  | block {inside rest : List Char} (hopen : ¬ ['*', '/'] <:+: inside) :
      Separator ('/' :: '*' :: inside ++ ['*', '/']) rest

/-- Nothing longer that stands at the same place is a lexeme or opens a comment. -/
def Longest (text rest : List Char) : Prop :=
  ∀ longer, longer <+: text ++ rest → text.length < longer.length →
    (∀ kind, ¬ Lexeme kind longer) ∧ longer ≠ ['/', '/'] ∧ longer ≠ ['/', '*']

/-- A text that stands at a byte offset, covered from its start to its end, and
the items that the parts of it are. -/
inductive Covered : (offset : Nat) → List Char → List Item → Prop
  | done {offset : Nat} : Covered offset [] []
  | separator {offset : Nat} {text rest : List Char} {items : List Item}
      (hpart : Separator text rest) (hrest : Covered (offset + Text.width text) rest items) :
      Covered offset (text ++ rest) items
  | token {offset : Nat} {kind : TokenKind} {text rest : List Char} {items : List Item}
      (hpart : Lexeme kind text) (hlongest : Longest text rest)
      (hrest : Covered (offset + Text.width text) rest items) :
      Covered offset (text ++ rest)
        (.token ⟨kind, String.ofList text, ⟨offset, offset + Text.width text⟩⟩ :: items)
  | unexpected {offset : Nat} {c : Char} {rest : List Char} {items : List Item}
      (hblank : c ∉ [' ', '\t', '\r', '\n']) (hnone : ∀ kind more, ¬ Lexeme kind (c :: more))
      (hrest : Covered (offset + c.utf8Size) rest items) :
      Covered offset (c :: rest)
        (.fault (.unexpectedCharacter c) ⟨offset, offset + c.utf8Size⟩ :: items)
  | openString {offset : Nat} {inside : List Char} (hopen : '"' ∉ inside) :
      Covered offset ('"' :: inside)
        [.fault .unterminatedString (.point (offset + Text.width ('"' :: inside)))]
  | openComment {offset : Nat} {inside : List Char} (hopen : ¬ ['*', '/'] <:+: inside) :
      Covered offset ('/' :: '*' :: inside) [.fault .unterminatedComment ⟨offset, offset + 2⟩]

/-! ## The lexemes that start with a character -/

/-- A character with which no symbol, separator or string starts. -/
structure Plain (c : Char) : Prop where
  single : single? c = none
  prolonged : prolonged? c = none
  blank : isBlank c = false
  slash : c ≠ '/'
  quote : c ≠ '"'

variable {kind : TokenKind} {c : Char} {cs : List Char}

theorem isBlank_iff : isBlank c = true ↔ c ∈ [' ', '\t', '\r', '\n'] := by
  simp [isBlank, or_assoc, or_left_comm]

/-- A character that goes on with a word is none of those that stand for themselves. -/
theorem plain_of_inWord (h : inWord c = true) : Plain c := by
  constructor
  · unfold single?
    split <;> first | rfl | cases h
  · unfold prolonged?
    split <;> first | rfl | cases h
  · refine Bool.eq_false_iff.mpr fun hblank => ?_
    simp only [isBlank, Bool.or_eq_true, decide_eq_true_eq] at hblank
    obtain ((rfl | rfl) | rfl) | rfl := hblank <;> cases h
  · rintro rfl
    cases h
  · rintro rfl
    cases h

theorem plain_of_isDigit (h : c.isDigit = true) : Plain c :=
  plain_of_inWord (by simp [inWord, Char.isAlphanum, h])

theorem plain_of_startsWord (h : startsWord c = true) : Plain c := by
  refine plain_of_inWord ?_
  rcases Bool.or_eq_true_iff.mp h with halpha | hunder
  · simp [inWord, Char.isAlphanum, halpha]
  · simp [inWord, hunder]

/-- No character starts both a number and a word. -/
theorem startsWord_of_isDigit (h : c.isDigit = true) : startsWord c = false := by
  have hunder : c ≠ '_' := by
    rintro rfl
    cases h
  have halpha : c.isAlpha =
      (decide (c.val ≥ 65 ∧ c.val ≤ 90) || (c.val ≥ 97 && c.val ≤ 122)) := rfl
  simp [Char.isDigit, UInt32.le_iff_toNat_le] at h
  simp [startsWord, halpha, UInt32.le_iff_toNat_le, hunder]
  omega

/-- A word that is no keyword. -/
theorem wordKind_of_ne {word : List Char} (h : ∀ k : Keyword, k.text.toList ≠ word) :
    wordKind (String.ofList word) = .identifier := by
  have hnone : Keyword.ofText? (String.ofList word) = none := by
    refine List.find?_eq_none.mpr fun k _ heq => h k ?_
    rw [of_decide_eq_true heq, String.toList_ofList]
  rw [wordKind, hnone]

/-- How a lexeme starts. -/
theorem Lexeme.head (h : Lexeme kind (c :: cs)) :
    (∃ s, kind = .symbol s ∧ s.text = c :: cs) ∨
    (c = '"' ∧ ∃ inside, '"' ∉ inside ∧ cs = inside ++ ['"'] ∧
      kind = .string (String.ofList inside)) ∨
    (c.isDigit = true ∧ ∃ digits, (∀ d ∈ digits, d.isDigit = true) ∧
      (cs = digits ∧ kind = .number (Decimal.ofText (c :: digits) []).toFloat ∨
       ∃ behind, behind ≠ [] ∧ (∀ d ∈ behind, d.isDigit = true) ∧ cs = digits ++ '.' :: behind ∧
        kind = .number (Decimal.ofText (c :: digits) behind).toFloat)) ∨
    (startsWord c = true ∧ (∀ d ∈ cs, inWord d = true) ∧
      kind = wordKind (String.ofList (c :: cs))) := by
  generalize htext : c :: cs = text at h
  cases h with
  | symbol s => exact .inl ⟨s, rfl, rfl⟩
  | string hclosed =>
    obtain ⟨rfl, rfl⟩ := List.cons.inj htext
    exact .inr (.inl ⟨rfl, _, hclosed, rfl, rfl⟩)
  | whole hsome hdigits =>
    subst htext
    obtain ⟨hc, hcs⟩ := List.forall_mem_cons.mp hdigits
    exact .inr (.inr (.inl ⟨hc, cs, hcs, .inl ⟨rfl, rfl⟩⟩))
  | @fraction digits behind hsome hdigits hmore hbehind =>
    cases digits with
    | nil => exact absurd rfl hsome
    | cons d digits =>
      obtain ⟨rfl, rfl⟩ := List.cons.inj htext
      obtain ⟨hc, hcs⟩ := List.forall_mem_cons.mp hdigits
      exact .inr (.inr (.inl ⟨hc, digits, hcs, .inr ⟨behind, hmore, hbehind, rfl, rfl⟩⟩))
  | keyword k =>
    refine .inr (.inr (.inr ?_))
    rw [String.ofList_toList, ← List.all_eq_true]
    cases k <;> obtain ⟨rfl, rfl⟩ := List.cons.inj htext <;> decide
  | identifier hstart hword hother =>
    obtain ⟨rfl, rfl⟩ := List.cons.inj htext
    exact .inr (.inr (.inr ⟨hstart, hword, (wordKind_of_ne hother).symm⟩))

theorem Plain.ne_text (h : Plain c) (s : Symbol) : s.text ≠ c :: cs := by
  intro htext
  cases s <;> obtain ⟨rfl, rfl⟩ := List.cons.inj htext <;>
    first | exact h.slash rfl | (cases h.single; done) | cases h.prolonged

theorem text_of_single {s : Symbol} (hc : single? c = some s) : s.text = [c] := by
  unfold single? at hc
  split at hc <;> cases hc <;> rfl

theorem text_of_prolonged {alone withEqual : Symbol}
    (hc : prolonged? c = some (alone, withEqual)) :
    alone.text = [c] ∧ withEqual.text = [c, '='] := by
  unfold prolonged? at hc
  split at hc <;> cases hc <;> exact ⟨rfl, rfl⟩

/-- A symbol with which no longer one starts. -/
theorem Lexeme.of_single {s : Symbol} (hc : single? c = some s) (h : Lexeme kind (c :: cs)) :
    kind = .symbol s ∧ cs = [] := by
  rcases h.head with ⟨s', rfl, htext⟩ | ⟨rfl, -⟩ | ⟨hdigit, -⟩ | ⟨hword, -⟩
  · cases s' <;> obtain ⟨rfl, rfl⟩ := List.cons.inj htext <;> cases hc <;> exact ⟨rfl, rfl⟩
  · cases hc
  · rw [(plain_of_isDigit hdigit).single] at hc
    cases hc
  · rw [(plain_of_startsWord hword).single] at hc
    cases hc

theorem Lexeme.of_prolonged {alone withEqual : Symbol} (hc : prolonged? c = some (alone, withEqual))
    (h : Lexeme kind (c :: cs)) :
    kind = .symbol alone ∧ cs = [] ∨ kind = .symbol withEqual ∧ cs = ['='] := by
  rcases h.head with ⟨s, rfl, htext⟩ | ⟨rfl, -⟩ | ⟨hdigit, -⟩ | ⟨hword, -⟩
  · cases s <;> obtain ⟨rfl, rfl⟩ := List.cons.inj htext <;> cases hc <;>
      first | exact .inl ⟨rfl, rfl⟩ | exact .inr ⟨rfl, rfl⟩
  · cases hc
  · rw [(plain_of_isDigit hdigit).prolonged] at hc
    cases hc
  · rw [(plain_of_startsWord hword).prolonged] at hc
    cases hc

theorem Lexeme.of_slash (h : Lexeme kind ('/' :: cs)) : kind = .symbol .slash ∧ cs = [] := by
  rcases h.head with ⟨s, rfl, htext⟩ | ⟨hquote, -⟩ | ⟨hdigit, -⟩ | ⟨hword, -⟩
  · cases s <;> cases htext
    exact ⟨rfl, rfl⟩
  · cases hquote
  · cases hdigit
  · cases hword

theorem Lexeme.of_quote (h : Lexeme kind ('"' :: cs)) :
    ∃ inside, '"' ∉ inside ∧ cs = inside ++ ['"'] ∧ kind = .string (String.ofList inside) := by
  rcases h.head with ⟨s, rfl, htext⟩ | ⟨-, hinside⟩ | ⟨hdigit, -⟩ | ⟨hword, -⟩
  · cases s <;> cases htext
  · exact hinside
  · cases hdigit
  · cases hword

theorem Lexeme.of_isDigit (hc : c.isDigit = true) (h : Lexeme kind (c :: cs)) :
    ∃ digits, (∀ d ∈ digits, d.isDigit = true) ∧
      (cs = digits ∧ kind = .number (Decimal.ofText (c :: digits) []).toFloat ∨
       ∃ behind, behind ≠ [] ∧ (∀ d ∈ behind, d.isDigit = true) ∧ cs = digits ++ '.' :: behind ∧
        kind = .number (Decimal.ofText (c :: digits) behind).toFloat) := by
  rcases h.head with ⟨s, rfl, htext⟩ | ⟨rfl, -⟩ | ⟨-, hdigits⟩ | ⟨hword, -⟩
  · exact absurd htext ((plain_of_isDigit hc).ne_text s)
  · cases hc
  · exact hdigits
  · rw [startsWord_of_isDigit hc] at hword
    cases hword

theorem Lexeme.of_startsWord (hc : startsWord c = true) (h : Lexeme kind (c :: cs)) :
    (∀ d ∈ cs, inWord d = true) ∧ kind = wordKind (String.ofList (c :: cs)) := by
  rcases h.head with ⟨s, rfl, htext⟩ | ⟨rfl, -⟩ | ⟨hdigit, -⟩ | ⟨-, hword⟩
  · exact absurd htext ((plain_of_startsWord hc).ne_text s)
  · cases hc
  · rw [startsWord_of_isDigit hdigit] at hc
    cases hc
  · exact hword

/-- No lexeme starts with a character that starts no symbol, string, number or word. -/
theorem Plain.not_lexeme (hc : Plain c) (hdigit : c.isDigit = false) (hword : startsWord c = false) :
    ¬ Lexeme kind (c :: cs) := by
  intro h
  rcases h.head with ⟨s, rfl, htext⟩ | ⟨rfl, -⟩ | ⟨hdigit', -⟩ | ⟨hword', -⟩
  · exact hc.ne_text s htext
  · exact hc.quote rfl
  · rw [hdigit] at hdigit'
    cases hdigit'
  · rw [hword] at hword'
    cases hword'

/-- A word is a lexeme, of the kind that the whole of it has. -/
theorem lexeme_word (hc : startsWord c = true) (hcs : ∀ d ∈ cs, inWord d = true) :
    Lexeme (wordKind (String.ofList (c :: cs))) (c :: cs) := by
  cases hk : Keyword.ofText? (String.ofList (c :: cs)) with
  | none =>
    have hother : ∀ k : Keyword, k.text.toList ≠ c :: cs := by
      intro k htext
      have hne := List.find?_eq_none.mp hk k (Keyword.mem_all k)
      rw [← htext, String.ofList_toList] at hne
      exact hne (decide_eq_true rfl)
    rw [wordKind_of_ne hother]
    exact .identifier hc hcs hother
  | some k =>
    have hfound := List.find?_some
      (p := fun k : Keyword => decide (k.text = String.ofList (c :: cs))) hk
    have htext : k.text = String.ofList (c :: cs) := of_decide_eq_true hfound
    have hlexeme := Lexeme.keyword k
    rw [htext, String.toList_ofList] at hlexeme
    rwa [wordKind, hk]

/-- A character with which no lexeme starts, and that is not blank, starts nothing. -/
theorem plain_of_not_lexeme (hblank : c ∉ [' ', '\t', '\r', '\n'])
    (hnone : ∀ kind more, ¬ Lexeme kind (c :: more)) :
    Plain c ∧ c.isDigit = false ∧ startsWord c = false := by
  refine ⟨⟨?_, ?_, Bool.eq_false_iff.mpr (mt isBlank_iff.mp hblank), ?_, ?_⟩, ?_, ?_⟩
  · refine Option.eq_none_iff_forall_ne_some.mpr fun s hs => ?_
    exact hnone _ _ (text_of_single hs ▸ Lexeme.symbol s)
  · refine Option.eq_none_iff_forall_ne_some.mpr fun symbols hs => ?_
    exact hnone _ _ ((text_of_prolonged hs).1 ▸ Lexeme.symbol symbols.1)
  · rintro rfl
    exact hnone _ _ (.symbol .slash)
  · rintro rfl
    exact hnone _ _ (.string (List.not_mem_nil))
  · refine Bool.eq_false_iff.mpr fun hdigit => hnone _ [] (.whole nofun ?_)
    simpa using hdigit
  · refine Bool.eq_false_iff.mpr fun hword => hnone _ [] (lexeme_word hword nofun)

end Lexer
end Lox
