import Lox.Proofs.Token.Lexemes
import Lox.Proofs.Token.Seam

/-! # The pieces of a text and the lexical grammar

The piece that is cut from the head of a text is what the lexical grammar has
there, and what the grammar has at the head of a text is the piece that is cut. -/

namespace Lox.Lexer

/-- What the lexical grammar asks of a piece, of its text and of the text behind it. -/
def Stands : Piece → (text rest : List Char) → Prop
  | .blank, text, rest => Separator text rest
  | .token kind, text, rest => Lexeme kind text ∧ Longest text rest
  | .unexpected c, text, _ =>
    text = [c] ∧ c ∉ [' ', '\t', '\r', '\n'] ∧ ∀ kind more, ¬ Lexeme kind (c :: more)
  | .openString, text, rest => (∃ inside, '"' ∉ inside ∧ text = '"' :: inside) ∧ rest = []
  | .openComment, text, rest =>
    (∃ inside, ¬ ['*', '/'] <:+: inside ∧ text = '/' :: '*' :: inside) ∧ rest = []

/-! ## Runs of characters -/

variable {p : Char → Bool} {body rest : List Char}

theorem takeWhile_run (hbody : ∀ d ∈ body, p d = true) (hrest : ∀ d ∈ rest.head?, p d = false) :
    (body ++ rest).takeWhile p = body := by
  rw [List.takeWhile_append_of_pos hbody]
  cases rest with
  | nil => simp
  | cons d rest => simp [hrest d rfl]

theorem dropWhile_run (hbody : ∀ d ∈ body, p d = true) (hrest : ∀ d ∈ rest.head?, p d = false) :
    (body ++ rest).dropWhile p = rest := by
  rw [List.dropWhile_append_of_pos hbody]
  cases rest with
  | nil => rfl
  | cons d rest => simp [hrest d rfl]

/-- Every text starts with a run, of which the next character is no part. -/
theorem exists_run (p : Char → Bool) (cs : List Char) :
    ∃ body rest, cs = body ++ rest ∧ (∀ d ∈ body, p d = true) ∧ ∀ d ∈ rest.head?, p d = false := by
  refine ⟨cs.takeWhile p, cs.dropWhile p, List.takeWhile_append_dropWhile.symm,
    List.all_eq_true.mp List.all_takeWhile, ?_⟩
  intro d hd
  have hhead := List.head?_dropWhile_not p cs
  rw [Option.mem_def] at hd
  rwa [hd] at hhead

/-- A text starts with one whole run only. -/
theorem run_unique {body' rest' : List Char} (hbody : ∀ d ∈ body, p d = true)
    (hrest : ∀ d ∈ rest.head?, p d = false) (hbody' : ∀ d ∈ body', p d = true)
    (hrest' : ∀ d ∈ rest'.head?, p d = false) (h : body ++ rest = body' ++ rest') :
    body = body' ∧ rest = rest' := by
  constructor
  · rw [← takeWhile_run hbody hrest, h, takeWhile_run hbody' hrest']
  · rw [← dropWhile_run hbody hrest, h, dropWhile_run hbody' hrest']

/-- A run that stands at the head of a text is no longer than the whole run there. -/
theorem length_le_run {more : List Char} (hmore : ∀ d ∈ more, p d = true)
    (hrest : ∀ d ∈ rest.head?, p d = false) (hfront : more <+: body ++ rest) :
    more.length ≤ body.length := by
  obtain ⟨behind, hsplit⟩ := hfront
  refine Nat.le_of_not_lt fun hlong => ?_
  obtain ⟨extra, rfl⟩ : body <+: more :=
    List.prefix_of_prefix_length_le ⟨rest, rfl⟩ ⟨behind, hsplit⟩ (by omega)
  rw [List.append_assoc, List.append_cancel_left_eq] at hsplit
  cases extra with
  | nil => simp at hlong
  | cons d extra =>
    subst hsplit
    have hout := hrest d rfl
    rw [hmore d (by simp)] at hout
    cases hout

/-! ## Comments between two marks -/

variable {count n : Nat} {cs inside : List Char}

theorem exists_of_commentEnd (h : commentEnd count cs = some n) :
    ∃ inside rest, cs = inside ++ '*' :: '/' :: rest ∧ ¬ ['*', '/'] <:+: inside ∧
      n = count + inside.length + 2 := by
  fun_induction commentEnd count cs with
  | case1 => cases h
  | case2 count rest => exact ⟨[], rest, rfl, by simp, (Option.some.inj h).symm⟩
  | case3 count c cs hne ih =>
    obtain ⟨inside, rest, rfl, hopen, rfl⟩ := ih h
    refine ⟨c :: inside, rest, rfl, ?_, by simp only [List.length_cons]; omega⟩
    rw [List.infix_cons_iff, not_or]
    refine ⟨?_, hopen⟩
    rintro ⟨behind, hmark⟩
    obtain ⟨rfl, rfl⟩ := List.cons.inj hmark
    exact hne (behind ++ '*' :: '/' :: rest) rfl rfl

theorem commentEnd_of_open (hopen : ¬ ['*', '/'] <:+: cs) : commentEnd count cs = none := by
  fun_induction commentEnd count cs with
  | case1 => rfl
  | case2 count rest => exact absurd ⟨[], rest, rfl⟩ hopen
  | case3 count c cs hne ih =>
    rw [List.infix_cons_iff, not_or] at hopen
    exact ih hopen.2

theorem open_of_commentEnd (h : commentEnd count cs = none) : ¬ ['*', '/'] <:+: cs := by
  fun_induction commentEnd count cs with
  | case1 => simp
  | case2 => cases h
  | case3 count c cs hne ih =>
    rw [List.infix_cons_iff, not_or]
    refine ⟨?_, ih h⟩
    rintro ⟨behind, hmark⟩
    obtain ⟨rfl, rfl⟩ := List.cons.inj hmark
    exact hne behind rfl rfl

theorem commentEnd_of_closed (hopen : ¬ ['*', '/'] <:+: inside) (rest : List Char) :
    commentEnd count (inside ++ '*' :: '/' :: rest) = some (count + inside.length + 2) := by
  induction inside generalizing count with
  | nil => rfl
  | cons c inside ih =>
    rw [List.infix_cons_iff, not_or] at hopen
    rw [List.cons_append, commentEnd]
    · rw [ih hopen.2, List.length_cons]
      congr 1
      omega
    · rintro behind rfl hmark
      cases inside with
      | nil => cases hmark
      | cons d inside =>
        obtain ⟨rfl, -⟩ := List.cons.inj hmark
        exact hopen.1 ⟨inside, rfl⟩

/-! ## What is cut from a text of a known shape -/

variable {c : Char}

theorem cutSlash_line (hbody : '\n' ∉ body) (hrest : ∀ d ∈ rest.head?, d = '\n') :
    cutSlash ('/' :: body ++ rest) = ⟨.blank, 1 + body.length⟩ := by
  have hrun : (body ++ rest).takeWhile (· ≠ '\n') = body := by
    refine takeWhile_run (fun d hd => decide_eq_true ?_) fun d hd => by simp [hrest d hd]
    rintro rfl
    exact hbody hd
  simp only [cutSlash, List.cons_append, hrun]

theorem cutSlash_block (hopen : ¬ ['*', '/'] <:+: body) (rest : List Char) :
    cutSlash ('*' :: body ++ '*' :: '/' :: rest) = ⟨.blank, 1 + (body.length + 2)⟩ := by
  simp only [cutSlash, List.cons_append, commentEnd_of_closed hopen rest, Nat.zero_add]

theorem cutSlash_open (hopen : ¬ ['*', '/'] <:+: body) :
    cutSlash ('*' :: body) = ⟨.openComment, ('*' :: body).length⟩ := by
  simp only [cutSlash, commentEnd_of_open hopen]

theorem cutSlash_alone (hmark : ∀ d ∈ cs.head?, d ≠ '/' ∧ d ≠ '*') :
    cutSlash cs = ⟨.token (.symbol .slash), 0⟩ := by
  cases cs with
  | nil => rfl
  | cons d cs =>
    obtain ⟨hline, hblock⟩ := hmark d rfl
    unfold cutSlash
    split
    · next heq => exact absurd (List.cons.inj heq).1 hline
    · next heq => exact absurd (List.cons.inj heq).1 hblock
    · rfl

theorem cutString_closed (hbody : '"' ∉ body) (rest : List Char) :
    cutString (body ++ '"' :: rest) =
      ⟨.token (.string (String.ofList body)), body.length + 1⟩ := by
  have hin : ∀ d ∈ body, decide (d ≠ '"') = true := by
    refine fun d hd => decide_eq_true ?_
    rintro rfl
    exact hbody hd
  have hout : ∀ d ∈ ('"' :: rest).head?, decide (d ≠ '"') = false := by simp
  simp only [cutString, takeWhile_run hin hout, dropWhile_run hin hout]

theorem cutString_open (hbody : '"' ∉ body) :
    cutString body = ⟨.openString, body.length⟩ := by
  have hin : ∀ d ∈ body, decide (d ≠ '"') = true := by
    refine fun d hd => decide_eq_true ?_
    rintro rfl
    exact hbody hd
  have hdrop : (body ++ []).dropWhile _ = [] := dropWhile_run hin nofun
  rw [List.append_nil] at hdrop
  simp only [cutString, hdrop]

theorem cutNumber_whole (hbody : ∀ d ∈ body, d.isDigit = true)
    (hrest : ∀ d ∈ rest.head?, d.isDigit = false)
    (hpoint : ∀ d more, rest = '.' :: d :: more → d.isDigit = false) :
    cutNumber c (body ++ rest) = ⟨numberToken (c :: body) [], body.length⟩ := by
  simp only [cutNumber, takeWhile_run hbody hrest, dropWhile_run hbody hrest]
  split
  · next rest =>
    have hnone : rest.takeWhile Char.isDigit = [] := by
      cases rest with
      | nil => rfl
      | cons d more => simp [hpoint d more rfl]
    rw [hnone]
  · rfl

theorem cutNumber_fraction {behind : List Char} (hbody : ∀ d ∈ body, d.isDigit = true)
    (hmore : behind ≠ []) (hbehind : ∀ d ∈ behind, d.isDigit = true)
    (hrest : ∀ d ∈ rest.head?, d.isDigit = false) :
    cutNumber c (body ++ '.' :: (behind ++ rest)) =
      ⟨numberToken (c :: body) behind, body.length + 1 + behind.length⟩ := by
  have hout : ∀ d ∈ ('.' :: (behind ++ rest)).head?, d.isDigit = false := by
    rintro d ⟨⟩
    rfl
  simp only [cutNumber, takeWhile_run hbody hout, dropWhile_run hbody hout,
    takeWhile_run hbehind hrest]

theorem cutWord_run (hbody : ∀ d ∈ body, inWord d = true)
    (hrest : ∀ d ∈ rest.head?, inWord d = false) :
    cutWord c (body ++ rest) =
      ⟨.token (wordKind (String.ofList (c :: body))), body.length⟩ := by
  simp only [cutWord, takeWhile_run hbody hrest]

/-! ## What is cut stands there -/

/-- A lexeme is the longest one if every lexeme with the same first character
ends no later, and the text opens no comment. -/
theorem longest_cons (hlexeme : ∀ kind more, Lexeme kind (c :: more) → more <+: cs ++ rest →
      more.length ≤ cs.length)
    (hcomment : c = '/' → ∀ d ∈ (cs ++ rest).head?, d ≠ '/' ∧ d ≠ '*') :
    Longest (c :: cs) rest := by
  intro longer hfront hlong
  cases longer with
  | nil => simp at hlong
  | cons d more =>
    obtain ⟨rfl, hmore⟩ : d = c ∧ more <+: cs ++ rest := List.cons_prefix_cons.mp hfront
    have hlonger : cs.length < more.length := by simpa using hlong
    refine ⟨fun kind hl => absurd (hlexeme kind more hl hmore) (by omega), ?_, ?_⟩
    · rintro ⟨⟩
      obtain ⟨behind, hbehind⟩ := hmore
      exact (hcomment rfl '/' (by rw [← hbehind]; rfl)).1 rfl
    · rintro ⟨⟩
      obtain ⟨behind, hbehind⟩ := hmore
      exact (hcomment rfl '*' (by rw [← hbehind]; rfl)).2 rfl

/-- A piece stands at the head of the text from which it is cut. -/
def Cut.Stands (head : Cut) (c : Char) (cs : List Char) : Prop :=
  Lexer.Stands head.piece (c :: cs.take head.extra) (cs.drop head.extra)

theorem stands_of_append (piece : Piece) (body : List Char) {n : Nat} (hn : n = body.length)
    (h : Stands piece (c :: body) rest) : Cut.Stands ⟨piece, n⟩ c (body ++ rest) := by
  subst hn
  unfold Cut.Stands
  rwa [List.take_left, List.drop_left]

theorem stands_single {s : Symbol} (hc : single? c = some s) :
    Cut.Stands ⟨.token (.symbol s), 0⟩ c cs := by
  have hslash : c ≠ '/' := by
    rintro rfl
    cases hc
  refine stands_of_append _ [] rfl ⟨text_of_single hc ▸ .symbol s, ?_⟩
  refine longest_cons (fun kind more h _ => ?_) fun h => absurd h hslash
  simp [(h.of_single hc).2]

theorem stands_prolonged {alone withEqual : Symbol} (hc : prolonged? c = some (alone, withEqual)) :
    Cut.Stands (if cs.head? = some '=' then ⟨.token (.symbol withEqual), 1⟩
      else ⟨.token (.symbol alone), 0⟩) c cs := by
  have htext := text_of_prolonged hc
  have hslash : c ≠ '/' := by
    rintro rfl
    cases hc
  split
  · next hequal =>
    cases cs with
    | nil => cases hequal
    | cons d rest =>
      obtain rfl := Option.some.inj hequal
      refine stands_of_append _ ['='] rfl ⟨htext.2 ▸ .symbol withEqual, ?_⟩
      refine longest_cons (fun kind more h _ => ?_) fun h => absurd h hslash
      rcases h.of_prolonged hc with ⟨-, rfl⟩ | ⟨-, rfl⟩ <;> simp
  · next hother =>
    refine stands_of_append _ [] rfl ⟨htext.1 ▸ .symbol alone, ?_⟩
    refine longest_cons (fun kind more h hmore => ?_) fun h => absurd h hslash
    rcases h.of_prolonged hc with ⟨-, rfl⟩ | ⟨-, rfl⟩
    · exact Nat.le_refl 0
    · obtain ⟨behind, rfl⟩ := hmore
      exact absurd rfl hother

theorem stands_slash : (cutSlash cs).Stands '/' cs := by
  by_cases hmark : ∀ d ∈ cs.head?, d ≠ '/' ∧ d ≠ '*'
  · rw [cutSlash_alone hmark]
    refine stands_of_append _ [] rfl ⟨.symbol .slash, ?_⟩
    refine longest_cons (fun kind more h _ => ?_) fun _ => hmark
    simp [h.of_slash.2]
  · cases cs with
    | nil => exact absurd (fun d hd => by cases hd) hmark
    | cons d cs =>
      by_cases hline : d = '/'
      · subst hline
        obtain ⟨body, rest, rfl, hbody, hrest⟩ := exists_run (· ≠ '\n') cs
        have hin : '\n' ∉ body := fun hmem => absurd rfl (of_decide_eq_true (hbody _ hmem))
        have hout : ∀ d ∈ rest.head?, d = '\n' := fun d hd => by simpa using hrest d hd
        rw [← List.cons_append, cutSlash_line hin hout]
        exact stands_of_append .blank _ (by simp only [List.length_cons]; omega)
          (Separator.line hin hout)
      by_cases hblock : d = '*'
      · subst hblock
        cases hend : commentEnd 0 cs with
        | none =>
          have hopen := open_of_commentEnd hend
          rw [cutSlash_open hopen]
          have hall : Cut.Stands ⟨.openComment, _⟩ '/' ('*' :: cs ++ []) :=
            stands_of_append .openComment ('*' :: cs) rfl ⟨⟨cs, hopen, rfl⟩, rfl⟩
          rwa [List.append_nil] at hall
        | some n =>
          obtain ⟨inside, rest, rfl, hopen, -⟩ := exists_of_commentEnd hend
          rw [← List.cons_append, cutSlash_block hopen]
          have hblock : Cut.Stands ⟨.blank, 1 + (inside.length + 2)⟩ '/'
              ('*' :: inside ++ ['*', '/'] ++ rest) :=
            stands_of_append .blank _ (by simp; omega) (Separator.block hopen)
          rwa [List.append_assoc] at hblock
      · refine absurd (fun e he => ?_) hmark
        obtain rfl := Option.some.inj he
        exact ⟨hline, hblock⟩

theorem stands_string : (cutString cs).Stands '"' cs := by
  obtain ⟨body, rest, rfl, hbody, hrest⟩ := exists_run (· ≠ '"') cs
  have hin : '"' ∉ body := fun hmem => absurd rfl (of_decide_eq_true (hbody _ hmem))
  cases rest with
  | nil =>
    rw [List.append_nil, cutString_open hin]
    have hall : Cut.Stands ⟨.openString, _⟩ '"' (body ++ []) :=
      stands_of_append .openString body rfl ⟨⟨body, hin, rfl⟩, rfl⟩
    rwa [List.append_nil] at hall
  | cons d rest =>
    obtain rfl : d = '"' := by simpa using hrest d rfl
    rw [cutString_closed hin]
    have hstring : Lexeme (.string (String.ofList body)) ('"' :: (body ++ ['"'])) := .string hin
    have hlongest : Longest ('"' :: (body ++ ['"'])) rest := by
      refine longest_cons (fun kind more h hmore => ?_) nofun
      -- Another string that stands here has its closing quote at the same place.
      obtain ⟨inside, hinside, rfl, -⟩ := h.of_quote
      rw [List.append_assoc] at hmore
      have hrun : ∀ d ∈ inside, decide (d ≠ '"') = true :=
        fun d hd => decide_eq_true (fun h => hinside (h ▸ hd))
      have hle := length_le_run hrun hrest ((List.prefix_append inside ['"']).trans hmore)
      simpa using hle
    have hall := stands_of_append (.token _) _ (n := body.length + 1) (by simp)
      ⟨hstring, hlongest⟩
    rwa [List.append_assoc] at hall

theorem stands_number (hc : c.isDigit = true) : (cutNumber c cs).Stands c cs := by
  obtain ⟨body, rest, rfl, hbody, hrest⟩ := exists_run Char.isDigit cs
  have hslash : c ≠ '/' := (plain_of_isDigit hc).slash
  have hdigits : ∀ d ∈ c :: body, d.isDigit = true := List.forall_mem_cons.mpr ⟨hc, hbody⟩
  by_cases hpoint : ∃ d more, rest = '.' :: d :: more ∧ d.isDigit = true
  · obtain ⟨d, more, rfl, hd⟩ := hpoint
    obtain ⟨behind, rest, hsplit, hbehind, hend⟩ := exists_run Char.isDigit (d :: more)
    have hmore : behind ≠ [] := by
      rintro rfl
      rw [List.nil_append] at hsplit
      subst hsplit
      rw [hend d rfl] at hd
      cases hd
    rw [hsplit, cutNumber_fraction hbody hmore hbehind hend]
    have hpoints : ∀ d ∈ ('.' :: (behind ++ rest)).head?, d.isDigit = false := hsplit ▸ hrest
    have hlexeme : Lexeme (.number (Decimal.ofText (c :: body) behind).toFloat)
        (c :: (body ++ '.' :: behind)) := .fraction nofun hdigits hmore hbehind
    have hlongest : Longest (c :: (body ++ '.' :: behind)) rest := by
      refine longest_cons (fun kind longer h hfront => ?_) fun h => absurd h hslash
      rw [List.append_assoc, List.cons_append] at hfront
      obtain ⟨digits, hmany, ⟨rfl, -⟩ | ⟨fraction, -, hfraction, rfl, -⟩⟩ := h.of_isDigit hc
      · have hle := length_le_run hmany hpoints hfront
        simp only [List.length_append]
        omega
      · obtain ⟨tail, htail⟩ := hfront
        rw [List.append_assoc, List.cons_append] at htail
        obtain ⟨rfl, hbehind'⟩ := run_unique hmany (by rintro d ⟨⟩; rfl) hbody hpoints htail
        have hle := length_le_run hfraction hend ⟨tail, (List.cons.inj hbehind').2⟩
        simp only [List.length_append, List.length_cons]
        omega
    have hall := stands_of_append (.token _) _ (n := body.length + 1 + behind.length)
      (by simp; omega) ⟨hlexeme, hlongest⟩
    rwa [List.append_assoc] at hall
  · have hnone : ∀ d more, rest = '.' :: d :: more → d.isDigit = false := by
      intro d more heq
      exact Bool.eq_false_iff.mpr fun hd => hpoint ⟨d, more, heq, hd⟩
    rw [cutNumber_whole hbody hrest hnone]
    refine stands_of_append _ _ rfl ⟨.whole nofun hdigits, ?_⟩
    refine longest_cons (fun kind longer h hfront => ?_) fun h => absurd h hslash
    obtain ⟨digits, hmany, ⟨rfl, -⟩ | ⟨fraction, hsome, hfraction, rfl, -⟩⟩ := h.of_isDigit hc
    · exact length_le_run hmany hrest hfront
    · -- Behind the run stands no point with a digit behind it.
      obtain ⟨tail, htail⟩ := hfront
      rw [List.append_assoc, List.cons_append] at htail
      obtain ⟨-, rfl⟩ := run_unique hmany (by rintro d ⟨⟩; rfl) hbody hrest htail
      cases fraction with
      | nil => exact absurd rfl hsome
      | cons d fraction =>
        have hout := hnone d (fraction ++ tail) rfl
        rw [hfraction d (List.mem_cons_self ..)] at hout
        cases hout

theorem stands_word (hc : startsWord c = true) : (cutWord c cs).Stands c cs := by
  obtain ⟨body, rest, rfl, hbody, hrest⟩ := exists_run inWord cs
  rw [cutWord_run hbody hrest]
  refine stands_of_append _ _ rfl ⟨lexeme_word hc hbody, ?_⟩
  refine longest_cons (fun kind longer h hfront => ?_) fun h =>
    absurd h (plain_of_startsWord hc).slash
  exact length_le_run (h.of_startsWord hc).1 hrest hfront

/-- What is cut from the head of a text stands there. -/
theorem stands_cut (c : Char) (cs : List Char) : (cut c cs).Stands c cs := by
  unfold cut
  cases hsingle : single? c with
  | some s => exact stands_single hsingle
  | none =>
    cases hprolonged : prolonged? c with
    | some symbols => exact stands_prolonged hprolonged
    | none =>
      dsimp only
      by_cases hblank : isBlank c = true
      · rw [if_pos hblank]
        exact stands_of_append .blank [] rfl (Separator.space (isBlank_iff.mp hblank))
      rw [if_neg hblank]
      by_cases hslash : c = '/'
      · subst hslash
        exact stands_slash
      rw [if_neg hslash]
      by_cases hquote : c = '"'
      · subst hquote
        exact stands_string
      rw [if_neg hquote]
      by_cases hdigit : c.isDigit = true
      · rw [if_pos hdigit]
        exact stands_number hdigit
      rw [if_neg hdigit]
      by_cases hword : startsWord c = true
      · rw [if_pos hword]
        exact stands_word hword
      rw [if_neg hword]
      have hplain : Plain c :=
        ⟨hsingle, hprolonged, Bool.eq_false_iff.mpr hblank, hslash, hquote⟩
      exact stands_of_append (.unexpected c) [] rfl
        ⟨rfl, mt isBlank_iff.mpr hblank, fun kind more =>
          hplain.not_lexeme (Bool.eq_false_iff.mpr hdigit) (Bool.eq_false_iff.mpr hword)⟩

/-! ## What stands there is cut -/

variable {kind : TokenKind} {text : List Char}

theorem Longest.not_lexeme (more : List Char) {behind : List Char}
    (h : Longest text (more ++ behind)) (hmore : more ≠ []) : ¬ Lexeme kind (text ++ more) := by
  have hlong : text.length < (text ++ more).length := by
    have hpos := List.length_pos_iff.mpr hmore
    rw [List.length_append]
    omega
  exact (h (text ++ more) ⟨behind, List.append_assoc ..⟩ hlong).1 kind

/-- A character with which a longest lexeme would go on is not the next one. -/
theorem Longest.not_next {d : Char} (h : Longest text rest) (hd : d ∈ rest.head?) :
    ¬ Lexeme kind (text ++ [d]) := by
  cases rest with
  | nil => cases hd
  | cons e rest =>
    obtain rfl := Option.some.inj hd
    exact Longest.not_lexeme [e] h nofun

theorem cut_of_isDigit (hc : c.isDigit = true) : cut c cs = cutNumber c cs := by
  obtain ⟨hsingle, hprolonged, hblank, hslash, hquote⟩ := plain_of_isDigit hc
  simp [cut, hsingle, hprolonged, hblank, hslash, hquote, hc]

theorem cut_of_startsWord (hc : startsWord c = true) : cut c cs = cutWord c cs := by
  obtain ⟨hsingle, hprolonged, hblank, hslash, hquote⟩ := plain_of_startsWord hc
  have hdigit : c.isDigit = false := Bool.eq_false_iff.mpr fun hdigit => by
    rw [startsWord_of_isDigit hdigit] at hc
    cases hc
  simp [cut, hsingle, hprolonged, hblank, hslash, hquote, hdigit, hc]

theorem cut_symbol {s : Symbol} (htext : s.text = c :: body) (hlongest : Longest (c :: body) rest) :
    cut c (body ++ rest) = ⟨.token (.symbol s), body.length⟩ := by
  -- A symbol that an equals sign prolongs is not followed by one.
  have halone {alone withEqual : Symbol} (hc : prolonged? c = some (alone, withEqual))
      (hbody : body = []) (hmore : withEqual.text = [c, '=']) : rest.head? ≠ some '=' := by
    intro hnext
    subst hbody
    exact hlongest.not_next hnext (hmore ▸ Lexeme.symbol withEqual)
  cases s <;> obtain ⟨rfl, rfl⟩ := List.cons.inj htext <;> first
    | rfl
    | exact if_neg (halone rfl rfl rfl)
    | skip
  refine cutSlash_alone fun d hd => ?_
  cases rest with
  | nil => cases hd
  | cons e rest =>
    obtain rfl := Option.some.inj hd
    have hmark := hlongest ['/', e] ⟨rest, rfl⟩ (by simp)
    refine ⟨?_, ?_⟩
    · rintro rfl
      exact hmark.2.1 rfl
    · rintro rfl
      exact hmark.2.2 rfl

theorem cut_lexeme (h : Lexeme kind (c :: body)) (hlongest : Longest (c :: body) rest) :
    cut c (body ++ rest) = ⟨.token kind, body.length⟩ := by
  rcases h.head with ⟨s, rfl, htext⟩ | ⟨rfl, inside, hinside, rfl, rfl⟩ |
    ⟨hdigit, digits, hdigits, hnumber⟩ | ⟨hword, hbody, rfl⟩
  · exact cut_symbol htext hlongest
  · rw [List.append_assoc, List.length_append]
    exact cutString_closed hinside rest
  · rw [cut_of_isDigit hdigit]
    have hall : ∀ d ∈ c :: digits, d.isDigit = true := List.forall_mem_cons.mpr ⟨hdigit, hdigits⟩
    have hwith {ds : List Char} {d : Char} (hds : ∀ e ∈ ds, e.isDigit = true)
        (hd : d.isDigit = true) : ∀ e ∈ ds ++ [d], e.isDigit = true := by
      simpa [or_imp, forall_and, hd] using hds
    rcases hnumber with ⟨rfl, rfl⟩ | ⟨behind, hmore, hbehind, rfl, rfl⟩
    · refine cutNumber_whole hdigits (fun d hd => ?_) ?_
      · refine Bool.eq_false_iff.mpr fun hd' => ?_
        exact hlongest.not_next hd (.whole (by simp) (hwith hall hd'))
      · rintro d more rfl
        refine Bool.eq_false_iff.mpr fun hd => ?_
        exact Longest.not_lexeme ['.', d] hlongest nofun
          (.fraction nofun hall nofun (by simpa using hd))
    · rw [List.append_assoc, List.cons_append, cutNumber_fraction hdigits hmore hbehind]
      · simp only [numberToken, List.length_append, List.length_cons, Cut.mk.injEq, true_and]
        omega
      · intro d hd
        refine Bool.eq_false_iff.mpr fun hd' => ?_
        have hlonger := Lexeme.fraction (List.cons_ne_nil c digits) hall (by simp)
          (hwith hbehind hd')
        have htext : c :: digits ++ '.' :: (behind ++ [d]) =
            c :: (digits ++ '.' :: behind) ++ [d] := by simp
        exact hlongest.not_next hd (htext ▸ hlonger)
  · rw [cut_of_startsWord hword]
    refine cutWord_run hbody fun d hd => ?_
    refine Bool.eq_false_iff.mpr fun hd' => ?_
    have hmore : ∀ e ∈ body ++ [d], inWord e = true := by
      simpa [or_imp, forall_and, hd'] using hbody
    exact hlongest.not_next hd (lexeme_word hword hmore)

theorem cut_unexpected (hblank : c ∉ [' ', '\t', '\r', '\n'])
    (hnone : ∀ kind more, ¬ Lexeme kind (c :: more)) : cut c cs = ⟨.unexpected c, 0⟩ := by
  obtain ⟨⟨hsingle, hprolonged, hblank, hslash, hquote⟩, hdigit, hword⟩ :=
    plain_of_not_lexeme hblank hnone
  simp [cut, hsingle, hprolonged, hblank, hslash, hquote, hdigit, hword]

/-- What stands at the head of a text is cut from it. -/
theorem cut_of_stands {piece : Piece} (h : Stands piece (c :: body) rest) :
    cut c (body ++ rest) = ⟨piece, body.length⟩ := by
  cases piece with
  | token kind => exact cut_lexeme h.1 h.2
  | unexpected d =>
    obtain ⟨htext, hblank, hnone⟩ := h
    obtain ⟨rfl, rfl⟩ := List.cons.inj htext
    exact cut_unexpected hblank hnone
  | openString =>
    obtain ⟨⟨inside, hinside, htext⟩, rfl⟩ := h
    obtain ⟨rfl, rfl⟩ := List.cons.inj htext
    rw [List.append_nil]
    exact cutString_open hinside
  | openComment =>
    obtain ⟨⟨inside, hinside, htext⟩, rfl⟩ := h
    obtain ⟨rfl, rfl⟩ := List.cons.inj htext
    rw [List.append_nil]
    exact cutSlash_open hinside
  | blank =>
    have hseparator : Separator (c :: body) rest := h
    generalize htext : c :: body = text at hseparator
    cases hseparator with
    | space hc =>
      obtain ⟨rfl, rfl⟩ := List.cons.inj htext
      simp only [List.mem_cons, List.not_mem_nil, or_false] at hc
      rcases hc with rfl | rfl | rfl | rfl <;> rfl
    | line hline hend =>
      obtain ⟨rfl, rfl⟩ := List.cons.inj htext
      rw [List.length_cons, Nat.add_comm]
      exact cutSlash_line hline hend
    | @block inside _ hopen =>
      obtain ⟨rfl, rfl⟩ := List.cons.inj htext
      have hassoc : '*' :: inside ++ ['*', '/'] ++ rest = '*' :: inside ++ '*' :: '/' :: rest :=
        List.append_assoc ..
      refine (congrArg cutSlash hassoc).trans ((cutSlash_block hopen rest).trans ?_)
      simp [Nat.add_comm]

end Lox.Lexer
