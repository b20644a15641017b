import Lox.Proofs.Grammar.Complete
import Lox.Proofs.Grammar.Derivation
import Lox.Proofs.Grammar.Elsewhere
import Lox.Proofs.Grammar.Written
import Lox.Proofs.Session.Readings
import Lox.Proofs.Token.Slices

/-! # How far expressions reach

The span of an expression is worked out from the spans of its parts, each kind of
expression in its own way. Where the tokens stand in order, it starts where the
first token of the expression does and stops where the last one does. -/

namespace Lox.Grammar

/-- Tokens that start and stop one after the other. -/
def Ordered (ts : List Token) : Prop :=
  ts.Pairwise fun a b => a.span.start ≤ b.span.start ∧ a.span.stop ≤ b.span.stop

/-- A span from the start of the first token to the end of the last one. -/
def Reaches (ts : List Token) (span : Span) : Prop :=
  ∃ a b, ts.head? = some a ∧ ts.getLast? = some b ∧ span = ⟨a.span.start, b.span.stop⟩

variable {ts us : List Token} {t a b : Token} {s s' : Span}

theorem reaches_one (t : Token) : Reaches [t] t.span := ⟨t, t, rfl, rfl, rfl⟩

theorem Ordered.head_le (h : Ordered ts) (ha : ts.head? = some a) (ht : t ∈ ts) :
    a.span.start ≤ t.span.start := by
  cases ts with
  | nil => cases ha
  | cons c ts =>
    obtain rfl := Option.some.inj ha
    rcases List.mem_cons.mp ht with rfl | ht
    · exact Nat.le_refl _
    · exact (List.rel_of_pairwise_cons h ht).1

theorem Ordered.le_last (h : Ordered ts) (hb : ts.getLast? = some b) (ht : t ∈ ts) :
    t.span.stop ≤ b.span.stop := by
  obtain ⟨front, rfl⟩ := List.getLast?_eq_some_iff.mp hb
  rcases List.mem_append.mp ht with ht | ht
  · exact ((List.pairwise_append.mp h).2.2 t ht b (List.mem_singleton.mpr rfl)).2
  · obtain rfl := List.mem_singleton.mp ht
    exact Nat.le_refl _

/-- What covers the first tokens and the last ones reaches over all of them. -/
theorem Reaches.cover (h : Reaches us s) {vs : List Token} (h' : Reaches vs s') (hts : Ordered ts)
    (hfront : us <+: ts) (hback : vs <:+ ts) : Reaches ts (s.cover s') := by
  obtain ⟨a, l, ha, hl, rfl⟩ := h
  obtain ⟨f, b, hf, hb, rfl⟩ := h'
  have hhead : ts.head? = some a := by
    obtain ⟨more, rfl⟩ := hfront
    simp [ha]
  have hlast : ts.getLast? = some b := by
    obtain ⟨more, rfl⟩ := hback
    simp [hb]
  have hstart := hts.head_le hhead (hback.subset (List.mem_of_mem_head? hf))
  have hstop := hts.le_last hlast (hfront.subset (List.mem_of_getLast? hl))
  refine ⟨a, b, hhead, hlast, ?_⟩
  simp only [Span.cover, Nat.min_eq_left hstart, Nat.max_eq_right hstop]

/-- The span of a tree reaches over its tokens. A function starts elsewhere and stops where its body
does; what leans on a tree reaches as far as both together. -/
def Phrase.Reaching : (phrase : Phrase) → List Token → phrase.Tree → Prop
  | .block, ts, b => ∃ r, ts.getLast? = some r ∧ b.2 = r.span
  | .closure start, ts, fn => ∃ r, ts.getLast? = some r ∧ fn.span = start.cover r.span
  | .chain _ left, ts, e => ∀ us, Ordered (us ++ ts) → Reaches us left.span → Reaches (us ++ ts) e.span
  | .suffixes callee, ts, e =>
    ∀ us, Ordered (us ++ ts) → Reaches us callee.span → Reaches (us ++ ts) e.span
  | .expression, ts, e | .assignment, ts, e | .operation _, ts, e | .operand _, ts, e
  | .unary, ts, e | .call, ts, e | .primary, ts, e => Ordered ts → Reaches ts e.span
  | _, _, _ => True

theorem span_apply (op : Operator) (left : Expr) (span : Span) (right : Expr) :
    (op.apply left span right).span = left.span.cover right.span := by
  cases op <;> rfl

theorem Derives.reaching {phrase : Phrase} {p : Place} {n n' : Nat} {x : phrase.Tree}
    (h : Derives phrase p n ts x n') : phrase.Reaching ts x := by
  induction h with
  | @braces _ _ l ts _ _ r => exact ⟨r, by rw [← List.cons_append, List.getLast?_concat], rfl⟩
  | @closure _ _ start l ts _ r us b _ _ _ _ _ _ ih =>
    obtain ⟨last, hlast, hstop⟩ := ih
    exact ⟨last, by simp [List.getLast?_cons, hlast], by simp [hstop]⟩
  | expression _ _ ih => exact ih
  | @assign _ _ t q ts _ _ _ _ _ ih =>
    intro hts
    have hvalue := ih (hts.sublist (List.suffix_append [t, q] ts).sublist)
    exact (reaches_one t).cover hvalue hts ⟨q :: ts, rfl⟩ ⟨[t, q], rfl⟩
  | @set _ _ ts _ _ d t q us _ _ _ _ _ _ _ ihobject ihvalue =>
    intro hts
    have hback : us <:+ ts ++ d :: t :: q :: us := ⟨ts ++ [d, t, q], by simp⟩
    have hobject := ihobject (hts.sublist (List.prefix_append ..).sublist)
    have hvalue := ihvalue (hts.sublist hback.sublist)
    exact hobject.cover hvalue hts (List.prefix_append ..) hback
  | operators _ ih => exact ih
  | operation _ _ ihfirst ihrest =>
    exact fun hts => ihrest _ hts (ihfirst (hts.sublist (List.prefix_append ..).sublist))
  | noOperator =>
    intro us _ hleft
    rwa [List.append_nil]
  | @operator _ _ _ left t op ts e _ us _ _ _ _ _ ihright ihrest =>
    intro vs hts hleft
    rw [← List.cons_append, ← List.append_assoc] at hts ⊢
    have hfront : Ordered (vs ++ t :: ts) := hts.sublist (List.prefix_append ..).sublist
    have hback : ts <:+ vs ++ t :: ts := ⟨vs ++ [t], by simp⟩
    have hright := ihright (hfront.sublist hback.sublist)
    have hall := hleft.cover hright hfront (List.prefix_append ..) hback
    rw [← span_apply op left t.span e] at hall
    exact ihrest _ hts hall
  | tighter _ _ ih => exact ih
  | tightest _ _ ih => exact ih
  | @unary _ _ t _ ts _ _ _ _ _ ih =>
    intro hts
    have hoperand := ih (hts.sublist (List.suffix_cons t ts).sublist)
    exact (reaches_one t).cover hoperand hts ⟨ts, rfl⟩ (List.suffix_cons t ts)
  | noUnary _ ih => exact ih
  | call _ _ ihhead ihrest =>
    exact fun hts => ihrest _ hts (ihhead (hts.sublist (List.prefix_append ..).sublist))
  | noSuffix =>
    intro us _ hcallee
    rwa [List.append_nil]
  | @apply _ _ _ l ts _ _ r us _ _ _ _ _ _ _ _ ihrest =>
    intro vs hts hcallee
    have hsplit : vs ++ l :: (ts ++ r :: us) = (vs ++ l :: (ts ++ [r])) ++ us := by simp
    rw [hsplit] at hts ⊢
    have hfront : Ordered (vs ++ l :: (ts ++ [r])) := hts.sublist (List.prefix_append ..).sublist
    have hback : [r] <:+ vs ++ l :: (ts ++ [r]) := ⟨vs ++ l :: ts, by simp⟩
    exact ihrest _ hts (hcallee.cover (reaches_one r) hfront (List.prefix_append ..) hback)
  | @get _ _ _ d t ts _ _ _ _ _ ih =>
    intro us hts hcallee
    have hsplit : us ++ d :: t :: ts = (us ++ [d, t]) ++ ts := by simp
    rw [hsplit] at hts ⊢
    have hfront : Ordered (us ++ [d, t]) := hts.sublist (List.prefix_append ..).sublist
    have hback : [t] <:+ us ++ [d, t] := ⟨us ++ [d], by simp⟩
    exact ih _ hts (hcallee.cover (reaches_one t) hfront (List.prefix_append ..) hback)
  | literal => exact fun _ => reaches_one _
  | var => exact fun _ => reaches_one _
  | @grouping _ _ l ts _ _ r =>
    intro hts
    exact (reaches_one l).cover (reaches_one r) hts ⟨ts ++ [r], rfl⟩ (List.suffix_append (l :: ts) [r])
  | this => exact fun _ => reaches_one _
  | @super _ _ k d t =>
    intro hts
    exact (reaches_one k).cover (reaches_one t) hts ⟨[d, t], rfl⟩ ⟨[k, d], rfl⟩
  | @lambda _ _ k ts fn _ _ _ ih =>
    intro hts
    obtain ⟨r, hr, hspan⟩ := ih
    obtain ⟨front, rfl⟩ := List.getLast?_eq_some_iff.mp hr
    have hall := (reaches_one k).cover (reaches_one r) hts ⟨front ++ [r], rfl⟩
      (List.suffix_append (k :: front) [r])
    rwa [← hspan] at hall
  | _ => trivial

end Lox.Grammar

/-! # What the span of an expression delimits

The slice of a text that the span of an expression delimits is an expression
itself, and is read as the one that it was in the text, but for the numbers of its
nodes and for where it stands. -/

namespace Lox

/-- A span that lies so many bytes before. -/
def Span.earlier (k : Nat) (span : Span) : Span := ⟨span.start - k, span.stop - k⟩

theorem Span.earlier_cover (k : Nat) (a b : Span) :
    (a.cover b).earlier k = (a.earlier k).cover (b.earlier k) := by
  simp only [Span.cover, Span.earlier, Nat.sub_min_sub_right, Nat.sub_max_sub_right]

theorem Token.earlier_later (k : Nat) :
    Token.respan (Span.earlier k) ∘ Token.respan (Span.later k) = id := by
  funext t
  simp [Token.respan, Span.later, Span.earlier]

namespace Grammar

variable {n n' : Nat} {ts : List Token} {e e' : Expr} {span : Span}

/-- Tokens derive one expression. -/
theorem derives_unique {m m' : Nat} (h : Derives .expression .top n ts e m)
    (h' : Derives .expression .top n ts e' m') : e = e' := by
  have hparsed : parseExpression ⟨ts, 0⟩ n = ⟨some e, #[], m⟩ := parseExpression_of_derives h
  have hparsed' : parseExpression ⟨ts, 0⟩ n = ⟨some e', #[], m'⟩ := parseExpression_of_derives h'
  rw [hparsed] at hparsed'
  exact Option.some.inj (Parsed.mk.inj hparsed').1

/-- What tokens derive further on, they derive where they stand. -/
theorem derives_of_later {k : Nat}
    (h : Derives .expression .top n (ts.map (Token.respan (Span.later k))) e n') :
    ∃ e', Derives .expression .top n ts e' n' ∧ Respan.expr (Span.later k) e' = e := by
  have hback := h.respan (Span.earlier_cover k)
  rw [List.map_map, Token.earlier_later, List.map_id] at hback
  exact ⟨_, hback, derives_unique (hback.respan (Span.later_cover k)) h⟩

/-- Tokens derive the same expression under other numbers. -/
theorem derives_from (h : Derives .expression .top n ts e n') (first : Nat) :
    ∃ e' last, Derives .expression .top first ts e' last ∧
      Renumber.expr (fun _ => 0) e' = Renumber.expr (fun _ => 0) e := by
  have hahead (k : Nat) : parseExpression ⟨ts, 0⟩ (0 + k) =
      ⟨(parseExpression ⟨ts, 0⟩ 0).value.map (Renumber.expr (· + k)),
        (parseExpression ⟨ts, 0⟩ 0).errors, (parseExpression ⟨ts, 0⟩ 0).nextId + k⟩ :=
    (parseExpression_ahead (fun _ _ => rfl) ⟨ts, 0⟩ (Nat.le_refl 0)).2.2
  have hparsed : parseExpression ⟨ts, 0⟩ n = ⟨some e, #[], n'⟩ := parseExpression_of_derives h
  rw [← Nat.zero_add n, hahead n] at hparsed
  obtain ⟨hvalue, herrors, -⟩ := Parsed.mk.inj hparsed
  obtain ⟨e₀, he₀, rfl⟩ := Option.map_eq_some_iff.mp hvalue
  have hfirst := hahead first
  rw [Nat.zero_add, he₀, herrors] at hfirst
  have hderives := derives_of_parseExpression (congrArg Parsed.value hfirst)
    (congrArg Parsed.errors hfirst)
  exact ⟨_, _, hderives, by rw [Renumber.expr_comp, Renumber.expr_comp]; rfl⟩

end Grammar

/-! ## Reading a slice -/

section

variable {source : String} {first : Nat}

theorem readExpression_of_derives {text : String} {e : Expr} {next : Nat}
    (hfaults : (Lexer.scan text).faults = #[])
    (h : Grammar.Derives .expression .top first (Lexer.scan text).tokens.tokens e next) :
    readExpression text first = ⟨some e, .empty, next⟩ := by
  have hparse := Grammar.parseExpression_of_derives h
  unfold readExpression Reading.of
  dsimp only
  rw [hparse, hfaults]
  rfl

/-- Where nothing is wrong the tokens stand one behind the other. -/
theorem ordered_tokens (h : (Lexer.scan source).faults = #[]) :
    Grammar.Ordered (Lexer.scan source).tokens.tokens := by
  have hitems := ((Lexer.covered_iff source _).mpr (Lexer.items_of_faults h).symm).pairwise
  rw [Lexer.tokenItems, List.pairwise_map] at hitems
  refine hitems.imp_of_mem fun {a b} _ hb hprecedes => ?_
  have hwithin := (Lexer.token_fits hb).ordered
  have hstop : a.span.stop ≤ b.span.start := hprecedes.1
  have hstart : a.span.start < b.span.start := hprecedes.2
  omega

theorem faults_of_readProgram (h : (readProgram source first).report.hadError = false) :
    (Lexer.scan source).faults = #[] := by
  have hread := (Report.clean_of_addAll
    (parseProgram_static first (Lexer.scan source).tokens).2 h).1
  exact (Report.clean_of_addAll (faults_static source) hread).2

/-- The span of an expression of a text delimits what is written of it. -/
structure Delimits (source : String) (e : Expr) : Prop where
  /-- It reaches from the first to the last token of the expression. -/
  tokens : ∃ own, Grammar.OwnTokens own (Lexer.scan source).tokens.tokens e ∧
    Grammar.Reaches own e.span
  /-- The slice of the text is read without an error as the expression, but for the numbers of its
  nodes, and so many bytes earlier as stand before it. -/
  slice : ∃ before text after : String, source = before ++ text ++ after ∧
    before.utf8ByteSize = e.span.start ∧ (before ++ text).utf8ByteSize = e.span.stop ∧
    ∀ next, ∃ e' last, readExpression text next = ⟨some e', .empty, last⟩ ∧
      Renumber.expr (fun _ => 0) (Respan.expr (Span.later e.span.start) e') =
        Renumber.expr (fun _ => 0) e

/-- **Spans delimit what they are the spans of.** In a text with which nothing is wrong, this holds of
every expression of the program, wherever it stands, but for a condition that a `for` loop does not
have. -/
theorem spans_delimit_expressions (hread : (readProgram source first).report.hadError = false)
    {e : Expr} (he : e ∈ Parts.stmts (readProgram source first).value)
    (hwritten : ¬ Grammar.Supplied (Lexer.scan source).tokens.tokens e) : Delimits source e := by
  have hstatic := (parseProgram_static first (Lexer.scan source).tokens).2
  have hfaults := faults_of_readProgram hread
  have hwrites := (Grammar.derivesProgram_of_parseProgram (Reading.errors_of hstatic hread)).writes
  obtain ⟨own, hwithin, n, n', hderives⟩ := (hwrites e he).resolve_left hwritten
  have hreaches := hderives.reaching ((ordered_tokens hfaults).sublist hwithin.sublist)
  refine ⟨⟨own, ⟨hwithin, n, n', hderives⟩, hreaches⟩, ?_⟩
  obtain ⟨a, b, ha, hb, hspan⟩ := hreaches
  obtain ⟨before, text, after, hsource, hstart, hstop, htext, htokens⟩ :=
    Lexer.scan_slice hfaults hwithin ha hb
  rw [hspan]
  refine ⟨before, text, after, hsource, hstart, hstop, fun next => ?_⟩
  -- The tokens of the slice are those of the expression, so they derive it under any numbers.
  obtain ⟨x, last, hx, hsame⟩ := Grammar.derives_from hderives next
  rw [← htokens] at hx
  obtain ⟨e', he', hlater⟩ := Grammar.derives_of_later hx
  exact ⟨e', last, readExpression_of_derives htext he', by rw [hlater, hsame]⟩

/-- A sum in parentheses, behind a character of two bytes and in a loop without a condition. -/
theorem spans_delimit_expressions_in_loop :
    let source := "for (;;) \x7b print \"é\" + -(f(a).b + c); \x7d"
    (readProgram source 0).report.hadError = false ∧
      ∃ e ∈ Parts.stmts (readProgram source 0).value,
        ¬ Grammar.Supplied (Lexer.scan source).tokens.tokens e ∧ e.span = ⟨26, 36⟩ ∧
          Delimits source e := by
  intro source
  have hread : (readProgram source 0).report.hadError = false := by decide +kernel
  have hsum : (Parts.stmts (readProgram source 0).value)[5]?.map Expr.span = some ⟨26, 36⟩ := by
    decide +kernel
  obtain ⟨e, hget, hspan⟩ := Option.map_eq_some_iff.mp hsum
  have hwritten : ¬ Grammar.Supplied (Lexer.scan source).tokens.tokens e := by
    rintro ⟨t, ht, hfor, he⟩
    have hloop : ∀ t ∈ (Lexer.scan source).tokens.tokens, t.kind = .keyword .for_ →
        t.span = ⟨0, 3⟩ := by decide +kernel
    rw [he] at hspan
    exact absurd ((hloop t ht hfor).symm.trans hspan) (by decide)
  have he : e ∈ Parts.stmts (readProgram source 0).value := List.mem_of_getElem? hget
  exact ⟨hread, e, he, hwritten, hspan, spans_delimit_expressions hread he hwritten⟩

end

end Lox
