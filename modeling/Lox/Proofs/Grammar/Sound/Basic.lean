import Lox.Proofs.Grammar.Derivation
import Lox.Proofs.Grammar.Targets
import Lox.Proofs.Outcome

/-! # Readings

What a rule does with the tokens before it: it takes some of them from the front,
notes errors or none, and never runs out of steps. `Reads` says that of a rule,
together with what holds where the rule ends. -/

namespace Lox.Grammar

variable {α β : Type} {c c' c'' : Cursor} {post post' : α → Cursor → Prop}

/-- Rules have led from one cursor to the other. -/
structure Cursor.Onward (c c' : Cursor) : Prop where
  tokens : c'.tokens.length ≤ c.tokens.length
  errors : c.errors.size ≤ c'.errors.size

theorem Cursor.Onward.refl (c : Cursor) : c.Onward c := ⟨Nat.le_refl _, Nat.le_refl _⟩

theorem Cursor.Onward.trans (h : c.Onward c') (h' : c'.Onward c'') : c.Onward c'' :=
  ⟨Nat.le_trans h'.tokens h.tokens, Nat.le_trans h.errors h'.errors⟩

/-- One token has been taken, and nothing else has changed. -/
structure Cursor.Takes (c : Cursor) (t : Token) (c' : Cursor) : Prop where
  tokens : c.tokens = t :: c'.tokens
  shorter : c'.tokens.length + 1 = c.tokens.length
  nextId : c'.nextId = c.nextId
  errors : c'.errors.size = c.errors.size

theorem Cursor.Takes.onward {t : Token} (h : c.Takes t c') : c.Onward c' := by
  obtain ⟨-, hshorter, -, herrors⟩ := h
  exact ⟨by omega, by omega⟩

/-- If no error was noted on the way from `c` to `c'`, then the tokens between them
are such as `derives` says. -/
def Cursor.Reaches (c c' : Cursor) (derives : List Token → Prop) : Prop :=
  c'.errors.size = c.errors.size → ∃ ts, c.tokens = ts ++ c'.tokens ∧ derives ts

/-- A rule ends with a result such as `post` says, or it has noted an error and unwinds. -/
def Reads (rule : Rule α) (c : Cursor) (post : α → Cursor → Prop) : Prop :=
  Ends rule c (fun a c' => c.Onward c' ∧ post a c')
    (fun halt c' => halt = .unwound ∧ c'.tokens.length ≤ c.tokens.length ∧
      c.errors.size < c'.errors.size)

theorem Reads.imp {rule : Rule α} (h : Reads rule c post)
    (hpost : ∀ a c', c.Onward c' → post a c' → post' a c') : Reads rule c post' :=
  Ends.imp h (fun a c' ⟨hon, ha⟩ => ⟨hon, hpost a c' hon ha⟩) (fun _ _ h => h)

theorem reads_pure {a : α} (h : post a c) : Reads (pure a) c post :=
  ⟨.refl c, h⟩

theorem Reads.bind {rule : Rule α} {k : α → Rule β} {post' : β → Cursor → Prop}
    (h : Reads rule c post) (hk : ∀ a c', c.Onward c' → post a c' → Reads (k a) c' post') :
    Reads (rule >>= k) c post' := by
  unfold Reads
  rw [ends_bind]
  refine Ends.imp h ?_ fun _ _ h => h
  rintro a c' ⟨hon, ha⟩
  refine Ends.imp (hk a c' hon ha) ?_ ?_
  · rintro b c'' ⟨hon', hb⟩
    exact ⟨hon.trans hon', hb⟩
  · rintro halt c'' ⟨hhalt, htokens, herrors⟩
    obtain ⟨hon_tokens, hon_errors⟩ := hon
    exact ⟨hhalt, by omega, by omega⟩

theorem Reads.map {rule : Rule α} {f : α → β} {post' : β → Cursor → Prop}
    (h : Reads rule c fun a c' => post' (f a) c') : Reads (f <$> rule) c post' := by
  unfold Reads
  rw [ends_map]
  exact h

/-! ## Single steps -/

open Rule

variable {post : β → Cursor → Prop}

/-- A step that goes onward leaves the rest to be read from there. -/
theorem Reads.of_step {rule rule' : Rule β} (hon : c.Onward c') (hstep : rule c = rule' c')
    (h : Reads rule' c' post) : Reads rule c post := by
  unfold Reads Ends at h ⊢
  rw [hstep]
  have ⟨hon_tokens, hon_errors⟩ := hon
  cases hrule : rule' c' with
  | ok b c'' =>
    rw [hrule] at h
    obtain ⟨hon', hb⟩ := h
    exact ⟨hon.trans hon', hb⟩
  | error halt c'' =>
    rw [hrule] at h
    obtain ⟨hhalt, htokens, herrors⟩ := h
    exact ⟨hhalt, by omega, by omega⟩

theorem reads_refuse {error : GrammarError} : Reads (refuse error) c post :=
  ⟨rfl, Nat.le_refl _, by simp [Cursor.note]⟩

theorem reads_test {f : Cursor → Bool} {k : Bool → Rule β} (h : Reads (k (f c)) c post) :
    Reads (test f >>= k) c post := h

/-- A new number is drawn, and the tokens stay. -/
theorem reads_fresh {k : Nat → Rule β}
    (h : Reads (k c.nextId) { c with nextId := c.nextId + 1 } post) :
    Reads (fresh >>= k) c post := by
  refine Reads.of_step ?_ ?_ h
  · exact ⟨Nat.le_refl _, Nat.le_refl _⟩
  · rfl

theorem reads_takeIf {γ : Type} {select : TokenKind → Option γ}
    {k : Option (γ × Token) → Rule β}
    (hsome : ∀ a t c', c.Takes t c' → select t.kind = some a → Reads (k (some (a, t))) c' post)
    (hnone : Reads (k none) c post) : Reads (takeIf select >>= k) c post := by
  obtain ⟨ts, finish, n, errors⟩ := c
  cases ts with
  | nil => exact hnone
  | cons t ts =>
    cases hselect : select t.kind with
    | none =>
      refine hnone.of_step (.refl _) ?_
      simp only [bind, EStateM.bind, takeIf, hselect]
    | some a =>
      have htakes : Cursor.Takes ⟨t :: ts, finish, n, errors⟩ t ⟨ts, finish, n, errors⟩ :=
        ⟨rfl, rfl, rfl, rfl⟩
      refine (hsome a t _ htakes hselect).of_step htakes.onward ?_
      simp only [bind, EStateM.bind, takeIf, hselect]

theorem reads_accept {kind : TokenKind} {k : Option Token → Rule β}
    (hsome : ∀ t c', c.Takes t c' → t.kind = kind → Reads (k (some t)) c' post)
    (hnone : c.sees kind = false → Reads (k none) c post) : Reads (accept kind >>= k) c post := by
  obtain ⟨ts, finish, n, errors⟩ := c
  cases ts with
  | nil => exact hnone rfl
  | cons t ts =>
    by_cases hkind : t.kind = kind
    · have htakes : Cursor.Takes ⟨t :: ts, finish, n, errors⟩ t ⟨ts, finish, n, errors⟩ :=
        ⟨rfl, rfl, rfl, rfl⟩
      refine (hsome t _ htakes hkind).of_step htakes.onward ?_
      simp only [bind, EStateM.bind, accept, if_pos hkind]
    · refine (hnone (decide_eq_false hkind)).of_step (.refl _) ?_
      simp only [bind, EStateM.bind, accept, if_neg hkind]

theorem reads_expect {kind : TokenKind} {what : String} {k : Token → Rule β}
    (h : ∀ t c', c.Takes t c' → t.kind = kind → Reads (k t) c' post) :
    Reads (expect kind what >>= k) c post := by
  rw [expect, bind_assoc]
  refine reads_accept ?_ ?_
  · intro t c' htakes hkind
    exact h t c' htakes hkind
  · intro _
    exact reads_refuse.of_step (.refl c) rfl

theorem reads_name {what : String} {k : Ident → Rule β}
    (h : ∀ t c', c.Takes t c' → t.kind = .identifier → Reads (k t.ident) c' post) :
    Reads (name what >>= k) c post := by
  rw [name, bind_assoc]
  exact reads_expect h

/-- An error is noted, if there is reason to. -/
theorem reads_noteIf {reason : Prop} [Decidable reason] {mark : Rule PUnit}
    (hmark : Reads mark c fun _ c' => c'.tokens = c.tokens ∧ c'.nextId = c.nextId ∧
      c.errors.size < c'.errors.size) {k : PUnit → Rule β}
    (h : ∀ c', c.Onward c' → c'.tokens = c.tokens → c'.nextId = c.nextId →
      (reason → c.errors.size < c'.errors.size) → Reads (k ⟨⟩) c' post) :
    Reads (if reason then mark >>= k else k ⟨⟩) c post := by
  split
  · refine hmark.bind ?_
    rintro _ c' hon ⟨htokens, hnext, herrors⟩
    exact h c' hon htokens hnext fun _ => herrors
  · exact h c (.refl c) rfl rfl fun hreason => absurd hreason ‹_›

theorem reads_noteHere {error : GrammarError} :
    Reads (noteHere error) c fun _ c' => c'.tokens = c.tokens ∧ c'.nextId = c.nextId ∧
      c.errors.size < c'.errors.size := by
  have hsize : c.errors.size < (c.note error c.here).errors.size := by simp [Cursor.note]
  exact ⟨⟨Nat.le_refl _, Nat.le_of_lt hsize⟩, rfl, rfl, hsize⟩

theorem reads_note {error : GrammarError} {span : Span} :
    Reads (note error span) c fun _ c' => c'.tokens = c.tokens ∧ c'.nextId = c.nextId ∧
      c.errors.size < c'.errors.size := by
  have hsize : c.errors.size < (c.note error span).errors.size := by simp [Cursor.note]
  exact ⟨⟨Nat.le_refl _, Nat.le_of_lt hsize⟩, rfl, rfl, hsize⟩

/-- One level deeper there is room, or the rule unwinds. -/
theorem reads_nested {p : Place} {rule : Place → Rule β}
    (h : p.depth < maxNesting → Reads (rule p.deeper) c post) : Reads (nested p rule) c post := by
  unfold nested
  split
  · exact reads_refuse
  · exact h (by omega)

theorem skipAfter_suffix (last : Token) (ts : List Token) : skipAfter last ts <:+ ts := by
  induction ts generalizing last with
  | nil => exact List.suffix_rfl
  | cons t ts ih =>
    rw [skipAfter]
    split
    · exact List.suffix_rfl
    · exact (ih t).trans (List.suffix_cons t ts)

theorem resume_suffix (ts : List Token) : resume ts <:+ ts := by
  cases ts with
  | nil => exact List.suffix_rfl
  | cons t ts => exact (skipAfter_suffix t ts).trans (List.suffix_cons t ts)

/-- Where a rule has unwound, at least one token is skipped if there is one. -/
theorem reads_recover {rule : Rule β} (h : Reads rule c post) :
    Reads (recover rule) c fun result c' => match result with
      | some b => post b c'
      | none => c.errors.size < c'.errors.size ∧
        (0 < c.tokens.length → c'.tokens.length < c.tokens.length) := by
  unfold Reads Ends at h ⊢
  unfold recover
  cases hrule : rule c with
  | ok b c' => rw [hrule] at h; exact h
  | error halt c' =>
    rw [hrule] at h
    obtain ⟨rfl, htokens, herrors⟩ := h
    have hskip : (resume c'.tokens).length ≤ c'.tokens.length ∧
        (0 < c'.tokens.length → (resume c'.tokens).length < c'.tokens.length) := by
      cases c'.tokens with
      | nil => simp [resume]
      | cons t ts =>
        have := (skipAfter_suffix t ts).length_le
        simp only [resume, List.length_cons]
        omega
    exact ⟨⟨by dsimp only; omega, Nat.le_of_lt herrors⟩, herrors, by dsimp only; omega⟩

end Lox.Grammar

/-! # Soundness of the rules

A rule that notes no error has read tokens that derive its tree. The rules are
given a number of steps that is enough: forty for each token before them, and as
many more as there are levels from the rule down to the next token. -/

namespace Lox.Grammar

/-- The number of levels that bind tighter. -/
def Level.height : Level → Nat
  | or => 5
  | and => 4
  | equality => 3
  | comparison => 2
  | term => 1
  | factor => 0

theorem Level.height_tighter {level tighter : Level} (h : level.tighter? = some tighter) :
    level.height = tighter.height + 1 := by
  cases level <;> cases h <;> rfl

/-- Tokens have been taken, and with `before` in front of them they derive the tree. -/
def Builds (phrase : Phrase) (p : Place) (before : List Token) (c : Cursor) (a : phrase.Tree)
    (c' : Cursor) : Prop :=
  c'.tokens.length < c.tokens.length ∧
    c.Reaches c' fun ts => Derives phrase p c.nextId (before ++ ts) a c'.nextId

/-- Tokens have been taken that derive a statement; if it is opened, no `else` follows. -/
def BuildsStatement (derives : Bool → List Token → Prop) (c c' : Cursor) : Prop :=
  c'.tokens.length < c.tokens.length ∧
    c.Reaches c' fun ts => ∃ opened, derives opened ts ∧
      (opened = true → c'.sees (.keyword .else_) = false)

/-- What all rules read in a number of steps. -/
structure Sound (fuel : Nat) : Prop where
  expression : ∀ p c, 40 * c.tokens.length + 16 ≤ fuel →
    Reads (expression fuel p) c (Builds .expression p [] c)
  assignment : ∀ p c, 40 * c.tokens.length + 15 ≤ fuel →
    Reads (assignment fuel p) c (Builds .assignment p [] c)
  operation : ∀ p level c, 40 * c.tokens.length + (2 * level.height + 4) ≤ fuel →
    Reads (operation fuel p level) c (Builds (.operation level) p [] c)
  chain : ∀ p level left c, 40 * c.tokens.length + 1 ≤ fuel →
    Reads (chain fuel p level left) c fun e c' =>
      c.Reaches c' fun ts => Derives (.chain level left) p c.nextId ts e c'.nextId
  operand : ∀ p level c, 40 * c.tokens.length + (2 * level.height + 3) ≤ fuel →
    Reads (operand fuel p level) c (Builds (.operand level) p [] c)
  unary : ∀ p c, 40 * c.tokens.length + 2 ≤ fuel → Reads (unary fuel p) c (Builds .unary p [] c)
  calls : ∀ p callee c, 40 * c.tokens.length + 1 ≤ fuel →
    Reads (calls fuel p callee) c fun e c' =>
      c.Reaches c' fun ts => Derives (.suffixes callee) p c.nextId ts e c'.nextId
  argumentList : ∀ p c, 40 * c.tokens.length + 18 ≤ fuel →
    Reads (argumentList fuel p) c fun args c' => c.Reaches c' fun ts =>
      Derives .argumentList p c.nextId ts args c'.nextId ∧ args.length ≤ maxArity
  arguments : ∀ p done c, 40 * c.tokens.length + 17 ≤ fuel →
    Reads (arguments fuel p done) c fun args c' => c.Reaches c' fun ts =>
      ∃ more, args.toList = done.toList ++ more ∧
        Derives .arguments p c.nextId ts more c'.nextId ∧ args.toList.length ≤ maxArity
  primary : ∀ p c, 40 * c.tokens.length + 1 ≤ fuel →
    Reads (primary fuel p) c (Builds .primary p [] c)
  functionTail : ∀ p start role l c, l.kind = .symbol .leftParen →
    40 * c.tokens.length + 2 ≤ fuel →
    Reads (functionTail fuel p start role) c (Builds (.closure start) p [l] c)
  namedFunction : ∀ p role c, 40 * c.tokens.length + 1 ≤ fuel →
    Reads (namedFunction fuel p role) c (Builds .function p [] c)
  block : ∀ p l c, l.kind = .symbol .leftBrace → 40 * c.tokens.length + 23 ≤ fuel →
    Reads (block fuel p) c (Builds .block p [l] c)
  declarations : ∀ p done c, 40 * c.tokens.length + 22 ≤ fuel →
    Reads (declarations fuel p done) c fun all c' => c.Reaches c' fun ts =>
      ∃ more, all.toList = done.toList ++ more ∧
        Derives .declarations p c.nextId ts more c'.nextId
  declaration : ∀ p c, 40 * c.tokens.length + 21 ≤ fuel →
    Reads (declaration fuel p) c fun result c' => match result with
      | some s => Builds .declaration p [] c s c'
      | none => c.errors.size < c'.errors.size ∧
        (0 < c.tokens.length → c'.tokens.length < c.tokens.length)
  declared : ∀ p c, 40 * c.tokens.length + 20 ≤ fuel →
    Reads (declared fuel p) c (Builds .declaration p [] c)
  classDeclaration : ∀ p k c, k.kind = .keyword .class_ → 40 * c.tokens.length + 1 ≤ fuel →
    Reads (classDeclaration fuel p) c (Builds .classDeclaration p [k] c)
  methods : ∀ p done c, 40 * c.tokens.length + 2 ≤ fuel →
    Reads (methods fuel p done) c fun all c' => c.Reaches c' fun ts =>
      ∃ more, all.toList = done.toList ++ more ∧ Derives .methods p c.nextId ts more c'.nextId
  varDeclaration : ∀ p k c, k.kind = .keyword .var → 40 * c.tokens.length + 1 ≤ fuel →
    Reads (varDeclaration fuel p) c (Builds .varDeclaration p [k] c)
  statement : ∀ p c, 40 * c.tokens.length + 19 ≤ fuel →
    Reads (statement fuel p) c fun s c' =>
      BuildsStatement (fun o ts => Derives (.statement o) p c.nextId ts s c'.nextId) c c'
  statementBody : ∀ p c, 40 * c.tokens.length + 18 ≤ fuel →
    Reads (statementBody fuel p) c fun s c' =>
      BuildsStatement (fun o ts => Derives (.statementBody o) p c.nextId ts s c'.nextId) c c'
  expressionStatement : ∀ p c, 40 * c.tokens.length + 17 ≤ fuel →
    Reads (expressionStatement fuel p) c (Builds .expressionStatement p [] c)
  forStatement : ∀ p k c, k.kind = .keyword .for_ → 40 * c.tokens.length + 1 ≤ fuel →
    Reads (forStatement fuel p k.span) c fun s c' =>
      BuildsStatement (fun o ts => Derives (.forStatement o) p c.nextId (k :: ts) s c'.nextId) c c'
  forInitializer : ∀ p c, 40 * c.tokens.length + 18 ≤ fuel →
    Reads (forInitializer fuel p) c (Builds .initializer p [] c)
  optionalExpression : ∀ p closing c, 40 * c.tokens.length + 17 ≤ fuel →
    Reads (optionalExpression fuel p closing) c fun e c' =>
      c.Reaches c' fun ts => Derives .optionalExpression p c.nextId ts e c'.nextId
  ifStatement : ∀ p k c, k.kind = .keyword .if_ → 40 * c.tokens.length + 1 ≤ fuel →
    Reads (ifStatement fuel p) c fun s c' =>
      BuildsStatement (fun o ts => Derives (.ifStatement o) p c.nextId (k :: ts) s c'.nextId) c c'
  whileStatement : ∀ p k c, k.kind = .keyword .while_ → 40 * c.tokens.length + 1 ≤ fuel →
    Reads (whileStatement fuel p) c fun s c' =>
      BuildsStatement (fun o ts => Derives (.whileStatement o) p c.nextId (k :: ts) s c'.nextId) c c'
  returnStatement : ∀ p k c, k.kind = .keyword .return_ → 40 * c.tokens.length + 18 ≤ fuel →
    Reads (returnStatement fuel p k.span) c (Builds .returnStatement p [k] c)

end Lox.Grammar
