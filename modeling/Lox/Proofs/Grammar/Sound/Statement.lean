import Lox.Grammar.Program
import Lox.Proofs.Grammar.Sound.Expression

/-! # Soundness of the rules of statements and declarations -/

namespace Lox.Grammar

open Rule

variable {fuel : Nat}

theorem reads_parameters : ∀ (fuel : Nat) (done : Array Ident) (c : Cursor),
    40 * c.tokens.length + 1 ≤ fuel →
    Reads (parameters fuel done) c fun params c' => c'.nextId = c.nextId ∧
      c.Reaches c' fun ts => ∃ more, params.toList = done.toList ++ more ∧ Names ts more ∧
        params.toList.length ≤ maxArity
  | 0, _, _, hfuel => absurd hfuel (by omega)
  | fuel + 1, done, c, hfuel => by
    rw [parameters]
    refine reads_noteIf reads_noteHere ?_
    rintro c₁ ⟨htokens₁, herrors₁⟩ htokens hnext hfew
    refine reads_name ?_
    rintro t c₂ ⟨htokens₂, hshorter₂, hnext₂, herrors₂⟩ hname
    refine reads_accept ?_ fun _ => ?_
    · rintro comma c₃ ⟨htokens₃, hshorter₃, hnext₃, herrors₃⟩ hcomma
      refine (reads_parameters fuel (done.push t.ident) c₃ (by omega)).imp ?_
      rintro params c₄ ⟨htokens₄, herrors₄⟩ ⟨hnext₄, hrest⟩
      refine ⟨by omega, fun hclean => ?_⟩
      obtain ⟨ts, hts, more, hmore, hrest, hcount⟩ := hrest (by omega)
      refine ⟨t :: comma :: ts, ?_, t.ident :: more, by simp [hmore], .more hname hcomma hrest,
        hcount⟩
      simp [← htokens, htokens₂, htokens₃, hts]
    · refine reads_pure ⟨by omega, fun hclean => ?_⟩
      refine ⟨[t], by simp [← htokens, htokens₂], [t.ident], by simp, .last hname, ?_⟩
      have hdone : ¬ maxArity ≤ done.size := fun h => by have := hfew h; omega
      simp only [Array.toList_push, List.length_append, Array.length_toList,
        List.length_singleton]
      omega

theorem reads_functionTail (ih : Sound fuel) (p : Place) (start : Span) (role : Role) (l : Token)
    (c : Cursor) (hopening : l.kind = .symbol .leftParen)
    (hfuel : 40 * c.tokens.length + 2 ≤ fuel + 1) :
    Reads (functionTail (fuel + 1) p start role) c (Builds (.closure start) p [l] c) := by
  rw [functionTail]
  refine reads_test ?_
  extract_lets tail
  have htail (params : Array Ident) (c₁ : Cursor) (hon : c.Onward c₁)
      (hnext : c₁.nextId = c.nextId)
      (hparams : c.Reaches c₁ fun ts =>
        Parameters ts params.toList ∧ params.toList.length ≤ maxArity) :
      Reads (tail params) c₁ (Builds (.closure start) p [l] c) := by
    obtain ⟨htokens₁, herrors₁⟩ := hon
    refine reads_expect ?_
    rintro r c₂ ⟨htokens₂, hshorter₂, hnext₂, herrors₂⟩ hclosing
    refine reads_expect ?_
    rintro b c₃ ⟨htokens₃, hshorter₃, hnext₃, herrors₃⟩ hbrace
    refine (ih.block p.function b c₃ hbrace (by omega)).bind ?_
    rintro ⟨body, close⟩ c₄ ⟨htokens₄, herrors₄⟩ ⟨-, hblock⟩
    refine reads_pure ⟨by omega, fun hclean => ?_⟩
    obtain ⟨ts, hts, hnames, hfew⟩ := hparams (by omega)
    obtain ⟨us, hus, hbody⟩ := hblock (by omega)
    refine ⟨ts ++ r :: b :: us, by simp [hts, htokens₂, htokens₃, hus], ?_⟩
    rw [hnext₃, hnext₂, hnext] at hbody
    exact .closure hopening hnames hfew hclosing hbody
  split
  · exact htail #[] c (.refl c) rfl fun _ => ⟨[], rfl, .none, Nat.zero_le _⟩
  · refine (reads_parameters fuel #[] c (by omega)).bind ?_
    rintro params c₁ hon ⟨hnext, hparams⟩
    refine htail params c₁ hon hnext fun hclean => ?_
    obtain ⟨ts, hts, more, hmore, hnames, hfew⟩ := hparams hclean
    rw [Array.toList_empty, List.nil_append] at hmore
    rw [hmore] at hfew ⊢
    exact ⟨ts, hts, .some hnames, hfew⟩

theorem reads_namedFunction (ih : Sound fuel) (p : Place) (role : Role) (c : Cursor)
    (hfuel : 40 * c.tokens.length + 1 ≤ fuel + 1) :
    Reads (namedFunction (fuel + 1) p role) c (Builds .function p [] c) := by
  rw [namedFunction]
  refine reads_name ?_
  rintro t c₁ ⟨htokens₁, hshorter₁, hnext₁, herrors₁⟩ hname
  refine reads_expect ?_
  rintro l c₂ ⟨htokens₂, hshorter₂, hnext₂, herrors₂⟩ hopening
  refine (ih.functionTail p t.span role l c₂ hopening (by omega)).bind ?_
  rintro fn c₃ ⟨htokens₃, herrors₃⟩ ⟨-, hclosure⟩
  refine reads_pure ⟨by omega, fun hclean => ?_⟩
  obtain ⟨ts, hts, hd⟩ := hclosure (by omega)
  refine ⟨t :: l :: ts, by simp [htokens₁, htokens₂, hts], ?_⟩
  rw [hnext₂, hnext₁] at hd
  exact .named hname hd

theorem reads_block (ih : Sound fuel) (p : Place) (l : Token) (c : Cursor)
    (hopening : l.kind = .symbol .leftBrace) (hfuel : 40 * c.tokens.length + 23 ≤ fuel + 1) :
    Reads (block (fuel + 1) p) c (Builds .block p [l] c) := by
  rw [block]
  refine reads_nested fun hroom => ?_
  refine (ih.declarations p.deeper #[] c (by omega)).bind ?_
  rintro body c₁ ⟨htokens₁, herrors₁⟩ hbody
  refine reads_expect ?_
  rintro r c₂ ⟨htokens₂, hshorter₂, hnext₂, herrors₂⟩ hclosing
  refine reads_pure ⟨by omega, fun hclean => ?_⟩
  obtain ⟨ts, hts, more, hmore, hd⟩ := hbody (by omega)
  rw [Array.toList_empty, List.nil_append] at hmore
  refine ⟨ts ++ [r], by simp [hts, htokens₂], ?_⟩
  rw [hnext₂, hmore]
  exact .braces hroom hopening hd hclosing

/-- A declaration, and the ones behind it. -/
theorem reaches_declarations {p : Place} {c c₁ c₂ : Cursor} {done : Array Stmt} {s : Stmt}
    {all : List Stmt} (hon₁ : c.Onward c₁) (hon₂ : c₁.Onward c₂)
    (hfirst : Builds .declaration p [] c s c₁)
    (hrest : c₁.Reaches c₂ fun ts => ∃ more, all = (done.push s).toList ++ more ∧
      Derives .declarations p c₁.nextId ts more c₂.nextId) :
    c.Reaches c₂ fun ts => ∃ more, all = done.toList ++ more ∧
      Derives .declarations p c.nextId ts more c₂.nextId := by
  intro hclean
  obtain ⟨htokens₁, herrors₁⟩ := hon₁
  obtain ⟨htokens₂, herrors₂⟩ := hon₂
  obtain ⟨ts, hts, hd⟩ := hfirst.2 (by omega)
  obtain ⟨us, hus, more, rfl, hds⟩ := hrest (by omega)
  exact ⟨ts ++ us, by simp [hts, hus], s :: more, by simp, .declarations hd hds⟩

theorem reads_declarations (ih : Sound fuel) (p : Place) (done : Array Stmt) (c : Cursor)
    (hfuel : 40 * c.tokens.length + 22 ≤ fuel + 1) :
    Reads (declarations (fuel + 1) p done) c fun all c' => c.Reaches c' fun ts =>
      ∃ more, all.toList = done.toList ++ more ∧
        Derives .declarations p c.nextId ts more c'.nextId := by
  rw [declarations]
  refine reads_test ?_
  split
  · exact reads_pure fun _ => ⟨[], rfl, [], by simp, .noDeclaration⟩
  · rename_i hmore
    have hsome : 0 < c.tokens.length := by
      rw [List.length_pos_iff]
      rintro hnil
      simp [Cursor.atEnd, hnil] at hmore
    refine (ih.declaration p c (by omega)).bind ?_
    rintro (_ | s) c₁ hon₁ hresult
    · obtain ⟨herrors₁, hshort⟩ := hresult
      refine (ih.declarations p done c₁ (by have := hshort hsome; omega)).imp ?_
      rintro all c₂ ⟨-, herrors₂⟩ - hclean
      omega
    · refine (ih.declarations p (done.push s) c₁ (by have := hresult.1; omega)).imp ?_
      intro all c₂ hon₂ hrest
      exact reaches_declarations hon₁ hon₂ hresult hrest

theorem reads_declaration (ih : Sound fuel) (p : Place) (c : Cursor)
    (hfuel : 40 * c.tokens.length + 21 ≤ fuel + 1) :
    Reads (declaration (fuel + 1) p) c fun result c' => match result with
      | some s => Builds .declaration p [] c s c'
      | none => c.errors.size < c'.errors.size ∧
        (0 < c.tokens.length → c'.tokens.length < c.tokens.length) := by
  rw [declaration]
  refine (reads_recover (ih.declared p c (by omega))).imp ?_
  rintro (_ | s) c' - h
  · exact h
  · exact h

theorem reads_declared (ih : Sound fuel) (p : Place) (c : Cursor)
    (hfuel : 40 * c.tokens.length + 20 ≤ fuel + 1) :
    Reads (declared (fuel + 1) p) c (Builds .declaration p [] c) := by
  rw [declared]
  refine reads_accept ?_ fun _ => reads_test ?_
  · rintro k c₁ ⟨htokens₁, hshorter₁, hnext₁, herrors₁⟩ hkeyword
    refine (ih.classDeclaration p k c₁ hkeyword (by omega)).imp ?_
    rintro s c₂ ⟨htokens₂, herrors₂⟩ ⟨-, hclass⟩
    refine ⟨by omega, fun hclean => ?_⟩
    obtain ⟨ts, hts, hd⟩ := hclass (by omega)
    rw [hnext₁] at hd
    exact ⟨k :: ts, by simp [htokens₁, hts], .classDeclaration hd⟩
  · split
    · rename_i hboth
      refine reads_accept ?_ ?_
      · rintro k c₁ ⟨htokens₁, hshorter₁, hnext₁, herrors₁⟩ hkeyword
        refine (ih.namedFunction p .function c₁ (by omega)).bind ?_
        rintro m c₂ ⟨htokens₂, herrors₂⟩ ⟨-, hfunction⟩
        refine reads_pure ⟨by omega, fun hclean => ?_⟩
        obtain ⟨ts, hts, hd⟩ := hfunction (by omega)
        rw [hnext₁] at hd
        exact ⟨k :: ts, by simp [htokens₁, hts], .function hkeyword hd⟩
      · intro hsees
        unfold Cursor.seesBoth at hboth
        unfold Cursor.sees at hsees
        split at hboth
        · rename_i s t rest htokens
          rw [htokens] at hsees
          simp_all
        · cases hboth
    · refine reads_accept ?_ fun _ => ?_
      · rintro k c₁ ⟨htokens₁, hshorter₁, hnext₁, herrors₁⟩ hkeyword
        refine (ih.varDeclaration p k c₁ hkeyword (by omega)).imp ?_
        rintro s c₂ ⟨htokens₂, herrors₂⟩ ⟨-, hvariable⟩
        refine ⟨by omega, fun hclean => ?_⟩
        obtain ⟨ts, hts, hd⟩ := hvariable (by omega)
        rw [hnext₁] at hd
        exact ⟨k :: ts, by simp [htokens₁, hts], .varDeclaration hd⟩
      · refine (ih.statement p c (by omega)).imp ?_
        rintro s c₁ - ⟨hshort, hstatement⟩
        refine ⟨hshort, fun hclean => ?_⟩
        obtain ⟨ts, hts, opened, hd, -⟩ := hstatement hclean
        exact ⟨ts, hts, .statement hd⟩

theorem reads_superclassClause (c : Cursor) :
    Reads superclassClause c fun parent c' =>
      c.Reaches c' fun ts => Superclass c.nextId ts parent c'.nextId := by
  rw [superclassClause]
  refine reads_accept ?_ fun _ => reads_pure fun _ => ⟨[], rfl, .none⟩
  rintro l c₁ ⟨htokens₁, hshorter₁, hnext₁, herrors₁⟩ hless
  refine reads_name ?_
  rintro t c₂ ⟨htokens₂, hshorter₂, hnext₂, herrors₂⟩ hname
  refine reads_fresh (reads_pure fun _ => ⟨[l, t], by simp [htokens₁, htokens₂], ?_⟩)
  dsimp only
  rw [hnext₂, hnext₁]
  exact .some hless hname

theorem reads_classDeclaration (ih : Sound fuel) (p : Place) (k : Token) (c : Cursor)
    (hkeyword : k.kind = .keyword .class_) (hfuel : 40 * c.tokens.length + 1 ≤ fuel + 1) :
    Reads (classDeclaration (fuel + 1) p) c (Builds .classDeclaration p [k] c) := by
  rw [classDeclaration]
  refine reads_name ?_
  rintro t c₁ ⟨htokens₁, hshorter₁, hnext₁, herrors₁⟩ hname
  refine (reads_superclassClause c₁).bind ?_
  rintro parent c₂ ⟨htokens₂, herrors₂⟩ hparent
  refine reads_expect ?_
  rintro l c₃ ⟨htokens₃, hshorter₃, hnext₃, herrors₃⟩ hopening
  refine (ih.methods p #[] c₃ (by omega)).bind ?_
  rintro ms c₄ ⟨htokens₄, herrors₄⟩ hmethods
  refine reads_expect ?_
  rintro r c₅ ⟨htokens₅, hshorter₅, hnext₅, herrors₅⟩ hclosing
  refine reads_pure ⟨by omega, fun hclean => ?_⟩
  obtain ⟨ts, hts, hparent⟩ := hparent (by omega)
  obtain ⟨us, hus, more, hmore, hd⟩ := hmethods (by omega)
  rw [Array.toList_empty, List.nil_append] at hmore
  refine ⟨t :: (ts ++ l :: (us ++ [r])), by simp [htokens₁, hts, htokens₃, hus, htokens₅], ?_⟩
  rw [hnext₁] at hparent
  rw [hnext₃] at hd
  rw [hnext₅, hmore]
  exact .class_ hkeyword hname hparent hopening hd hclosing

theorem reads_methods (ih : Sound fuel) (p : Place) (done : Array Method) (c : Cursor)
    (hfuel : 40 * c.tokens.length + 2 ≤ fuel + 1) :
    Reads (methods (fuel + 1) p done) c fun all c' => c.Reaches c' fun ts =>
      ∃ more, all.toList = done.toList ++ more ∧
        Derives .methods p c.nextId ts more c'.nextId := by
  rw [methods]
  refine reads_test ?_
  split
  · exact reads_pure fun _ => ⟨[], rfl, [], by simp, .noMethod⟩
  · refine (ih.namedFunction p .method c (by omega)).bind ?_
    rintro m c₁ ⟨htokens₁, herrors₁⟩ ⟨hshort, hfunction⟩
    refine (ih.methods p (done.push m) c₁ (by omega)).imp ?_
    rintro all c₂ ⟨htokens₂, herrors₂⟩ hrest hclean
    obtain ⟨ts, hts, hd⟩ := hfunction (by omega)
    obtain ⟨us, hus, more, hmore, hds⟩ := hrest (by omega)
    exact ⟨ts ++ us, by simp [hts, hus], m :: more, by simp [hmore], .methods hd hds⟩

theorem reads_varDeclaration (ih : Sound fuel) (p : Place) (k : Token) (c : Cursor)
    (hkeyword : k.kind = .keyword .var) (hfuel : 40 * c.tokens.length + 1 ≤ fuel + 1) :
    Reads (varDeclaration (fuel + 1) p) c (Builds .varDeclaration p [k] c) := by
  rw [varDeclaration]
  refine reads_name ?_
  rintro t c₁ ⟨htokens₁, hshorter₁, hnext₁, herrors₁⟩ hname
  refine reads_accept ?_ fun _ => ?_
  · rintro q c₂ ⟨htokens₂, hshorter₂, hnext₂, herrors₂⟩ hequal
    have hinitializer : Reads (some <$> expression fuel p) c₂ fun initializer c' =>
        ∃ e, initializer = some e ∧ Builds .expression p [] c₂ e c' :=
      ((ih.expression p c₂ (by omega)).imp fun e c' _ h => ⟨e, rfl, h⟩).map
    refine hinitializer.bind ?_
    rintro initializer c₃ ⟨htokens₃, herrors₃⟩ ⟨e, rfl, -, hvalue⟩
    refine reads_expect ?_
    rintro last c₄ ⟨htokens₄, hshorter₄, hnext₄, herrors₄⟩ hending
    refine reads_pure ⟨by omega, fun hclean => ?_⟩
    obtain ⟨ts, hts, hd⟩ := hvalue (by omega)
    refine ⟨t :: q :: (ts ++ [last]), by simp [htokens₁, htokens₂, hts, htokens₄], ?_⟩
    rw [hnext₂, hnext₁] at hd
    rw [hnext₄]
    exact .initialized hkeyword hname hequal hd hending
  · refine reads_expect ?_
    rintro last c₂ ⟨htokens₂, hshorter₂, hnext₂, herrors₂⟩ hending
    refine reads_pure ⟨by omega, fun hclean => ?_⟩
    refine ⟨[t, last], by simp [htokens₁, htokens₂], ?_⟩
    rw [hnext₂, hnext₁]
    exact .uninitialized hkeyword hname hending

theorem reads_statement (ih : Sound fuel) (p : Place) (c : Cursor)
    (hfuel : 40 * c.tokens.length + 19 ≤ fuel + 1) :
    Reads (statement (fuel + 1) p) c fun s c' =>
      BuildsStatement (fun o ts => Derives (.statement o) p c.nextId ts s c'.nextId) c c' := by
  rw [statement]
  refine reads_nested fun hroom => ?_
  refine (ih.statementBody p.deeper c (by omega)).imp ?_
  rintro s c₁ - ⟨hshort, hbody⟩
  refine ⟨hshort, fun hclean => ?_⟩
  obtain ⟨ts, hts, opened, hd, helse⟩ := hbody hclean
  exact ⟨ts, hts, opened, .nested hroom hd, helse⟩

/-- A statement after its keyword. -/
theorem buildsStatement_keyword {derives derives' : Bool → List Token → Prop} {k : Token}
    {c c₁ c₂ : Cursor} (hk : c.Takes k c₁) (h : BuildsStatement derives' c₁ c₂)
    (hderives : ∀ o ts, derives' o ts → derives o (k :: ts)) : BuildsStatement derives c c₂ := by
  obtain ⟨htokens₁, hshorter₁, -, herrors₁⟩ := hk
  obtain ⟨hshort, hbody⟩ := h
  refine ⟨by omega, fun hclean => ?_⟩
  obtain ⟨ts, hts, opened, hd, helse⟩ := hbody (by omega)
  exact ⟨k :: ts, by simp [htokens₁, hts], opened, hderives opened ts hd, helse⟩

theorem reads_statementBody (ih : Sound fuel) (p : Place) (c : Cursor)
    (hfuel : 40 * c.tokens.length + 18 ≤ fuel + 1) :
    Reads (statementBody (fuel + 1) p) c fun s c' =>
      BuildsStatement (fun o ts => Derives (.statementBody o) p c.nextId ts s c'.nextId) c c' := by
  rw [statementBody]
  refine reads_accept ?for_ fun _ => reads_accept ?if_ fun _ => reads_accept ?while_ fun _ =>
    reads_accept ?break_ fun _ => reads_accept ?return_ fun _ => reads_accept ?block fun _ =>
    reads_accept ?print fun _ => ?expression
  case for_ =>
    intro k c₁ hk hkeyword
    have hshorter := hk.shorter
    refine (ih.forStatement p k c₁ hkeyword (by omega)).imp fun s c₂ _ h => ?_
    rw [hk.nextId] at h
    exact buildsStatement_keyword hk h fun _ _ => .forStatement
  case if_ =>
    intro k c₁ hk hkeyword
    have hshorter := hk.shorter
    refine (ih.ifStatement p k c₁ hkeyword (by omega)).imp fun s c₂ _ h => ?_
    rw [hk.nextId] at h
    exact buildsStatement_keyword hk h fun _ _ => .ifStatement
  case while_ =>
    intro k c₁ hk hkeyword
    have hshorter := hk.shorter
    refine (ih.whileStatement p k c₁ hkeyword (by omega)).imp fun s c₂ _ h => ?_
    rw [hk.nextId] at h
    exact buildsStatement_keyword hk h fun _ _ => .whileStatement
  case break_ =>
    rintro k c₁ ⟨htokens₁, hshorter₁, hnext₁, herrors₁⟩ hkeyword
    unfold breakStatement
    refine reads_noteIf reads_note ?_
    rintro c₂ ⟨-, herrors₂⟩ htokens₂ hnext₂ houtside
    refine reads_expect ?_
    rintro last c₃ ⟨htokens₃, hshorter₃, hnext₃, herrors₃⟩ hending
    refine reads_pure ⟨by rw [htokens₂] at hshorter₃; omega, fun hclean => ?_⟩
    have hinside : p.inLoop = true := by
      cases hloop : p.inLoop with
      | true => rfl
      | false =>
        have := houtside (by rw [hloop]; rfl)
        omega
    refine ⟨[k, last], by simp [htokens₁, ← htokens₂, htokens₃], false, ?_, by simp⟩
    rw [hnext₃, hnext₂, hnext₁]
    exact .breakStatement (.break_ hkeyword hinside hending)
  case return_ =>
    rintro k c₁ ⟨htokens₁, hshorter₁, hnext₁, herrors₁⟩ hkeyword
    refine (ih.returnStatement p k c₁ hkeyword (by omega)).imp ?_
    rintro s c₂ ⟨htokens₂, herrors₂⟩ ⟨-, hreturn⟩
    refine ⟨by omega, fun hclean => ?_⟩
    obtain ⟨ts, hts, hd⟩ := hreturn (by omega)
    refine ⟨k :: ts, by simp [htokens₁, hts], false, ?_, by simp⟩
    rw [hnext₁] at hd
    exact .returnStatement hd
  case block =>
    rintro l c₁ ⟨htokens₁, hshorter₁, hnext₁, herrors₁⟩ hopening
    refine (ih.block p l c₁ hopening (by omega)).bind ?_
    rintro ⟨body, close⟩ c₂ ⟨htokens₂, herrors₂⟩ ⟨hshort, hblock⟩
    refine reads_pure ⟨by omega, fun hclean => ?_⟩
    obtain ⟨ts, hts, hd⟩ := hblock (by omega)
    refine ⟨l :: ts, by simp [htokens₁, hts], false, ?_, by simp⟩
    rw [hnext₁] at hd
    exact .block hd
  case print =>
    rintro k c₁ ⟨htokens₁, hshorter₁, hnext₁, herrors₁⟩ hkeyword
    refine (ih.expression p c₁ (by omega)).bind ?_
    rintro e c₂ ⟨htokens₂, herrors₂⟩ ⟨-, hvalue⟩
    refine reads_expect ?_
    rintro last c₃ ⟨htokens₃, hshorter₃, hnext₃, herrors₃⟩ hending
    refine reads_pure ⟨by omega, fun hclean => ?_⟩
    obtain ⟨ts, hts, hd⟩ := hvalue (by omega)
    refine ⟨k :: (ts ++ [last]), by simp [htokens₁, hts, htokens₃], false, ?_, by simp⟩
    rw [hnext₁] at hd
    rw [hnext₃]
    exact .printStatement (.print hkeyword hd hending)
  case expression =>
    refine (ih.expressionStatement p c (by omega)).imp ?_
    rintro s c₁ - ⟨hshort, hstatement⟩
    refine ⟨hshort, fun hclean => ?_⟩
    obtain ⟨ts, hts, hd⟩ := hstatement hclean
    exact ⟨ts, hts, false, .expressionStatement hd, by simp⟩

theorem reads_expressionStatement (ih : Sound fuel) (p : Place) (c : Cursor)
    (hfuel : 40 * c.tokens.length + 17 ≤ fuel + 1) :
    Reads (expressionStatement (fuel + 1) p) c (Builds .expressionStatement p [] c) := by
  rw [expressionStatement]
  refine (ih.expression p c (by omega)).bind ?_
  rintro e c₁ ⟨htokens₁, herrors₁⟩ ⟨-, hvalue⟩
  refine reads_expect ?_
  rintro last c₂ ⟨htokens₂, hshorter₂, hnext₂, herrors₂⟩ hending
  refine reads_pure ⟨by omega, fun hclean => ?_⟩
  obtain ⟨ts, hts, hd⟩ := hvalue (by omega)
  refine ⟨ts ++ [last], by simp [hts, htokens₂], ?_⟩
  rw [hnext₂]
  exact .terminated hd hending

end Lox.Grammar
