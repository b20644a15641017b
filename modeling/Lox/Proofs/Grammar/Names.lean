import Lox.Proofs.Grammar.Derivation
import Lox.Proofs.Syntax.Parts
import Lox.Token.Lexer

/-! # Words

A word is a keyword or an identifier, never both: what a token calls an
identifier is no keyword. -/

namespace Lox

/-- A word that is no keyword. -/
def Ordinary (word : String) : Prop := Keyword.ofText? word = none

instance (word : String) : Decidable (Ordinary word) := by unfold Ordinary; infer_instance

theorem Ordinary.ne {word : String} (h : Ordinary word) (k : Keyword) : word ≠ k.text := by
  rintro rfl
  revert h
  cases k <;> decide

/-- The identifiers among some tokens are such words. -/
def Spelled (word : String → Prop) (ts : List Token) : Prop :=
  ∀ t ∈ ts, t.kind = .identifier → word t.lexeme

/-- The identifiers among some tokens are ordinary words. -/
abbrev Worded : List Token → Prop := Spelled Ordinary

section

variable {word : String → Prop}

@[simp] theorem spelled_append {ts us : List Token} :
    Spelled word (ts ++ us) ↔ Spelled word ts ∧ Spelled word us := List.forall_mem_append

@[simp] theorem spelled_cons {t : Token} {ts : List Token} :
    Spelled word (t :: ts) ↔ (t.kind = .identifier → word t.lexeme) ∧ Spelled word ts :=
  List.forall_mem_cons

end

namespace Lexer

/-- An item that is an identifier is an ordinary word. -/
def Item.Worded : Item → Prop
  | .token t => t.kind = .identifier → Ordinary t.lexeme
  | .fault .. => True

theorem take_takeWhile {α : Type} (p : α → Bool) (xs : List α) :
    xs.take (xs.takeWhile p).length = xs.takeWhile p :=
  (List.prefix_iff_eq_take.mp (List.takeWhile_prefix p)).symm

theorem cutSlash_ne_identifier (cs : List Char) :
    (cutSlash cs).piece ≠ .token .identifier := by
  unfold cutSlash
  split
  · exact nofun
  · split <;> exact nofun
  · exact nofun

theorem cutString_ne_identifier (cs : List Char) :
    (cutString cs).piece ≠ .token .identifier := by
  unfold cutString
  dsimp only
  split <;> simp

theorem cutNumber_ne_identifier (c : Char) (cs : List Char) :
    (cutNumber c cs).piece ≠ .token .identifier := by
  unfold cutNumber
  dsimp only
  split
  · split <;> exact nofun
  · exact nofun

/-- Only a word is cut as an identifier. -/
theorem cut_word (c : Char) (cs : List Char) :
    cut c cs = cutWord c cs ∨ (cut c cs).piece ≠ .token .identifier := by
  unfold cut
  repeat' split
  all_goals first
    | exact .inr (cutSlash_ne_identifier cs)
    | exact .inr (cutString_ne_identifier cs)
    | exact .inr (cutNumber_ne_identifier c cs)
    | exact .inl rfl
    | exact .inr nofun

theorem ordinary_cut {c : Char} {cs : List Char} (h : (cut c cs).piece = .token .identifier) :
    Ordinary (String.ofList (c :: cs.take (cut c cs).extra)) := by
  have hcut := (cut_word c cs).resolve_right (not_not_intro h)
  rw [hcut] at h ⊢
  unfold cutWord at h ⊢
  dsimp only at h ⊢
  rw [take_takeWhile]
  unfold wordKind at h
  split at h
  · cases h
  · next hnone => exact hnone

theorem worded_item {c : Char} {cs : List Char} {start stop : Nat} {item : Item}
    (h : (cut c cs).piece.item? (c :: cs.take (cut c cs).extra) start stop = some item) :
    item.Worded := by
  cases hpiece : (cut c cs).piece with
  | token kind =>
    rw [hpiece] at h
    obtain rfl := Option.some.inj h
    intro hkind
    exact ordinary_cut (hpiece.trans (congrArg _ hkind))
  | blank =>
    rw [hpiece] at h
    cases h
  | _ =>
    rw [hpiece] at h
    obtain rfl := Option.some.inj h
    trivial

theorem worded_scanFrom (offset : Nat) (items : Array Item) (cs : List Char)
    (h : ∀ item ∈ items, item.Worded) : ∀ item ∈ (scanFrom offset items cs).items, item.Worded := by
  fun_induction scanFrom offset items cs with
  | case1 => exact h
  | case2 offset items c cs head lexeme stop items' ih =>
    refine ih ?_
    intro item hitem
    simp only [items'] at hitem
    split at hitem
    · next new hnew =>
      rcases Array.mem_push.mp hitem with hold | rfl
      · exact h item hold
      · exact worded_item hnew
    · exact h item hitem

/-- The identifiers of a text are ordinary words. -/
theorem worded_scan (source : String) : Worded (scan source).tokens.tokens := by
  intro t ht
  obtain ⟨item, hitem, htoken⟩ := List.mem_filterMap.mp ht
  have hworded := worded_scanFrom 0 #[] source.toList (fun item hmem => by cases Array.not_mem_empty item hmem)
    item (Array.mem_toList_iff.mp hitem)
  cases item with
  | token u =>
    obtain rfl := Option.some.inj htoken
    exact hworded
  | fault => cases htoken

end Lexer
end Lox

/-! # The names of derived trees

All names in a derived tree were identifiers among its tokens, so what holds of
those holds of all names. None of them is a keyword. -/

namespace Lox.Grammar

variable {word : String → Prop}

/-- All names are such words. -/
def Only (word : String → Prop) (names : List String) : Prop := ∀ name ∈ names, word name

/-- No name is a keyword. -/
abbrev Named : List String → Prop := Only Ordinary

@[simp] theorem named_nil : Only word [] := fun _ h => nomatch h

@[simp] theorem named_cons {name : String} {names : List String} :
    Only word (name :: names) ↔ word name ∧ Only word names := List.forall_mem_cons

@[simp] theorem named_append {names names' : List String} :
    Only word (names ++ names') ↔ Only word names ∧ Only word names' := List.forall_mem_append

/-- The names in the tree of a phrase. -/
def Phrase.names : (phrase : Phrase) → phrase.Tree → List String
  | .declarations, ss => Names.stmts ss
  | .declaration, s | .classDeclaration, s | .varDeclaration, s | .statement _, s
  | .statementBody _, s | .expressionStatement, s | .printStatement, s | .ifStatement _, s
  | .whileStatement _, s | .forStatement _, s | .breakStatement, s | .returnStatement, s =>
    Names.stmt s
  | .methods, ms => Names.methods ms
  | .function, m => m.name.text :: Names.lambda m.fn
  | .closure _, fn => Names.lambda fn
  | .block, b => Names.stmts b.1
  | .initializer, s => (s.map Names.stmt).getD []
  | .optionalExpression, e => (e.map Names.expr).getD []
  | .argumentList, es | .arguments, es => Names.exprs es
  | .expression, e | .assignment, e | .operation _, e | .chain _ _, e | .operand _, e | .unary, e
  | .call, e | .suffixes _, e | .primary, e => Names.expr e

/-- All names in the tree of a phrase are such words, if those in the tree that it leans on are. -/
def Phrase.Only (word : String → Prop) : (phrase : Phrase) → phrase.Tree → Prop
  | .chain _ left, e => Grammar.Only word (Names.expr left) → Grammar.Only word (Names.expr e)
  | .suffixes callee, e => Grammar.Only word (Names.expr callee) → Grammar.Only word (Names.expr e)
  | phrase, a => Grammar.Only word (phrase.names a)

theorem Names.named {ts : List Token} {names : List Ident} (h : Names ts names) (hts : Spelled word ts) :
    Only word (names.map Ident.text) := by
  induction h with
  | last name => simpa [Token.ident] using (spelled_cons.mp hts).1 name
  | more name _ _ ih =>
    simp only [spelled_cons] at hts
    exact named_cons.mpr ⟨hts.1 name, ih hts.2.2⟩

theorem Parameters.named {ts : List Token} {names : List Ident} (h : Parameters ts names)
    (hts : Spelled word ts) : Only word (names.map Ident.text) := by
  cases h with
  | none => exact named_nil
  | some list => exact list.named hts

theorem named_apply {op : Operator} {left right : Expr} {span : Span}
    (hleft : Only word (Names.expr left)) (hright : Only word (Names.expr right)) :
    Only word (Names.expr (op.apply left span right)) := by
  cases op <;> exact named_append.mpr ⟨hleft, hright⟩

theorem named_desugarFor (k : Span) {i : Option Stmt} {c j : Option Expr} {s : Stmt}
    (hi : Phrase.initializer.Only word i) (hc : Phrase.optionalExpression.Only word c)
    (hj : Phrase.optionalExpression.Only word j) (hs : Only word (Names.stmt s)) :
    Only word (Names.stmt (desugarFor k i c j s)) := by
  simp only [Phrase.Only, Phrase.names] at hi hc hj
  cases i <;> cases c <;> cases j <;>
    simp_all [desugarFor, Names.stmt, Names.stmts, Names.expr]

variable {phrase : Phrase} {p : Place} {n n' : Nat} {ts : List Token}

/-- The identifiers of a derived tree are identifiers of its tokens. -/
theorem Derives.spelled {a : phrase.Tree} (h : Derives phrase p n ts a n') :
    Spelled word ts → phrase.Only word a := by
  induction h with
  | noDeclaration | noMethod | noArguments | noExpression | noInitializer | break_ | literal
  | this => exact fun _ => named_nil
  | noOperator | noSuffix => exact fun _ => id
  | classDeclaration _ ih | varDeclaration _ ih | statement _ ih | nested _ _ ih
  | expressionStatement _ ih | printStatement _ ih | ifStatement _ ih | whileStatement _ ih
  | forStatement _ ih | breakStatement _ ih | returnStatement _ ih | block _ ih
  | declaring _ ih | evaluating _ ih | someExpression _ ih | expression _ _ ih | operators _ ih
  | tighter _ _ ih | tightest _ _ ih | noUnary _ ih | someArguments _ ih => exact ih
  | declarations _ _ ihfirst ihrest =>
    intro hts
    rw [spelled_append] at hts
    exact named_append.mpr ⟨ihfirst hts.1, ihrest hts.2⟩
  | function _ _ ih =>
    intro hts
    exact ih (spelled_cons.mp hts).2
  | @class_ _ _ _ _ _ parent _ _ _ _ _ _ _ name superclass _ _ _ ih =>
    intro hts
    simp only [spelled_cons, spelled_append] at hts
    obtain ⟨-, hname, hsuper, -, hmethods, -⟩ := hts
    cases superclass with
    | none => exact named_cons.mpr ⟨hname name, ih hmethods⟩
    | some _ word =>
      simp only [spelled_cons] at hsuper
      exact named_cons.mpr ⟨hname name, named_cons.mpr ⟨hsuper.2.1 word, ih hmethods⟩⟩
  | @methods _ _ _ m _ _ _ _ _ _ ihfirst ihrest =>
    intro hts
    rw [spelled_append] at hts
    cases m
    have hfirst := named_cons.mp (ihfirst hts.1)
    exact named_cons.mpr ⟨hfirst.1, named_append.mpr ⟨hfirst.2, ihrest hts.2⟩⟩
  | named name _ ih =>
    intro hts
    rw [spelled_cons] at hts
    exact named_cons.mpr ⟨hts.1 name, ih hts.2⟩
  | closure _ parameters _ _ _ ih =>
    intro hts
    simp only [spelled_cons, spelled_append] at hts
    exact named_append.mpr ⟨parameters.named hts.2.1, ih hts.2.2.2⟩
  | braces _ _ _ _ ih =>
    intro hts
    simp only [spelled_cons, spelled_append] at hts
    exact ih hts.2.1
  | uninitialized _ name _ =>
    intro hts
    simp only [spelled_cons] at hts
    exact named_cons.mpr ⟨hts.2.1 name, named_nil⟩
  | initialized _ name _ _ _ ih =>
    intro hts
    simp only [spelled_cons, spelled_append] at hts
    exact named_cons.mpr ⟨hts.2.1 name, ih hts.2.2.2.1⟩
  | print _ _ _ ih =>
    intro hts
    simp only [spelled_cons, spelled_append] at hts
    exact ih hts.2.1
  | ifThen _ _ _ _ _ ihcondition ihbranch =>
    intro hts
    simp only [spelled_cons, spelled_append] at hts
    exact named_append.mpr ⟨ihcondition hts.2.2.1, ihbranch hts.2.2.2.2⟩
  | ifElse _ _ _ _ _ _ _ ihcondition ihthen ihelse =>
    intro hts
    simp only [spelled_cons, spelled_append] at hts
    obtain ⟨-, -, hcondition, -, hthen, -, helse⟩ := hts
    exact named_append.mpr
      ⟨named_append.mpr ⟨ihcondition hcondition, ihthen hthen⟩, ihelse helse⟩
  | while_ _ _ _ _ _ ihcondition ihbody =>
    intro hts
    simp only [spelled_cons, spelled_append] at hts
    exact named_append.mpr ⟨ihcondition hts.2.2.1, ihbody hts.2.2.2.2⟩
  | @for_ _ _ k _ _ _ _ _ _ _ _ _ _ _ _ _ _ _ _ _ _ _ _ _ _ _ _ ihstart ihcondition ihstep
      ihbody =>
    intro hts
    simp only [spelled_cons, spelled_append] at hts
    obtain ⟨-, -, hstart, hcondition, -, hstep, -, hbody⟩ := hts
    exact named_desugarFor k.span (ihstart hstart) (ihcondition hcondition) (ihstep hstep)
      (ihbody hbody)
  | @return_ _ _ _ _ v _ _ _ _ _ ih =>
    intro hts
    simp only [spelled_cons, spelled_append] at hts
    cases v with
    | none => exact named_nil
    | some value => exact ih hts.2.1
  | terminated _ _ ih =>
    intro hts
    exact ih (spelled_append.mp hts).1
  | assign name _ _ ih =>
    intro hts
    simp only [spelled_cons] at hts
    exact named_cons.mpr ⟨hts.1 name, ih hts.2.2⟩
  | set _ _ name _ _ ihobject ihvalue =>
    intro hts
    simp only [spelled_cons, spelled_append] at hts
    obtain ⟨hobject, -, hname, -, hvalue⟩ := hts
    exact named_cons.mpr ⟨hname name, named_append.mpr ⟨ihobject hobject, ihvalue hvalue⟩⟩
  | operation _ _ ihfirst ihrest | call _ _ ihfirst ihrest =>
    intro hts
    rw [spelled_append] at hts
    exact ihrest hts.2 (ihfirst hts.1)
  | operator _ _ _ ihright ihrest =>
    intro hts hleft
    simp only [spelled_cons, spelled_append] at hts
    exact ihrest hts.2.2 (named_apply hleft (ihright hts.2.1))
  | unary _ _ _ ih =>
    intro hts
    exact ih (spelled_cons.mp hts).2
  | apply _ _ _ _ _ ihargs ihrest =>
    intro hts hcallee
    simp only [spelled_cons, spelled_append] at hts
    exact ihrest hts.2.2.2 (named_append.mpr ⟨hcallee, ihargs hts.2.1⟩)
  | get _ name _ ih =>
    intro hts hcallee
    simp only [spelled_cons] at hts
    exact ih hts.2.2 (named_cons.mpr ⟨hts.2.1 name, hcallee⟩)
  | lastArgument _ ih => exact fun hts => named_append.mpr ⟨ih hts, named_nil⟩
  | moreArguments _ _ _ ihvalue ihrest =>
    intro hts
    simp only [spelled_cons, spelled_append] at hts
    exact named_append.mpr ⟨ihvalue hts.1, ihrest hts.2.2⟩
  | var name =>
    intro hts
    exact named_cons.mpr ⟨(spelled_cons.mp hts).1 name, named_nil⟩
  | grouping _ _ _ ih =>
    intro hts
    simp only [spelled_cons, spelled_append] at hts
    exact ih hts.2.1
  | super _ _ name =>
    intro hts
    simp only [spelled_cons] at hts
    exact named_cons.mpr ⟨hts.2.2.1 name, named_nil⟩
  | lambda _ _ ih =>
    intro hts
    exact ih (spelled_cons.mp hts).2

end Lox.Grammar
