import Lox.Proofs.Grammar.Derivation
import Lox.Proofs.Grammar.Names
import Lox.Proofs.Grammar.Plain
import Lox.Proofs.Grammar.Sound
import Lox.Proofs.Renumber.Parse
import Lox.Proofs.Session.Inputs
import Lox.Proofs.Syntax.Nodes

/-! # The numbers of derived trees

The nodes of a derived tree take numbers from those that were drawn for it, and
no two nodes take the same one. -/

namespace Lox.Grammar

/-- Numbers that are all different, from `n` on and below `n'`. -/
structure Drawn (n : Nat) (ids : List Nat) (n' : Nat) : Prop where
  le : n ≤ n'
  nodup : ids.Nodup
  bounds : ∀ id ∈ ids, n ≤ id ∧ id < n'

variable {n n' n'' : Nat} {drawn drawn' : List Nat}

theorem drawn_nil : Drawn n [] n := ⟨Nat.le_refl n, .nil, by simp⟩

theorem drawn_one : Drawn n [n] (n + 1) := ⟨Nat.le_succ n, by simp, by simp⟩

theorem Drawn.append (h : Drawn n drawn n') (h' : Drawn n' drawn' n'') : Drawn n (drawn ++ drawn') n'' := by
  have hle := h.le
  have hle' := h'.le
  refine ⟨by omega, ?_, ?_⟩
  · rw [List.nodup_append]
    refine ⟨h.nodup, h'.nodup, ?_⟩
    intro a ha b hb hab
    have := h.bounds a ha
    have := h'.bounds b hb
    omega
  · intro id hid
    rcases List.mem_append.mp hid with hid | hid
    · have := h.bounds id hid
      omega
    · have := h'.bounds id hid
      omega

theorem Drawn.perm (h : Drawn n drawn n') (hperm : drawn.Perm drawn') : Drawn n drawn' n' :=
  ⟨h.le, hperm.nodup_iff.mp h.nodup, fun id hid => h.bounds id (hperm.mem_iff.mpr hid)⟩

theorem Drawn.of_eq (h : Drawn n drawn n') (heq : drawn = drawn') : Drawn n drawn' n' := heq ▸ h

/-- The number of an assignment is drawn last and stands first, and one before its value is lost. -/
theorem Drawn.assign (h : Drawn (n + 1) drawn n') : Drawn n (n' :: drawn) (n' + 1) := by
  have hle := h.le
  refine ⟨by omega, ?_, ?_⟩
  · rw [List.nodup_cons]
    refine ⟨fun hmem => ?_, h.nodup⟩
    have := h.bounds n' hmem
    omega
  · intro id hid
    rcases List.mem_cons.mp hid with rfl | hid
    · omega
    · have := h.bounds id hid
      omega

/-- The numbers in the tree of a phrase. -/
def Phrase.ids : (phrase : Phrase) → phrase.Tree → List Nat
  | .declarations, ss => Nodes.stmts [] ss
  | .declaration, s | .classDeclaration, s | .varDeclaration, s | .statement _, s
  | .statementBody _, s | .expressionStatement, s | .printStatement, s | .ifStatement _, s
  | .whileStatement _, s | .forStatement _, s | .breakStatement, s | .returnStatement, s =>
    Nodes.stmt [] s
  | .methods, ms => Nodes.methods [] ms
  | .function, m => Nodes.lambda [] m.fn
  | .closure _, fn => Nodes.lambda [] fn
  | .block, b => Nodes.stmts [] b.1
  | .initializer, s => (s.map (Nodes.stmt [])).getD []
  | .optionalExpression, e => (e.map (Nodes.expr [])).getD []
  | .argumentList, es | .arguments, es => Nodes.exprs [] es
  | .expression, e | .assignment, e | .operation _, e | .chain _ _, e | .operand _, e | .unary, e
  | .call, e | .suffixes _, e | .primary, e => Nodes.expr [] e

/-- The numbers that are drawn for a phrase. What leans on a tree before it draws
none for that tree. -/
def Phrase.Draws : (phrase : Phrase) → Nat → phrase.Tree → Nat → Prop
  | .chain _ left, n, e, n' => ∃ new, Nodes.expr [] e = Nodes.expr [] left ++ new ∧ Drawn n new n'
  | .suffixes callee, n, e, n' =>
    ∃ new, Nodes.expr [] e = Nodes.expr [] callee ++ new ∧ Drawn n new n'
  | phrase, n, a, n' => Drawn n (phrase.ids a) n'

theorem ids_apply (op : Operator) (left : Expr) (span : Span) (right : Expr) :
    Nodes.expr [] (op.apply left span right) = Nodes.expr [] left ++ Nodes.expr [] right := by
  cases op <;> exact Nodes.expr_append left _

theorem ids_methods (m : Method) (ms : List Method) :
    Nodes.methods [] (m :: ms) = Nodes.lambda [] m.fn ++ Nodes.methods [] ms := by
  cases m
  exact Nodes.lambda_append _ _

/-- The increment of a `for` is read before the body and stands behind it. -/
theorem ids_increment (j : Option Expr) (s : Stmt) :
    (Phrase.optionalExpression.ids j ++ Nodes.stmt [] s).Perm
      (Nodes.stmt [] (match j with
        | some step => .block [s, .expression step]
        | none => s)) := by
  cases j with
  | none => exact .refl _
  | some step =>
    have hblock : Nodes.stmt [] (.block [s, .expression step]) =
        Nodes.stmt [] s ++ Nodes.expr [] step := Nodes.stmt_append s _
    rw [hblock]
    exact List.perm_append_comm

theorem ids_desugarFor (k : Span) (i : Option Stmt) (c j : Option Expr) (s : Stmt) :
    (Phrase.initializer.ids i ++ (Phrase.optionalExpression.ids c ++
      (Phrase.optionalExpression.ids j ++ Nodes.stmt [] s))).Perm
        (Nodes.stmt [] (desugarFor k i c j s)) := by
  have hcondition : Phrase.optionalExpression.ids c =
      Nodes.expr [] (c.getD (.literal (.bool true) k)) := by
    cases c <;> rfl
  have hloop := (ids_increment j s).append_left (Phrase.optionalExpression.ids c)
  rw [hcondition] at hloop ⊢
  have hwhile (condition : Expr) (body : Stmt) : Nodes.stmt [] (.while_ condition body) =
      Nodes.expr [] condition ++ Nodes.stmt [] body := Nodes.expr_append condition _
  cases i with
  | none =>
    have h := hloop
    rw [← hwhile] at h
    exact h
  | some start =>
    have hblock (loop : Stmt) : Nodes.stmt [] (.block [start, loop]) =
        Nodes.stmt [] start ++ Nodes.stmt [] loop := Nodes.stmt_append start _
    have h := hloop.append_left (Nodes.stmt [] start)
    rw [← hwhile, ← hblock] at h
    exact h

variable {phrase : Phrase} {p : Place} {ts : List Token}

theorem Derives.draws {a : phrase.Tree} (h : Derives phrase p n ts a n') :
    phrase.Draws n a n' := by
  induction h with
  | noDeclaration => exact drawn_nil
  | @declarations _ _ _ s _ _ ss _ _ _ ihfirst ihrest =>
    exact Drawn.of_eq (Drawn.append ihfirst ihrest) (Nodes.stmt_append s (Nodes.stmts [] ss)).symm
  | classDeclaration _ ih => exact ih
  | function _ _ ih => exact ih
  | varDeclaration _ ih => exact ih
  | statement _ ih => exact ih
  | @class_ _ _ _ t _ parent _ _ _ ms _ _ _ _ superclass _ _ _ ih =>
    cases superclass with
    | none => exact ih
    | some => exact drawn_one.append ih
  | noMethod => exact drawn_nil
  | @methods _ _ _ m _ _ ms _ _ _ ihfirst ihrest =>
    exact Drawn.of_eq (Drawn.append ihfirst ihrest) (ids_methods m ms).symm
  | named _ _ ih => exact ih
  | closure _ _ _ _ _ ih => exact ih
  | braces _ _ _ _ ih => exact ih
  | uninitialized => exact drawn_nil
  | initialized _ _ _ _ _ ih => exact ih
  | nested _ _ ih => exact ih
  | expressionStatement _ ih => exact ih
  | printStatement _ ih => exact ih
  | ifStatement _ ih => exact ih
  | whileStatement _ ih => exact ih
  | forStatement _ ih => exact ih
  | breakStatement _ ih => exact ih
  | returnStatement _ ih => exact ih
  | block _ ih => exact ih
  | print _ _ _ ih => exact ih
  | @ifThen _ _ _ _ _ c _ _ _ _ s _ _ _ _ _ _ ihcondition ihbranch =>
    exact Drawn.of_eq (Drawn.append ihcondition ihbranch) (Nodes.expr_append c (Nodes.stmt [] s)).symm
  | @ifElse _ _ _ _ _ c _ _ _ s _ _ _ _ s' _ _ _ _ _ _ _ _ ihcondition ihthen ihelse =>
    have h := Drawn.append ihcondition (Drawn.append ihthen ihelse)
    have hids : Nodes.stmt [] (.ifElse c s (some s')) =
        Nodes.expr [] c ++ (Nodes.stmt [] s ++ Nodes.stmt [] s') := by
      rw [Nodes.stmt, Nodes.stmt_append s, Nodes.expr_append c]
    exact h.of_eq hids.symm
  | @while_ _ _ _ _ _ c _ _ _ _ s _ _ _ _ _ _ ihcondition ihbody =>
    exact Drawn.of_eq (Drawn.append ihcondition ihbody) (Nodes.expr_append c (Nodes.stmt [] s)).symm
  | @for_ _ _ k _ _ i _ _ c _ _ _ j _ _ _ _ s _ _ _ _ _ _ _ _ _ ihstart ihcondition ihstep
      ihbody =>
    have h := Drawn.append ihstart (Drawn.append ihcondition (Drawn.append ihstep ihbody))
    exact h.perm (ids_desugarFor k.span i c j s)
  | break_ => exact drawn_nil
  | @return_ _ _ _ _ v _ _ _ _ _ ih =>
    cases v with
    | none => exact ih
    | some => exact ih
  | terminated _ _ ih => exact ih
  | noInitializer => exact drawn_nil
  | declaring _ ih => exact ih
  | evaluating _ ih => exact ih
  | noExpression => exact drawn_nil
  | someExpression _ ih => exact ih
  | expression _ _ ih => exact ih
  | assign _ _ _ ih => exact Drawn.assign ih
  | @set _ _ _ o _ _ _ _ _ e _ _ _ _ _ _ ihobject ihvalue =>
    exact Drawn.of_eq (Drawn.append ihobject ihvalue) (Nodes.expr_append o (Nodes.expr [] e)).symm
  | operators _ ih => exact ih
  | operation _ _ ihfirst ihrest =>
    obtain ⟨new, hnew, hdrawn⟩ := ihrest
    have h := Drawn.append ihfirst hdrawn
    exact h.of_eq hnew.symm
  | noOperator => exact ⟨[], (List.append_nil _).symm, drawn_nil⟩
  | operator _ _ _ ihright ihrest =>
    obtain ⟨new, hnew, hdrawn⟩ := ihrest
    rw [ids_apply, List.append_assoc] at hnew
    exact ⟨_, hnew, Drawn.append ihright hdrawn⟩
  | tighter _ _ ih => exact ih
  | tightest _ _ ih => exact ih
  | unary _ _ _ ih => exact ih
  | noUnary _ ih => exact ih
  | call _ _ ihhead ihrest =>
    obtain ⟨new, hnew, hdrawn⟩ := ihrest
    have h := Drawn.append ihhead hdrawn
    exact h.of_eq hnew.symm
  | noSuffix => exact ⟨[], (List.append_nil _).symm, drawn_nil⟩
  | @apply _ _ callee _ _ args _ r _ _ _ _ _ _ _ _ ihargs ihrest =>
    obtain ⟨new, hnew, hdrawn⟩ := ihrest
    have hcall : Nodes.expr [] (.call callee r.span args) =
        Nodes.expr [] callee ++ Nodes.exprs [] args := Nodes.expr_append callee _
    rw [hcall, List.append_assoc] at hnew
    exact ⟨_, hnew, Drawn.append ihargs hdrawn⟩
  | get _ _ _ ih => exact ih
  | noArguments => exact drawn_nil
  | someArguments _ ih => exact ih
  | @lastArgument _ _ _ e _ _ ih => exact Drawn.of_eq ih (by simp [Phrase.ids, Nodes.exprs])
  | @moreArguments _ _ _ e _ _ _ args _ _ _ _ ihvalue ihrest =>
    exact Drawn.of_eq (Drawn.append ihvalue ihrest) (Nodes.expr_append e (Nodes.exprs [] args)).symm
  | literal => exact drawn_nil
  | var => exact drawn_one
  | grouping _ _ _ ih => exact ih
  | this => exact drawn_one
  | super => exact drawn_one
  | lambda _ _ ih => exact ih

end Lox.Grammar

/-! # What reading tells

A report on a text that has been read tells of errors of the text only. A text
with which nothing is wrong is numbered without gaps between texts and without
collisions, and it is read in the same way from every number on. -/

namespace Lox

theorem faults_static (source : String) :
    ∀ d ∈ (Lexer.scan source).faults, d.isStatic = true := by
  intro d hd
  obtain ⟨item, -, hitem⟩ := Array.mem_filterMap.mp hd
  cases item with
  | token t => cases hitem
  | fault error span =>
    obtain rfl := Option.some.inj hitem
    rfl

section

variable {α : Type} {parse : TokenStream → Nat → Grammar.Parsed α} {source : String} {first : Nat}

theorem Reading.runtime_of
    (h : ∀ d ∈ (parse (Lexer.scan source).tokens first).errors, d.isStatic = true) :
    (Reading.of parse source first).report.runtime = #[] := by
  unfold Reading.of
  dsimp only
  rw [Report.runtime_addAll h, Report.runtime_addAll (faults_static source)]
  rfl

theorem Reading.errors_of
    (h : ∀ d ∈ (parse (Lexer.scan source).tokens first).errors, d.isStatic = true)
    (hclean : (Reading.of parse source first).report.hadError = false) :
    (parse (Lexer.scan source).tokens first).errors = #[] :=
  (Report.clean_of_addAll h hclean).2

end

/-! ## Programs -/

section

open Grammar

variable (source : String) (first : Nat)

theorem parseProgram_static (stream : TokenStream) :
    first ≤ (parseProgram stream first).nextId ∧
      ∀ d ∈ (parseProgram stream first).errors, d.isStatic = true := by
  have hid : ∀ i, first ≤ i → id i = i + 0 := fun _ _ => rfl
  have h := parseProgram_ahead hid stream (Nat.le_refl first)
  exact ⟨h.1, h.2.1⟩

theorem readProgram_nextId : first ≤ (readProgram source first).nextId :=
  (parseProgram_static first (Lexer.scan source).tokens).1

theorem readProgram_runtime : (readProgram source first).report.runtime = #[] :=
  Reading.runtime_of (parseProgram_static first (Lexer.scan source).tokens).2

/-- The numbers in a program with which nothing is wrong. -/
theorem readProgram_drawn (h : (readProgram source first).report.hadError = false) :
    Drawn first (Nodes.stmts [] (readProgram source first).value)
      (readProgram source first).nextId := by
  have hstatic := (parseProgram_static first (Lexer.scan source).tokens).2
  exact (derivesProgram_of_parseProgram (Reading.errors_of hstatic h)).draws

/-- No name in a program with which nothing is wrong is a keyword. -/
theorem named_readProgram {source : String} {first : Nat}
    (h : (readProgram source first).report.hadError = false) :
    Named (Names.stmts (readProgram source first).value) :=
  have hstatic := (parseProgram_static first (Lexer.scan source).tokens).2
  (derivesProgram_of_parseProgram (Reading.errors_of hstatic h)).spelled
    (Lexer.worded_scan source)

/-- What stands in branches of a program with which nothing is wrong declares nothing. -/
theorem plain_readProgram {source : String} {first : Nat}
    (h : (readProgram source first).report.hadError = false) :
    Plain.stmts (readProgram source first).value :=
  have hstatic := (parseProgram_static first (Lexer.scan source).tokens).2
  (derivesProgram_of_parseProgram (Reading.errors_of hstatic h)).plain

theorem readProgram_ahead {n k : Nat} {ρ : Nat → Nat} (hρ : ∀ i, n ≤ i → ρ i = i + k)
    (hfirst : n ≤ first) : readProgram source (first + k) =
      ⟨Renumber.stmts ρ (readProgram source first).value, (readProgram source first).report,
        (readProgram source first).nextId + k⟩ := by
  have h := (parseProgram_ahead hρ (Lexer.scan source).tokens hfirst).2.2
  unfold readProgram Reading.of
  dsimp only
  rw [h]

/-! ## Expressions -/

theorem parseExpression_static (stream : TokenStream) :
    first ≤ (parseExpression stream first).nextId ∧
      ∀ d ∈ (parseExpression stream first).errors, d.isStatic = true := by
  have hid : ∀ i, first ≤ i → id i = i + 0 := fun _ _ => rfl
  have h := parseExpression_ahead hid stream (Nat.le_refl first)
  exact ⟨h.1, h.2.1⟩

theorem readExpression_nextId : first ≤ (readExpression source first).nextId :=
  (parseExpression_static first (Lexer.scan source).tokens).1

theorem readExpression_runtime : (readExpression source first).report.runtime = #[] :=
  Reading.runtime_of (parseExpression_static first (Lexer.scan source).tokens).2

/-- The numbers in an expression with which nothing is wrong. -/
theorem readExpression_drawn (h : (readExpression source first).report.hadError = false)
    {e : Expr} (he : (readExpression source first).value = some e) :
    Drawn first (Nodes.expr [] e) (readExpression source first).nextId := by
  have hstatic := (parseExpression_static first (Lexer.scan source).tokens).2
  exact (derives_of_parseExpression he (Reading.errors_of hstatic h)).draws

/-- No name in an expression with which nothing is wrong is a keyword. -/
theorem named_readExpression {source : String} {first : Nat} {e : Expr}
    (h : (readExpression source first).report.hadError = false)
    (he : (readExpression source first).value = some e) : Named (Names.expr e) :=
  have hstatic := (parseExpression_static first (Lexer.scan source).tokens).2
  (derives_of_parseExpression he (Reading.errors_of hstatic h)).spelled
    (Lexer.worded_scan source)

theorem plain_readExpression {source : String} {first : Nat} {e : Expr}
    (h : (readExpression source first).report.hadError = false)
    (he : (readExpression source first).value = some e) : Plain.expr e :=
  have hstatic := (parseExpression_static first (Lexer.scan source).tokens).2
  (derives_of_parseExpression he (Reading.errors_of hstatic h)).plain

theorem readExpression_ahead {n k : Nat} {ρ : Nat → Nat} (hρ : ∀ i, n ≤ i → ρ i = i + k)
    (hfirst : n ≤ first) : readExpression source (first + k) =
      ⟨(readExpression source first).value.map (Renumber.expr ρ),
        (readExpression source first).report, (readExpression source first).nextId + k⟩ := by
  have h := (parseExpression_ahead hρ (Lexer.scan source).tokens hfirst).2.2
  unfold readExpression Reading.of
  dsimp only
  rw [h]

end

/-! ## Inputs -/

/-- The numbers in what is read of an input. -/
def Input.nodes (first : Nat) : Input → List Nat
  | .program source => Nodes.stmts [] (readProgram source first).value
  | .expression source => (readExpression source first).value.elim [] (Nodes.expr [])

/-- The numbers in an input with which nothing is wrong have been handed out after it. -/
theorem Input.nodes_lt {fuel first : Nat} {input : Input}
    (h : (input.draft fuel first).report.hadError = false) :
    ∀ id ∈ input.nodes first, id < (input.draft fuel first).nextId := by
  intro id hid
  cases input with
  | program source => exact ((readProgram_drawn source first h).bounds id hid).2
  | expression source =>
    have hid : id ∈ (readExpression source first).value.elim [] (Nodes.expr []) := hid
    cases he : (readExpression source first).value with
    | none =>
      rw [he] at hid
      cases hid
    | some e =>
      rw [he] at hid
      exact ((readExpression_drawn source first h he).bounds id hid).2

end Lox
