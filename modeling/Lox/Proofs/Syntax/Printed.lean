import Lox.Proofs.Token.Rejoined
import Lox.Proofs.Token.Stretches
import Lox.Syntax.Sexpr

/-! # Parenthesised forms

A form is an atom, or a list of forms. Its text has the parts of a list between
parentheses, with blanks between them. Where no atom has a parenthesis or a blank
in it, the text tells the form, and where it ends. -/

namespace Lox

/-- A parenthesised form. -/
inductive Form where
  | atom (text : String)
  | list (parts : List Form)
deriving Inhabited

namespace Form

mutual

/-- The text of a form. -/
def text : Form → List Char
  | .atom text => text.toList
  | .list parts => '(' :: (inside parts ++ [')'])

/-- The text of the parts of a list. -/
def inside : List Form → List Char
  | [] => []
  | f :: fs => text f ++ behind fs

/-- The text of parts behind another one. -/
def behind : List Form → List Char
  | [] => []
  | f :: fs => ' ' :: (text f ++ behind fs)

end

attribute [simp] text inside behind

/-- The characters that an atom may have. -/
def inAtom (c : Char) : Bool := c ≠ ' ' && c ≠ '(' && c ≠ ')'

/-- Every atom of a form has characters, and only such. -/
inductive Sound : Form → Prop
  | atom {text : String} (hsome : text.toList ≠ []) (htext : ∀ c ∈ text.toList, inAtom c) :
      Sound (.atom text)
  | list {parts : List Form} (hparts : ∀ f ∈ parts, Sound f) : Sound (.list parts)

variable {f g : Form} {fs gs : List Form} {rest rest' : List Char}

/-- No form starts with a character that ends one. -/
theorem Sound.head (h : Sound f) : ∃ c cs, f.text = c :: cs ∧ c ≠ ')' := by
  cases h with
  | @atom text hsome htext =>
    obtain ⟨c, cs, hcs⟩ := List.exists_cons_of_ne_nil hsome
    refine ⟨c, cs, hcs, ?_⟩
    rintro rfl
    exact absurd (htext ')' (hcs ▸ List.mem_cons_self)) (by decide)
  | list => exact ⟨'(', _, rfl, by decide⟩

/-- What stands behind a part of a list does not go on with an atom. -/
theorem head_behind (fs : List Form) (rest : List Char) :
    ∀ c ∈ (behind fs ++ ')' :: rest).head?, inAtom c = false := by
  cases fs <;> simp [behind, inAtom]

mutual

/-- The text of a form tells it in front of everything that does not go on with an atom. -/
theorem text_append_inj : ∀ {f g : Form} {rest rest' : List Char}, Sound f → Sound g →
    (∀ c ∈ rest.head?, inAtom c = false) → (∀ c ∈ rest'.head?, inAtom c = false) →
    f.text ++ rest = g.text ++ rest' → f = g ∧ rest = rest'
  | .atom a, .atom b, _, _, hf, hg, hrest, hrest', h => by
    obtain ⟨_, ha⟩ | _ := hf
    obtain ⟨_, hb⟩ | _ := hg
    obtain ⟨htext, hbehind⟩ := Lexer.run_unique ha hrest hb hrest' h
    exact ⟨congrArg atom (String.toList_injective htext), hbehind⟩
  | .atom a, .list _, _, _, hf, _, _, _, h => by
    obtain ⟨hsome, ha⟩ | _ := hf
    obtain ⟨c, cs, hcs⟩ := List.exists_cons_of_ne_nil hsome
    rw [text, text, hcs] at h
    obtain rfl : c = '(' := (List.cons.inj h).1
    exact absurd (ha '(' (hcs ▸ List.mem_cons_self)) (by decide)
  | .list _, .atom b, _, _, _, hg, _, _, h => by
    obtain ⟨hsome, hb⟩ | _ := hg
    obtain ⟨c, cs, hcs⟩ := List.exists_cons_of_ne_nil hsome
    rw [text, text, hcs] at h
    obtain rfl : '(' = c := (List.cons.inj h).1
    exact absurd (hb '(' (hcs ▸ List.mem_cons_self)) (by decide)
  | .list fs, .list gs, rest, rest', hf, hg, _, _, h => by
    obtain _ | ⟨hfs⟩ := hf
    obtain _ | ⟨hgs⟩ := hg
    simp only [text, List.cons_append, List.append_assoc, List.cons.injEq, true_and] at h
    obtain ⟨hparts, hbehind⟩ := inside_append_inj hfs hgs h
    exact ⟨congrArg list hparts, hbehind⟩

theorem inside_append_inj : ∀ {fs gs : List Form} {rest rest' : List Char},
    (∀ f ∈ fs, Sound f) → (∀ g ∈ gs, Sound g) →
    inside fs ++ ')' :: rest = inside gs ++ ')' :: rest' → fs = gs ∧ rest = rest'
  | [], [], _, _, _, _, h => ⟨rfl, (List.cons.inj h).2⟩
  | [], g :: gs, _, _, _, hgs, h => by
    obtain ⟨c, cs, hcs, hc⟩ := (hgs g List.mem_cons_self).head
    rw [inside, inside, hcs] at h
    exact absurd (List.cons.inj h).1.symm hc
  | f :: fs, [], _, _, hfs, _, h => by
    obtain ⟨c, cs, hcs, hc⟩ := (hfs f List.mem_cons_self).head
    rw [inside, inside, hcs] at h
    exact absurd (List.cons.inj h).1 hc
  | f :: fs, g :: gs, rest, rest', hfs, hgs, h => by
    obtain ⟨hf, hfs⟩ := List.forall_mem_cons.mp hfs
    obtain ⟨hg, hgs⟩ := List.forall_mem_cons.mp hgs
    rw [inside, inside, List.append_assoc, List.append_assoc] at h
    obtain ⟨hhead, hmore⟩ := text_append_inj hf hg (head_behind fs rest) (head_behind gs rest') h
    obtain ⟨htail, hrest⟩ := behind_append_inj hfs hgs hmore
    exact ⟨by rw [hhead, htail], hrest⟩

theorem behind_append_inj : ∀ {fs gs : List Form} {rest rest' : List Char},
    (∀ f ∈ fs, Sound f) → (∀ g ∈ gs, Sound g) →
    behind fs ++ ')' :: rest = behind gs ++ ')' :: rest' → fs = gs ∧ rest = rest'
  | [], [], _, _, _, _, h => ⟨rfl, (List.cons.inj h).2⟩
  | [], _ :: _, _, _, _, _, h => by cases (List.cons.inj h).1
  | _ :: _, [], _, _, _, _, h => by cases (List.cons.inj h).1
  | f :: fs, g :: gs, rest, rest', hfs, hgs, h => by
    obtain ⟨hf, hfs⟩ := List.forall_mem_cons.mp hfs
    obtain ⟨hg, hgs⟩ := List.forall_mem_cons.mp hgs
    simp only [behind, List.cons_append, List.append_assoc, List.cons.injEq, true_and] at h
    obtain ⟨hhead, hmore⟩ := text_append_inj hf hg (head_behind fs rest) (head_behind gs rest') h
    obtain ⟨htail, hrest⟩ := behind_append_inj hfs hgs hmore
    exact ⟨by rw [hhead, htail], hrest⟩

end

/-- **The text of a form tells the form.** -/
theorem text_inj (hf : Sound f) (hg : Sound g) (h : f.text = g.text) : f = g := by
  have happend : f.text ++ [] = g.text ++ [] := congrArg (· ++ []) h
  exact (text_append_inj hf hg (by simp) (by simp) happend).1

theorem map_text_inj (hfs : ∀ f ∈ fs, Sound f) (hgs : ∀ g ∈ gs, Sound g)
    (h : fs.map text = gs.map text) : fs = gs := by
  induction fs generalizing gs with
  | nil => exact (List.map_eq_nil_iff.mp h.symm).symm
  | cons f fs ih =>
    cases gs with
    | nil => cases h
    | cons g gs =>
      obtain ⟨hf, hfs⟩ := List.forall_mem_cons.mp hfs
      obtain ⟨hg, hgs⟩ := List.forall_mem_cons.mp hgs
      obtain ⟨hhead, htail⟩ := List.cons.inj h
      rw [text_inj hf hg hhead, ih hfs hgs htail]

end Form
end Lox

/-! # Printed trees as forms

A tree is printed as the text of a form, in which names and constants are atoms. -/

namespace Lox

namespace Forms

/-- A name as a form. -/
@[simp] def ident (name : Ident) : Form := .atom name.text

mutual

/-- The form of an expression. -/
def expr : Expr → Form
  | .literal value _ => .atom value.sexpr
  | .grouping inner _ => .list [.atom "group", expr inner]
  | .unary op _ operand => .list [.atom op.symbol, expr operand]
  | .binary left op _ right => .list [.atom op.symbol, expr left, expr right]
  | .logical left op _ right => .list [.atom op.symbol, expr left, expr right]
  | .var target => ident target.name
  | .assign target value => .list [.atom "=", ident target.name, expr value]
  | .call callee _ arguments => .list (.atom "call" :: expr callee :: exprs arguments)
  | .get object name => .list [.atom ".", expr object, ident name]
  | .set object name value =>
    .list [.atom "=", .list [.atom ".", expr object, ident name], expr value]
  | .this _ _ => .atom "this"
  | .super _ _ method => .list [.atom "super", ident method]
  | .lambda fn => function [.atom "fun"] fn

/-- The forms of expressions. -/
def exprs : List Expr → List Form
  | [] => []
  | e :: es => expr e :: exprs es

/-- The form of a function, of which the label and the name come first. -/
def function (opening : List Form) : Lambda → Form
  | ⟨params, body, _⟩ => .list (opening ++ .list (params.map ident) :: stmts body)

/-- The form of a statement. -/
def stmt : Stmt → Form
  | .expression value => .list [.atom ";", expr value]
  | .print value => .list [.atom "print", expr value]
  | .var name none => .list [.atom "var", ident name]
  | .var name (some value) => .list [.atom "var", ident name, expr value]
  | .block body => .list (.atom "block" :: stmts body)
  | .ifElse condition thenBranch none => .list [.atom "if", expr condition, stmt thenBranch]
  | .ifElse condition thenBranch (some elseBranch) =>
    .list [.atom "if", expr condition, stmt thenBranch, stmt elseBranch]
  | .while_ condition body => .list [.atom "while", expr condition, stmt body]
  | .break_ _ => .list [.atom "break"]
  | .return_ _ none => .list [.atom "return"]
  | .return_ _ (some value) => .list [.atom "return", expr value]
  | .function name fn => function [.atom "fun", ident name] fn
  | .class_ name none declared => .list (.atom "class" :: ident name :: methods declared)
  | .class_ name (some parent) declared =>
    .list (.atom "class" :: ident name :: .atom "<" :: ident parent.name :: methods declared)

/-- The forms of statements. -/
def stmts : List Stmt → List Form
  | [] => []
  | s :: ss => stmt s :: stmts ss

/-- The forms of methods. -/
def methods : List Method → List Form
  | [] => []
  | ⟨name, fn⟩ :: ms => function [.atom "method", ident name] fn :: methods ms

end

/-! ## What is printed is the text of the form -/

theorem behind_params (params : List Ident) :
    Form.behind (params.map ident) =
      (params.map Ident.text).flatMap fun text => ' ' :: text.toList := by
  induction params with
  | nil => rfl
  | cons p ps ih => simp [ih]

theorem intercalate_params (params : List Ident) :
    [' '].intercalate (params.map (String.toList ∘ Ident.text)) =
      Form.inside (params.map ident) := by
  cases params with
  | nil => rfl
  | cons p ps =>
    have hspaced := Lexer.toList_spaced p.text (ps.map Ident.text)
    rw [String.toList_intercalate, ← List.map_cons, List.map_map, ← behind_params] at hspaced
    exact hspaced

mutual

theorem text_expr : ∀ e : Expr, (Sexpr.expr e).toList = (expr e).text
  | .literal .. => rfl
  | .grouping inner _ => by simp [Sexpr.expr, expr, text_expr inner]
  | .unary _ _ operand => by simp [Sexpr.expr, expr, text_expr operand]
  | .binary left _ _ right => by simp [Sexpr.expr, expr, text_expr left, text_expr right]
  | .logical left _ _ right => by simp [Sexpr.expr, expr, text_expr left, text_expr right]
  | .var _ => rfl
  | .assign _ value => by simp [Sexpr.expr, expr, text_expr value]
  | .call callee _ arguments => by
    simp [Sexpr.expr, expr, text_expr callee, text_exprs _ arguments]
  | .get object _ => by simp [Sexpr.expr, expr, text_expr object]
  | .set object _ value => by simp [Sexpr.expr, expr, text_expr object, text_expr value]
  | .this .. => rfl
  | .super .. => by simp [Sexpr.expr, expr]
  | .lambda fn => text_function "fun" none fn

theorem text_exprs : ∀ (out : String) (es : List Expr),
    (Sexpr.exprs out es).toList = out.toList ++ Form.behind (exprs es)
  | _, [] => (List.append_nil _).symm
  | _, e :: es => by simp [Sexpr.exprs, exprs, text_exprs _ es, text_expr e]

theorem text_function (label : String) : ∀ (name : Option String) (fn : Lambda),
    (Sexpr.function label name fn).toList =
      (function (.atom label :: (name.map Form.atom).toList) fn).text
  | none, ⟨_, body, _⟩ => by
    simp [Sexpr.function, Sexpr.head, function, text_stmts _ body, intercalate_params]
  | some _, ⟨_, body, _⟩ => by
    simp [Sexpr.function, Sexpr.head, function, text_stmts _ body, intercalate_params]

theorem text_stmt : ∀ s : Stmt, (Sexpr.stmt s).toList = (stmt s).text
  | .expression value => by simp [Sexpr.stmt, stmt, text_expr value]
  | .print value => by simp [Sexpr.stmt, stmt, text_expr value]
  | .var _ none => by simp [Sexpr.stmt, stmt]
  | .var _ (some value) => by simp [Sexpr.stmt, stmt, text_expr value]
  | .block body => by simp [Sexpr.stmt, stmt, text_stmts _ body]
  | .ifElse condition thenBranch none => by
    simp [Sexpr.stmt, stmt, text_expr condition, text_stmt thenBranch]
  | .ifElse condition thenBranch (some elseBranch) => by
    simp [Sexpr.stmt, stmt, text_expr condition, text_stmt thenBranch, text_stmt elseBranch]
  | .while_ condition body => by simp [Sexpr.stmt, stmt, text_expr condition, text_stmt body]
  | .break_ _ => by simp [Sexpr.stmt, stmt]
  | .return_ _ none => by simp [Sexpr.stmt, stmt]
  | .return_ _ (some value) => by simp [Sexpr.stmt, stmt, text_expr value]
  | .function name fn => text_function "fun" (some name.text) fn
  | .class_ _ none declared => by simp [Sexpr.stmt, stmt, text_methods _ declared]
  | .class_ _ (some _) declared => by simp [Sexpr.stmt, stmt, text_methods _ declared]

theorem text_stmts : ∀ (out : String) (ss : List Stmt),
    (Sexpr.stmts out ss).toList = out.toList ++ Form.behind (stmts ss)
  | _, [] => (List.append_nil _).symm
  | _, s :: ss => by simp [Sexpr.stmts, stmts, text_stmts _ ss, text_stmt s]

theorem text_methods : ∀ (out : String) (ms : List Method),
    (Sexpr.methods out ms).toList = out.toList ++ Form.behind (methods ms)
  | _, [] => (List.append_nil _).symm
  | _, ⟨name, fn⟩ :: ms => by
    have hmethod := text_function "method" (some name.text) fn
    simp only [Option.map_some, Option.toList_some] at hmethod
    simp [Sexpr.methods, methods, text_methods _ ms, hmethod]

end

end Forms
end Lox
