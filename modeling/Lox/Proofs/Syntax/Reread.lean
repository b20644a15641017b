import Lox.Grammar.Operators
import Lox.Proofs.Syntax.Outline
import Lox.Proofs.Syntax.Parts
import Lox.Proofs.Syntax.Printed

/-! # Reading the form of a tree

From the form of a tree its outline is read back: the head of a list and the number
of its parts tell the constructor, and an atom that stands for an expression is read
as the token that its text is. So the printed text tells the outline, where the
names are identifiers and the constants are tokens. -/

namespace Lox

namespace Form

/-! ## Reading -/

/-- The name that an atom is. -/
def name : Form → Ident
  | .atom text => ⟨text, .origin⟩
  | .list _ => ⟨"", .origin⟩

/-- The function of which the first form has the parameters, and the others are the body. -/
def closure (parts : List Form) (ss : List Stmt) : Lambda :=
  match parts with
  | .list names :: _ => ⟨names.map name, ss.tail, .origin⟩
  | _ => ⟨[], ss.tail, .origin⟩

/-- The expression that an atom is, as the token tells that its text is read as. -/
def leaf (text : String) : Expr :=
  match (Lexer.scan text).tokens.tokens.map Token.kind with
  | [.identifier] => .var ⟨0, ⟨text, .origin⟩⟩
  | [.keyword .this] => .this 0 .origin
  | [kind] => .literal ((Grammar.literal? kind).getD .nil) .origin
  | _ => default

/-- The operator with two operands that is printed so. -/
def operator : String → Grammar.Operator
  | "+" => .binary .add
  | "-" => .binary .subtract
  | "*" => .binary .multiply
  | "/" => .binary .divide
  | "==" => .binary .equal
  | "!=" => .binary .notEqual
  | "<" => .binary .less
  | "<=" => .binary .lessEqual
  | ">" => .binary .greater
  | ">=" => .binary .greaterEqual
  | "and" => .logical .and
  | _ => .logical .or

/-- The expression of a list with a head, of which the other parts have been read. -/
def compound (head : String) (parts : List Form) (es : List Expr) (ss : List Stmt) : Expr :=
  match head, es with
  | "fun", _ => .lambda (closure parts ss)
  | "call", callee :: arguments => .call callee .origin arguments
  | "group", [e] => .grouping e .origin
  | "super", [.var method] => .super 0 .origin method.name
  | "!", [e] => .unary .not .origin e
  | "-", [e] => .unary .negate .origin e
  | ".", [e, .var property] => .get e property.name
  | "=", [.var target, e] => .assign target e
  | "=", [.get object property, e] => .set object property e
  | _, [left, right] => (operator head).apply left .origin right
  | _, _ => default

/-- The statement of a list with a head, of which the other parts have been read. -/
def sentence (head : String) (parts : List Form) (es : List Expr) (ss : List Stmt)
    (ms : List Method) : Stmt :=
  match head with
  | ";" => .expression (es.headD default)
  | "print" => .print (es.headD default)
  | "var" => .var (parts.headD default).name es.tail.head?
  | "block" => .block ss
  | "if" => .ifElse (es.headD default) (ss.tail.headD default) ss.tail.tail.head?
  | "while" => .while_ (es.headD default) (ss.tail.headD default)
  | "break" => .break_ .origin
  | "return" => .return_ .origin es.head?
  | "fun" => .function (parts.headD default).name (closure parts.tail ss.tail)
  | _ =>
    match parts.tail with
    | .atom _ :: parent :: _ =>
      .class_ (parts.headD default).name (some ⟨0, parent.name⟩) ms.tail.tail.tail
    | _ => .class_ (parts.headD default).name none ms.tail

mutual

/-- The outline of the expression that a form is of. -/
def expr : Form → Expr
  | .atom text => leaf text
  | .list [] => default
  | .list (head :: parts) => compound head.name.text parts (exprs parts) (stmts parts)

/-- The outlines of expressions. -/
def exprs : List Form → List Expr
  | [] => []
  | f :: fs => expr f :: exprs fs

/-- The outline of the statement that a form is of. -/
def stmt : Form → Stmt
  | .atom _ => default
  | .list [] => default
  | .list (head :: parts) =>
    sentence head.name.text parts (exprs parts) (stmts parts) (methods parts)

/-- The outlines of statements. -/
def stmts : List Form → List Stmt
  | [] => []
  | f :: fs => stmt f :: stmts fs

/-- The outline of the method that a form is of: its label comes first. -/
def method : Form → Method
  | .list (_ :: name :: parts) => ⟨name.name, closure parts (stmts parts)⟩
  | _ => ⟨⟨"", .origin⟩, ⟨[], [], .origin⟩⟩

/-- The outlines of methods. -/
def methods : List Form → List Method
  | [] => []
  | f :: fs => method f :: methods fs

end

attribute [simp] expr exprs stmt stmts methods

end Form

/-! ## Trees that are read back -/

/-- A constant whose printed text is the lexeme of a token that writes it. -/
def Literal.Told (v : Literal) : Prop :=
  ∃ kind, Grammar.literal? kind = some v ∧ Lexer.Lexeme kind v.sexpr.toList ∧
    ∀ text, kind ≠ .string text

/-- Names that are identifiers, and expressions of which the constants are tokens. -/
structure Legible (names : List String) (parts : List Expr) : Prop where
  names : ∀ name ∈ names, Lexer.Lexeme .identifier name.toList
  constants : ∀ v span, .literal v span ∈ parts → v.Told

variable {names names' : List String} {parts parts' : List Expr} {kind : TokenKind} {text : String}

theorem Legible.sub (h : Legible names parts) (hnames : names' ⊆ names) (hparts : parts' ⊆ parts) :
    Legible names' parts' :=
  ⟨fun name hname => h.names name (hnames hname), fun v span hv => h.constants v span (hparts hv)⟩

/-! ## Atoms -/

theorem inAtom_of_inWord {c : Char} (h : Lexer.inWord c = true) : Form.inAtom c = true := by
  by_contra hout
  simp only [Form.inAtom, ne_eq, decide_not, Bool.and_eq_true, Bool.not_eq_true',
    decide_eq_false_iff_not, not_and_or, not_not] at hout
  obtain (rfl | rfl) | rfl := hout <;> cases h

/-- Words and numbers are atoms. -/
theorem sound_of_lexeme (h : Lexer.Lexeme kind text.toList) (hstring : ∀ text, kind ≠ .string text)
    (hsymbol : ∀ s, kind ≠ .symbol s) : (Form.atom text).Sound := by
  refine .atom h.ne_nil ?_
  generalize text.toList = cs at h
  cases cs with
  | nil => exact absurd rfl h.ne_nil
  | cons c cs =>
    have hdigit {d : Char} (hd : d.isDigit = true) : Form.inAtom d = true :=
      inAtom_of_inWord (by simp [Lexer.inWord, Char.isAlphanum, hd])
    rcases h.head with ⟨s, rfl, -⟩ | ⟨-, inside, -, -, rfl⟩ | ⟨hc, digits, hdigits, hcs⟩ | ⟨hc, hcs, -⟩
    · exact absurd rfl (hsymbol s)
    · exact absurd rfl (hstring _)
    · refine List.forall_mem_cons.mpr ⟨hdigit hc, ?_⟩
      rcases hcs with ⟨rfl, -⟩ | ⟨behind, -, hbehind, rfl, -⟩
      · exact fun d hd => hdigit (hdigits d hd)
      · refine List.forall_mem_append.mpr ⟨fun d hd => hdigit (hdigits d hd), ?_⟩
        exact List.forall_mem_cons.mpr ⟨rfl, fun d hd => hdigit (hbehind d hd)⟩
    · refine List.forall_mem_cons.mpr ⟨inAtom_of_inWord ?_, fun d hd => inAtom_of_inWord (hcs d hd)⟩
      simp only [Lexer.startsWord, Bool.or_eq_true] at hc
      rcases hc with hc | hc <;> simp [Lexer.inWord, Char.isAlphanum, hc]

/-- An atom is read as its token. -/
theorem kinds_of_lexeme (h : Lexer.Lexeme kind text.toList) :
    (Lexer.scan text).tokens.tokens.map Token.kind = [kind] := by
  have htokens := (Lexer.scan_lexeme h).2
  rw [String.ofList_toList] at htokens
  rw [htokens]
  rfl

namespace Forms

theorem read_ident (h : Legible names parts) (name : Ident) (hname : name.text ∈ names) :
    (Form.atom name.text).Sound ∧ Form.leaf name.text = .var ⟨0, name.outline⟩ := by
  have hlexeme := h.names _ hname
  refine ⟨sound_of_lexeme hlexeme nofun nofun, ?_⟩
  rw [Form.leaf, kinds_of_lexeme hlexeme]
  rfl

theorem sound_literal {v : Literal} (h : v.Told) : (Form.atom v.sexpr).Sound := by
  obtain ⟨kind, hkind, hlexeme, hstring⟩ := h
  refine sound_of_lexeme hlexeme hstring fun s hs => ?_
  subst hs
  cases hkind

theorem leaf_literal {v : Literal} (h : v.Told) : Form.leaf v.sexpr = .literal v .origin := by
  obtain ⟨kind, hkind, hlexeme, hstring⟩ := h
  rw [Form.leaf, kinds_of_lexeme hlexeme]
  split
  · next heq => cases (List.cons.inj heq).1; cases hkind
  · next heq => cases (List.cons.inj heq).1; cases hkind
  · next heq => cases (List.cons.inj heq).1; rw [hkind]; rfl
  · next hmore => exact absurd rfl (hmore kind)

theorem leaf_this : Form.leaf "this" = .this 0 .origin := by
  have hkinds : (Lexer.scan "this").tokens.tokens.map Token.kind = [.keyword .this] :=
    kinds_of_lexeme (.keyword .this)
  rw [Form.leaf, hkinds]

/-- The words and signs that open lists are atoms. -/
theorem sound_head {head : String} (h : (!head.toList.isEmpty && head.toList.all Form.inAtom) = true) :
    (Form.atom head).Sound := by
  rw [Bool.and_eq_true, Bool.not_eq_true', List.isEmpty_eq_false_iff] at h
  exact .atom h.1 (List.all_eq_true.mp h.2)

theorem sound_list {head : String} {fs : List Form}
    (h : (!head.toList.isEmpty && head.toList.all Form.inAtom) = true) (hfs : ∀ f ∈ fs, f.Sound) :
    (Form.list (.atom head :: fs)).Sound :=
  .list (List.forall_mem_cons.mpr ⟨sound_head h, hfs⟩)

theorem sound_params {params : List Ident} (h : Legible names parts)
    (hparams : params.map Ident.text ⊆ names) : (Form.list (params.map ident)).Sound := by
  refine .list (List.forall_mem_map.mpr fun p hp => ?_)
  exact (read_ident h p (hparams (List.mem_map_of_mem hp))).1

/-! ## Trees -/

mutual

theorem read_expr : ∀ e : Expr, Legible (Names.expr e) (Parts.expr e) →
    (expr e).Sound ∧ (expr e).expr = Outline.expr e
  | .literal v span, h =>
    have hv : v.Told := h.constants v span (by simp [Parts.expr])
    ⟨sound_literal hv, leaf_literal hv⟩
  | .grouping inner _, h => by
    obtain ⟨hinner, hread⟩ := read_expr inner (h.sub (by simp [Names.expr]) (by simp [Parts.expr]))
    exact ⟨sound_list (by decide) (by simp [hinner]), by simp [expr, Form.name, Form.compound, hread]⟩
  | .unary op _ operand, h => by
    obtain ⟨hoperand, hread⟩ := read_expr operand
      (h.sub (by simp [Names.expr]) (by simp [Parts.expr]))
    refine ⟨sound_list (by cases op <;> decide) (by simp [hoperand]), ?_⟩
    cases op <;> simp [expr, Form.name, Form.compound, UnaryOp.symbol, hread]
  | .binary left op _ right, h => by
    obtain ⟨hleft, hreadLeft⟩ := read_expr left
      (h.sub (by simp [Names.expr]) (by simp [Parts.expr]))
    obtain ⟨hright, hreadRight⟩ := read_expr right
      (h.sub (by simp [Names.expr]) (by simp [Parts.expr]))
    refine ⟨sound_list (by cases op <;> decide) (by simp [hleft, hright]), ?_⟩
    cases op <;> simp [expr, Form.name, Form.compound, Form.operator, BinaryOp.symbol,
      Grammar.Operator.apply, hreadLeft, hreadRight]
  | .logical left op _ right, h => by
    obtain ⟨hleft, hreadLeft⟩ := read_expr left
      (h.sub (by simp [Names.expr]) (by simp [Parts.expr]))
    obtain ⟨hright, hreadRight⟩ := read_expr right
      (h.sub (by simp [Names.expr]) (by simp [Parts.expr]))
    refine ⟨sound_list (by cases op <;> decide) (by simp [hleft, hright]), ?_⟩
    cases op <;> simp [expr, Form.name, Form.compound, Form.operator, LogicalOp.symbol,
      Grammar.Operator.apply, hreadLeft, hreadRight]
  | .var target, h => read_ident h target.name (by simp [Names.expr])
  | .assign target value, h => by
    obtain ⟨hname, hleaf⟩ := read_ident h target.name (by simp [Names.expr])
    obtain ⟨hvalue, hread⟩ := read_expr value (h.sub (by simp [Names.expr]) (by simp [Parts.expr]))
    refine ⟨sound_list (by decide) (by simp [hname, hvalue]), ?_⟩
    simp [expr, Form.name, Form.compound, hleaf, hread, Reference.outline]
  | .call callee _ arguments, h => by
    obtain ⟨hcallee, hread⟩ := read_expr callee
      (h.sub (by simp [Names.expr]) (by simp [Parts.expr]))
    obtain ⟨harguments, hreadAll⟩ := read_exprs arguments
      (h.sub (by simp [Names.expr]) (by simp [Parts.expr]))
    refine ⟨sound_list (by decide) (List.forall_mem_cons.mpr ⟨hcallee, harguments⟩), ?_⟩
    simp [expr, Form.name, Form.compound, hread, hreadAll]
  | .get object name, h => by
    obtain ⟨hname, hleaf⟩ := read_ident h name (by simp [Names.expr])
    obtain ⟨hobject, hread⟩ := read_expr object
      (h.sub (by simp [Names.expr]) (by simp [Parts.expr]))
    refine ⟨sound_list (by decide) (by simp [hname, hobject]), ?_⟩
    simp [expr, Form.name, Form.compound, hleaf, hread]
  | .set object name value, h => by
    obtain ⟨hname, hleaf⟩ := read_ident h name (by simp [Names.expr])
    obtain ⟨hobject, hreadObject⟩ := read_expr object
      (h.sub (by simp [Names.expr]) (by simp [Parts.expr]))
    obtain ⟨hvalue, hreadValue⟩ := read_expr value
      (h.sub (by simp [Names.expr]) (by simp [Parts.expr]))
    have hproperty : (Form.list [.atom ".", expr object, .atom name.text]).Sound :=
      sound_list (by decide) (by simp [hname, hobject])
    refine ⟨sound_list (by decide) (by simp [hproperty, hvalue]), ?_⟩
    simp [expr, Form.name, Form.compound, hleaf, hreadObject, hreadValue]
  | .this .., _ => ⟨sound_head (by decide), leaf_this⟩
  | .super _ _ method, h => by
    obtain ⟨hname, hleaf⟩ := read_ident h method (by simp [Names.expr])
    refine ⟨sound_list (by decide) (by simp [hname]), ?_⟩
    simp [expr, Form.name, Form.compound, hleaf]
  | .lambda fn, h => by
    obtain ⟨parts, hform, hparts, hread⟩ := read_function fn
      (h.sub (by simp [Names.expr]) (by simp [Parts.expr]))
    rw [expr, hform]
    exact ⟨sound_list (by decide) hparts, by simp [Form.name, Form.compound, hread]⟩

theorem read_exprs : ∀ es : List Expr, Legible (Names.exprs es) (Parts.exprs es) →
    (∀ f ∈ exprs es, f.Sound) ∧ Form.exprs (exprs es) = es.map Outline.expr
  | [], _ => ⟨nofun, rfl⟩
  | e :: es, h => by
    obtain ⟨he, hread⟩ := read_expr e (h.sub (by simp [Names.exprs]) (by simp [Parts.exprs]))
    obtain ⟨hes, hreadAll⟩ := read_exprs es (h.sub (by simp [Names.exprs]) (by simp [Parts.exprs]))
    exact ⟨List.forall_mem_cons.mpr ⟨he, hes⟩, by simp [exprs, hread, hreadAll]⟩

/-- A function, whatever opens its form. -/
theorem read_function : ∀ fn : Lambda, Legible (Names.lambda fn) (Parts.lambda fn) →
    ∃ parts, (∀ opening, function opening fn = .list (opening ++ parts)) ∧
      (∀ f ∈ parts, f.Sound) ∧ Form.closure parts (Form.stmts parts) = Outline.lambda fn
  | ⟨params, body, _⟩, h => by
    have hparams := sound_params h (List.subset_append_left (params.map Ident.text) _)
    obtain ⟨hbody, hread⟩ := read_stmts body
      (h.sub (by simp [Names.lambda]) (by simp [Parts.lambda]))
    refine ⟨_, fun _ => rfl, List.forall_mem_cons.mpr ⟨hparams, hbody⟩, ?_⟩
    rw [Form.closure, List.map_map, Form.stmts, List.tail_cons, hread, Outline.lambda_mk,
      Outline.stmts_eq_map]
    rfl

theorem read_stmt : ∀ s : Stmt, Legible (Names.stmt s) (Parts.stmt s) →
    (stmt s).Sound ∧ (stmt s).stmt = Outline.stmt s
  | .expression value, h | .print value, h | .return_ _ (some value), h => by
    obtain ⟨hvalue, hread⟩ := read_expr value (h.sub (by simp [Names.stmt]) (by simp [Parts.stmt]))
    exact ⟨sound_list (by decide) (by simp [hvalue]), by simp [stmt, Form.name, Form.sentence, hread]⟩
  | .var name none, h => by
    obtain ⟨hname, -⟩ := read_ident h name (by simp [Names.stmt])
    refine ⟨sound_list (by decide) (by simp [hname]), ?_⟩
    simp [stmt, Form.name, Form.sentence, Ident.outline]
  | .var name (some value), h => by
    obtain ⟨hname, -⟩ := read_ident h name (by simp [Names.stmt])
    obtain ⟨hvalue, hread⟩ := read_expr value (h.sub (by simp [Names.stmt]) (by simp [Parts.stmt]))
    refine ⟨sound_list (by decide) (by simp [hname, hvalue]), ?_⟩
    simp [stmt, Form.name, Form.sentence, Ident.outline, hread]
  | .block body, h => by
    obtain ⟨hbody, hread⟩ := read_stmts body (h.sub (by simp [Names.stmt]) (by simp [Parts.stmt]))
    exact ⟨sound_list (by decide) hbody, by simp [stmt, Form.name, Form.sentence, hread]⟩
  | .ifElse condition thenBranch none, h => by
    obtain ⟨hcondition, hreadCondition⟩ := read_expr condition
      (h.sub (by simp [Names.stmt]) (by simp [Parts.stmt]))
    obtain ⟨hthen, hreadThen⟩ := read_stmt thenBranch
      (h.sub (by simp [Names.stmt]) (by simp [Parts.stmt]))
    refine ⟨sound_list (by decide) (by simp [hcondition, hthen]), ?_⟩
    simp [stmt, Form.name, Form.sentence, hreadCondition, hreadThen]
  | .ifElse condition thenBranch (some elseBranch), h => by
    obtain ⟨hcondition, hreadCondition⟩ := read_expr condition
      (h.sub (by simp [Names.stmt]) (by simp [Parts.stmt]))
    obtain ⟨hthen, hreadThen⟩ := read_stmt thenBranch
      (h.sub (by simp [Names.stmt]) (by simp [Parts.stmt]))
    obtain ⟨helse, hreadElse⟩ := read_stmt elseBranch
      (h.sub (by simp [Names.stmt]) (by simp [Parts.stmt]))
    refine ⟨sound_list (by decide) (by simp [hcondition, hthen, helse]), ?_⟩
    simp [stmt, Form.name, Form.sentence, hreadCondition, hreadThen, hreadElse]
  | .while_ condition body, h => by
    obtain ⟨hcondition, hreadCondition⟩ := read_expr condition
      (h.sub (by simp [Names.stmt]) (by simp [Parts.stmt]))
    obtain ⟨hbody, hreadBody⟩ := read_stmt body
      (h.sub (by simp [Names.stmt]) (by simp [Parts.stmt]))
    refine ⟨sound_list (by decide) (by simp [hcondition, hbody]), ?_⟩
    simp [stmt, Form.name, Form.sentence, hreadCondition, hreadBody]
  | .break_ _, _ | .return_ _ none, _ =>
    ⟨sound_list (by decide) nofun, by simp [stmt, Form.name, Form.sentence]⟩
  | .function name fn, h => by
    obtain ⟨hname, -⟩ := read_ident h name (by simp [Names.stmt])
    obtain ⟨parts, hform, hparts, hread⟩ := read_function fn
      (h.sub (by simp [Names.stmt]) (by simp [Parts.stmt]))
    rw [stmt, hform]
    refine ⟨sound_list (by decide) (List.forall_mem_cons.mpr ⟨hname, hparts⟩), ?_⟩
    simp [Form.name, Form.sentence, Ident.outline, hread]
  | .class_ name none declared, h => by
    obtain ⟨hname, -⟩ := read_ident h name (by simp [Names.stmt])
    obtain ⟨hmethods, hread⟩ := read_methods declared
      (h.sub (by simp [Names.stmt]) (by simp [Parts.stmt]))
    refine ⟨sound_list (by decide) (List.forall_mem_cons.mpr ⟨hname, hmethods⟩), ?_⟩
    -- The part behind the name is no atom: it is a method, or missing.
    have hplain (es : List Expr) (ss : List Stmt) (ms : List Method) :
        Form.sentence "class" (ident name :: methods declared) es ss ms =
          .class_ name.outline none ms.tail := by
      rcases declared with _ | ⟨⟨_, _, _, _⟩, _⟩ <;> rfl
    simp only [ident] at hplain
    simp [stmt, Form.name, hplain, hread]
  | .class_ name (some parent) declared, h => by
    obtain ⟨hname, -⟩ := read_ident h name (by simp [Names.stmt])
    obtain ⟨hparent, -⟩ := read_ident h parent.name (by simp [Names.stmt])
    obtain ⟨hmethods, hread⟩ := read_methods declared
      (h.sub (by simp [Names.stmt]) (by simp [Parts.stmt]))
    refine ⟨sound_list (by decide) (List.forall_mem_cons.mpr ⟨hname, List.forall_mem_cons.mpr
      ⟨sound_head (by decide), List.forall_mem_cons.mpr ⟨hparent, hmethods⟩⟩⟩), ?_⟩
    simp [stmt, Form.name, Form.sentence, Ident.outline, Reference.outline, hread]

theorem read_stmts : ∀ ss : List Stmt, Legible (Names.stmts ss) (Parts.stmts ss) →
    (∀ f ∈ stmts ss, f.Sound) ∧ Form.stmts (stmts ss) = ss.map Outline.stmt
  | [], _ => ⟨nofun, rfl⟩
  | s :: ss, h => by
    obtain ⟨hs, hread⟩ := read_stmt s (h.sub (by simp [Names.stmts]) (by simp [Parts.stmts]))
    obtain ⟨hss, hreadAll⟩ := read_stmts ss (h.sub (by simp [Names.stmts]) (by simp [Parts.stmts]))
    exact ⟨List.forall_mem_cons.mpr ⟨hs, hss⟩, by simp [stmts, hread, hreadAll]⟩

theorem read_methods : ∀ ms : List Method, Legible (Names.methods ms) (Parts.methods ms) →
    (∀ f ∈ methods ms, f.Sound) ∧ Form.methods (methods ms) = ms.map Outline.method
  | [], _ => ⟨nofun, rfl⟩
  | ⟨name, fn⟩ :: ms, h => by
    obtain ⟨hname, -⟩ := read_ident h name (by simp [Names.methods])
    obtain ⟨parts, hform, hparts, hread⟩ := read_function fn
      (h.sub (by simp [Names.methods]) (by simp [Parts.methods]))
    obtain ⟨hms, hreadAll⟩ := read_methods ms
      (h.sub (by simp [Names.methods]) (by simp [Parts.methods]))
    rw [methods, hform]
    refine ⟨List.forall_mem_cons.mpr ⟨sound_list (by decide)
      (List.forall_mem_cons.mpr ⟨hname, hparts⟩), hms⟩, ?_⟩
    simp [Form.method, Form.name, Outline.method, Ident.outline, hread, hreadAll]

end

theorem map_text_stmts (ss : List Stmt) :
    (stmts ss).map Form.text = ss.map fun s => s.sexpr.toList := by
  induction ss with
  | nil => rfl
  | cons s ss ih => rw [stmts, List.map_cons, List.map_cons, ih, Stmt.sexpr, text_stmt]

/-- What is printed of statements tells their outlines. -/
theorem outline_of_printed {ss ss' : List Stmt} (h : Legible (Names.stmts ss) (Parts.stmts ss))
    (h' : Legible (Names.stmts ss') (Parts.stmts ss'))
    (hprinted : ss.map Stmt.sexpr = ss'.map Stmt.sexpr) :
    Outline.stmts ss = Outline.stmts ss' := by
  obtain ⟨hsound, hread⟩ := read_stmts ss h
  obtain ⟨hsound', hread'⟩ := read_stmts ss' h'
  have htexts : (stmts ss).map Form.text = (stmts ss').map Form.text := by
    have hlists := congrArg (List.map String.toList) hprinted
    rw [List.map_map, List.map_map] at hlists
    rw [map_text_stmts, map_text_stmts]
    exact hlists
  rw [Outline.stmts_eq_map, Outline.stmts_eq_map, ← hread, ← hread',
    Form.map_text_inj hsound hsound' htexts]

end Forms
end Lox
