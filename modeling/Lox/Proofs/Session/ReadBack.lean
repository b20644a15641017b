import Lox.Proofs.Number.Numerals
import Lox.Proofs.Session.Spans
import Lox.Proofs.Token.Rejoined

/-! # Printed numbers are read back

The text of a finite number is one token, or a minus and one token. Evaluating it
gives the number back, with its sign, and leaves no trace in a session. -/

namespace Lox

variable {text : List Char} {y : Float} {first : Nat}

/-! ## Reading -/

theorem readExpression_lexeme (h : Lexer.Lexeme (.number y) text) :
    readExpression (String.ofList text) first =
      ⟨some (.literal (.number y) ⟨0, 0 + Text.width text⟩), .empty, first⟩ := by
  obtain ⟨hfaults, htokens⟩ := Lexer.scan_lexeme h
  refine readExpression_of_derives hfaults ?_
  rw [htokens]
  exact Grammar.alone_of_primary (p := ⟨1, false⟩) (.literal rfl) Nat.one_pos

theorem readExpression_minus_lexeme (h : Lexer.Lexeme (.number y) text) :
    readExpression (String.ofList ('-' :: text)) first =
      ⟨some (.unary .negate ⟨0, 1⟩ (.literal (.number y) ⟨1, 1 + Text.width text⟩)), .empty,
        first⟩ := by
  obtain ⟨hfaults, htokens⟩ := Lexer.scan_minus_lexeme h
  refine readExpression_of_derives hfaults ?_
  rw [htokens]
  have hliteral := Grammar.call_of_primary (p := ⟨2, false⟩) (n := first)
    (.literal (t := ⟨.number y, String.ofList text, ⟨1, 1 + Text.width text⟩⟩) rfl)
  exact Grammar.alone_of_unary (p := ⟨1, false⟩) (.unary rfl (by decide) (.noUnary hliteral))
    Nat.one_pos

/-! ## Evaluating -/

namespace Session

/-- An expression whose evaluation changes nothing, and in which no name is looked up. -/
theorem evaluate_of_read {source : String} {s : Session} {e : Expr} {next fuel : Nat} {v : Value}
    (hread : readExpression source s.nextId = ⟨some e, .empty, next⟩)
    (hwalk : Scope.wholeExpression e = .start) (heval : Eval.expr fuel e s.machine = .ok v s.machine) :
    s.evaluate fuel source = some (.ok v, { s with nextId := next }) := by
  have hrecorded : recording s.machine Scope.Walk.start = s.machine := rfl
  have hclean : (Report.empty.addAll Scope.Walk.start.errors).hadError = false := rfl
  have hattempt : Run.attempt (Eval.expr fuel e) s.machine = .ok (.ok v) s.machine := by
    rw [Run.attempt, heval]
  have hempty : Report.empty.hadError = false := rfl
  unfold evaluate
  simp only [hread, hempty, hwalk, hclean, hrecorded, hattempt, Bool.false_eq_true, if_false]

/-- **Printed numbers read back.** For every finite number, negative zero and the subnormal ones
included, in every session, evaluating the text of the number gives the number itself, and changes
nothing. -/
theorem evaluate_described {x : Float} (hx : x.isFinite = true) (s : Session) {fuel : Nat}
    (hfuel : 2 ≤ fuel) :
    s.evaluate fuel (s.machine.heap.describe (.number x)) = some (.ok (.number x), s) := by
  obtain ⟨k, rfl⟩ := Nat.exists_eq_add_of_le' hfuel
  have hf : Number.Format.value ∈ [Number.Format.value, .literal] := List.mem_cons_self
  obtain ⟨text, htext, hlexeme⟩ := Number.exists_lexeme_of_isFinite hf hx
  rw [Heap.describe, ← String.ofList_toList (s := Number.Format.value.write x), htext]
  by_cases hsign : 2 ^ 63 ≤ x.toBits.toNat
  · rw [decide_eq_true hsign]
    refine evaluate_of_read (readExpression_minus_lexeme hlexeme) rfl ?_
    have hneg := Binary64.neg_ofBits_magnitude hx hsign
    show EStateM.Result.ok (Value.number (-_)) s.machine = _
    rw [hneg]
  · rw [decide_eq_false hsign]
    rw [Binary64.ofBits_magnitude (Nat.not_le.mp hsign)] at hlexeme
    exact evaluate_of_read (readExpression_lexeme hlexeme) rfl rfl

/-- The least subnormal number below zero. -/
theorem evaluate_described_subnormal :
    let x := Float.ofBits 0x8000000000000001
    let s := start .reliable fun _ => 0
    x.isFinite = true ∧ (s.machine.heap.describe (.number x)).length = 327 ∧
      s.evaluate 2 (s.machine.heap.describe (.number x)) = some (.ok (.number x), s) := by
  intro x s
  have hx : x.isFinite = true := by decide +kernel
  exact ⟨hx, by decide +kernel, evaluate_described hx s (Nat.le_refl 2)⟩

end Session
end Lox
