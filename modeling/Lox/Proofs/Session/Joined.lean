import Lox.Proofs.Grammar.Complete
import Lox.Proofs.Grammar.Elsewhere
import Lox.Proofs.Renumber.Walk
import Lox.Proofs.Scope.Elsewhere
import Lox.Proofs.Session.Numbers
import Lox.Proofs.Session.Rooted

/-! # Two programs in one text

When nothing is wrong with two programs, nothing is wrong with the text in which
the second one stands in the lines after the first one. It is read as the
statements of the first one and those of the second one, which stand further on,
and the same distances are found for both. -/

namespace Lox

open Grammar

/-- A program with which nothing is wrong. -/
structure Accepted (source : String) : Prop where
  read : (readProgram source 0).report.hadError = false
  scopes : (Scope.program (readProgram source 0).value).errors = #[]

variable {source first second : String} {n : Nat}

/-! ## Any first number -/

theorem readProgram_eq (source : String) (n : Nat) : readProgram source n =
    ⟨Renumber.stmts (· + n) (readProgram source 0).value, (readProgram source 0).report,
      (readProgram source 0).nextId + n⟩ := by
  have h := readProgram_ahead source 0 (n := 0) (k := n) (ρ := (· + n)) (fun _ _ => rfl)
    (Nat.le_refl 0)
  rwa [Nat.zero_add] at h

theorem Accepted.read_from (h : Accepted source) (n : Nat) :
    (readProgram source n).report.hadError = false := by
  rw [readProgram_eq]
  exact h.read

theorem Accepted.scopes_from (h : Accepted source) (n : Nat) :
    (Scope.program (readProgram source n).value).errors = #[] := by
  rw [readProgram_eq, Renumber.walk_program]
  exact h.scopes

theorem Accepted.reading (h : Accepted source) (n : Nat) : readProgram source n =
    ⟨(readProgram source n).value, .empty, (readProgram source n).nextId⟩ := by
  have hstatic := h.read_from n
  have hruntime := readProgram_runtime source n
  generalize readProgram source n = reading at hstatic hruntime
  obtain ⟨value, ⟨static, runtime⟩, next⟩ := reading
  obtain rfl : runtime = #[] := hruntime
  have hempty : static = #[] := by simpa [Report.hadError] using hstatic
  rw [hempty]
  rfl

/-- How far the second of two programs is moved by the first one. -/
def behind (first : String) : Span → Span := Span.later (Lexer.offsetAfter first)

theorem Accepted.faults (h : Accepted source) : (Lexer.scan source).faults = #[] := by
  have hstatic := (parseProgram_static 0 (Lexer.scan source).tokens).2
  exact (Report.clean_of_addAll (faults_static source)
    (Report.clean_of_addAll hstatic h.read).1).2

theorem Accepted.derives (h : Accepted source) (n : Nat) :
    DerivesProgram n (Lexer.scan source).tokens.tokens (readProgram source n).value
      (readProgram source n).nextId := by
  have hstatic := (parseProgram_static n (Lexer.scan source).tokens).2
  exact derivesProgram_of_parseProgram (Reading.errors_of hstatic (h.read_from n))

theorem readProgram_of_derives {ss : List Stmt} {next : Nat}
    (hfaults : (Lexer.scan source).faults = #[])
    (h : DerivesProgram n (Lexer.scan source).tokens.tokens ss next) :
    readProgram source n = ⟨ss, .empty, next⟩ := by
  have hparse := parseProgram_of_derivesProgram h
  unfold readProgram Reading.of
  dsimp only
  rw [hparse, hfaults]
  rfl

theorem readProgram_joined (h : Accepted first) (h' : Accepted second) (n : Nat) :
    readProgram (Lexer.joined first second) n =
      ⟨(readProgram first n).value ++ Respan.stmts (behind first)
          (readProgram second (readProgram first n).nextId).value,
        .empty, (readProgram second (readProgram first n).nextId).nextId⟩ := by
  have hsecond := (h'.derives (readProgram first n).nextId).respan (σ := behind first)
    (Span.later_cover _)
  have hboth := (h.derives n).append hsecond
  refine readProgram_of_derives (Lexer.faults_joined h.faults h'.faults) ?_
  rw [Lexer.tokens_joined h.faults]
  exact hboth

/-! ## Walking -/

theorem program_joined (h : Accepted first) (h' : Accepted second) (n : Nat) :
    let walk := Scope.program (readProgram (Lexer.joined first second) n).value
    let ss := (readProgram first n).value
    let us := (readProgram second (readProgram first n).nextId).value
    walk.errors = #[] ∧ walk.found = (Scope.program ss).found ++ (Scope.program us).found := by
  intro walk ss us
  have hwalk : walk = Respan.walk (behind first) (Scope.program ss).found (Scope.program us) := by
    show Scope.program (readProgram (Lexer.joined first second) n).value = _
    rw [readProgram_joined h h']
    exact Scope.program_append (h.scopes_from n) _ us
  have hsecond : (Scope.program us).errors = #[] := h'.scopes_from _
  rw [hwalk]
  refine ⟨?_, rfl⟩
  show (Scope.program us).errors.map _ = #[]
  rw [hsecond, Array.map_empty]

theorem Accepted.joined (h : Accepted first) (h' : Accepted second) :
    Accepted (Lexer.joined first second) where
  read := by
    rw [readProgram_joined h h']
    rfl
  scopes := (program_joined h h' 0).1

end Lox

/-! # Two programs in one input

Splitting a program over two inputs of a session changes nothing: what the first
input leaves is what the statements of the first program leave in the middle of
the joined one. The numbers of nodes are the same, and of the second program
only the spans tell where it stands. -/

namespace Lox

open Twin

namespace Eval

end Eval

namespace Session

/-- The report on a program with which nothing is wrong, and the session after it. -/
def concluded (next : Nat) :
    EStateM.Result Stop Machine (Option Diagnostic) → Option (Report × Session)
  | .ok error machine => some (⟨#[], error.toArray⟩, ⟨machine, next⟩)
  | .error _ _ => none

/-- Errors of execution are no errors of the text. -/
theorem dynamic_of_execute {fuel : Nat} {ss : List Stmt} {m t : Machine} {d : Diagnostic}
    (h : execute fuel ss m = .ok (some d) t) : d.isStatic = false := by
  have hagrees := agrees_execute (ρ := id) (R := m.resolutions) (fun _ => rfl) fuel ss
  have hfit : m.Fit id m.resolutions := ⟨rfl, fun code _ => HostCode.blindTo_id code⟩
  exact ((hagrees.ends m hfit).of_ok h).2.1 d rfl

/-- A program with which nothing is wrong is executed. -/
theorem run_of_accepted {source : String} (h : Accepted source) (s : Session) (fuel : Nat) :
    s.run fuel source = concluded (readProgram source s.nextId).nextId
      (execute fuel (readProgram source s.nextId).value
        (recording s.machine (Scope.program (readProgram source s.nextId).value))) := by
  have hscopes := h.scopes_from s.nextId
  unfold run
  rw [h.reading s.nextId]
  dsimp only
  rw [hscopes, if_neg (by decide), if_neg (by decide)]
  cases hresult : execute fuel (readProgram source s.nextId).value
      (recording s.machine (Scope.program (readProgram source s.nextId).value)) with
  | error stop t => rfl
  | ok error t =>
    cases error with
    | none => rfl
    | some d =>
      have hdynamic := dynamic_of_execute hresult
      unfold concluded Report.add
      simp only [hdynamic]
      rfl

/-! ## The two parts -/

variable {s : Session} {ss us : List Stmt} {next : Nat} {more : Array (Nat × Nat)}

end Session
end Lox
