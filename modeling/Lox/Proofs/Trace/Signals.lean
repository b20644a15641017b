import Lox.Proofs.Eval.Bodies
import Lox.Proofs.Grammar.Enclosed
import Lox.Proofs.Trace.Eval

/-! # Where signals are taken up

In a trace, the entry right behind that of a `break` is the one in which the
innermost loop around the `break` takes it up, and the entry right behind that of
a `return` is the end of the call in whose body the `return` stands. Nothing else
takes up a signal, and no statement of a program finishes with one. -/

namespace Lox.Trace

/-- A statement is `t` or stands in it, outside of the functions in `t`; in the body of a loop only
if `loops`. -/
inductive Part (loops : Prop) (t : Stmt) : Stmt → Prop
  | self : Part loops t t
  | block {body : List Stmt} {s : Stmt} (h : Part loops t (.block body)) (hs : s ∈ body) :
      Part loops t s
  | thenBranch {condition : Expr} {s : Stmt} {elseBranch : Option Stmt}
      (h : Part loops t (.ifElse condition s elseBranch)) : Part loops t s
  | elseBranch {condition : Expr} {thenBranch s : Stmt}
      (h : Part loops t (.ifElse condition thenBranch (some s))) : Part loops t s
  | body {condition : Expr} {s : Stmt} (h : Part loops t (.while_ condition s)) (inside : loops) :
      Part loops t s

/-- The innermost loop around a statement, in the body of the call in which it is executed, is in
this round. -/
def InRound (log : Array Entry) (here : Spot) (s : Stmt) (round : Nat) : Prop :=
  ∃ outer condition body, here.rounds = round :: outer ∧
    log[round]? = some (.round condition body ⟨here.call, outer⟩) ∧ Part False body s

/-- The function in whose body a statement stands has been called with this call. -/
def InCall (log : Array Entry) (here : Spot) (s : Stmt) (call : Nat) : Prop :=
  here.call = some call ∧
    ∃ fn, log[call]? = some (.call fn) ∧ ∃ t ∈ fn.body, Part True t s

/-- An entry is right where it stands: what it says of signals goes with the other entries. -/
def Entry.Right (log : Array Entry) (i : Nat) : Entry → Prop
  | .raise s here =>
    (∃ keyword entered, s = .break_ keyword ∧ InRound log here s entered ∧
      log[i + 1]? = some (.leave entered i)) ∨
    ∃ keyword value called result, s = .return_ keyword value ∧ InCall log here s called ∧
      log[i + 1]? = some (.finish called (.return_ i result))
  | .leave entered raised => i = raised + 1 ∧
    ∃ keyword here, log[raised]? = some (.raise (.break_ keyword) here) ∧
      here.rounds.head? = some entered
  | .finish _ .normal => True
  | .finish _ (.break_ _) => False
  | .finish called (.return_ raised _) => i = raised + 1 ∧
    ∃ keyword value here, log[raised]? = some (.raise (.return_ keyword value) here) ∧
      here.call = some called
  | .done signal => signal = .normal
  | .call _ | .round _ _ _ | .write _ _ _ => True

/-- Every entry is right. -/
def Right (log : Array Entry) : Prop :=
  ∀ (i : Nat) (entry : Entry), log[i]? = some entry → entry.Right log i

/-! ## Logs grow -/

/-- The entries of a log stay where they are. -/
def Grows (log log' : Array Entry) : Prop :=
  ∀ (i : Nat) (entry : Entry), log[i]? = some entry → log'[i]? = some entry

variable {log log' log'' : Array Entry} {here : Spot} {s : Stmt} {i round call : Nat}
  {entry : Entry}

theorem Grows.refl (log : Array Entry) : Grows log log := fun _ _ h => h

theorem Grows.trans (h : Grows log log') (h' : Grows log' log'') : Grows log log'' :=
  fun i entry hi => h' i entry (h i entry hi)

theorem lt_of_getElem? (h : log[i]? = some entry) : i < log.size :=
  (Array.getElem?_eq_some_iff.mp h).1

theorem grows_push (log : Array Entry) (entry : Entry) : Grows log (log.push entry) := by
  intro i old hi
  rw [Array.getElem?_push_lt (lt_of_getElem? hi)]
  exact (Array.getElem?_eq_getElem (lt_of_getElem? hi)).symm.trans hi

theorem getElem?_push_self (log : Array Entry) (entry : Entry) :
    (log.push entry)[log.size]? = some entry := by simp

theorem InRound.grows (h : InRound log here s round) (hlog : Grows log log') :
    InRound log' here s round := by
  obtain ⟨outer, condition, body, hrounds, hround, hpart⟩ := h
  exact ⟨outer, condition, body, hrounds, hlog _ _ hround, hpart⟩

theorem InCall.grows (h : InCall log here s call) (hlog : Grows log log') :
    InCall log' here s call := by
  obtain ⟨hcall, fn, hfn, hpart⟩ := h
  exact ⟨hcall, fn, hlog _ _ hfn, hpart⟩

/-- What is right stays right. -/
theorem Entry.Right.grows (h : entry.Right log i) (hlog : Grows log log') :
    entry.Right log' i := by
  cases entry with
  | raise s here =>
    rcases h with ⟨keyword, round, hs, hround, hnext⟩ | ⟨keyword, value, call, result, hs, hcall, hnext⟩
    · exact .inl ⟨keyword, round, hs, hround.grows hlog, hlog _ _ hnext⟩
    · exact .inr ⟨keyword, value, call, result, hs, hcall.grows hlog, hlog _ _ hnext⟩
  | leave round raised =>
    obtain ⟨hi, keyword, here, hraise, hround⟩ := h
    exact ⟨hi, keyword, here, hlog _ _ hraise, hround⟩
  | finish call signal =>
    cases signal with
    | normal => exact trivial
    | break_ raised => exact h
    | return_ raised value =>
      obtain ⟨hi, keyword, value, here, hraise, hcall⟩ := h
      exact ⟨hi, keyword, value, here, hlog _ _ hraise, hcall⟩
  | done signal => exact h
  | call | round | write => exact trivial

theorem right_empty : Right #[] := by
  intro i entry hi
  simp at hi

theorem Right.push (h : Right log) (hentry : entry.Right (log.push entry) log.size) :
    Right (log.push entry) := by
  intro i other hi
  rw [Array.getElem?_push] at hi
  split at hi
  · next heq =>
    cases hi
    exact heq ▸ hentry
  · exact (h i other hi).grows (grows_push log entry)

/-! ## Signals on their way -/

/-- The last entry has raised a signal that has not been taken up; all others are right. -/
structure Pending (log : Array Entry) (raised : Nat) (s : Stmt) (here : Spot) : Prop where
  last : log.size = raised + 1
  raise : log[raised]? = some (.raise s here)
  right : ∀ (i : Nat) (entry : Entry), log[i]? = some entry → i ≠ raised → entry.Right log i

theorem Right.raise (h : Right log) (s : Stmt) (here : Spot) :
    Pending (log.push (.raise s here)) log.size s here where
  last := Array.size_push ..
  raise := getElem?_push_self ..
  right i entry hi hne := by
    rw [Array.getElem?_push, if_neg hne] at hi
    exact (h i entry hi).grows (grows_push log _)

/-- The signal is taken up by the next entry. -/
theorem Pending.taken {raised : Nat} (h : Pending log raised s here)
    (hraise : (Entry.raise s here).Right (log.push entry) raised)
    (hentry : entry.Right (log.push entry) log.size) : Right (log.push entry) := by
  intro i other hi
  rw [Array.getElem?_push] at hi
  split at hi
  · next heq =>
    cases hi
    exact heq ▸ hentry
  · by_cases hraised : i = raised
    · subst hraised
      cases hi.symm.trans h.raise
      exact hraise
    · exact (h.right i other hi hraised).grows (grows_push log entry)

theorem Pending.leave {raised : Nat} {keyword : Span}
    (h : Pending log raised (.break_ keyword) here)
    (hround : InRound log here (.break_ keyword) round) : Right (log.push (.leave round raised)) := by
  have hgrows := grows_push log (.leave round raised)
  have hnext : (log.push (.leave round raised))[raised + 1]? = some (.leave round raised) := by
    rw [← h.last]
    exact getElem?_push_self ..
  refine h.taken (.inl ⟨keyword, round, rfl, hround.grows hgrows, hnext⟩) ?_
  obtain ⟨outer, -, -, hrounds, -⟩ := hround
  exact ⟨h.last, keyword, here, hgrows _ _ h.raise, by rw [hrounds]; rfl⟩

theorem Pending.finish {raised : Nat} {keyword : Span} {value : Option Expr} (result : Value)
    (h : Pending log raised (.return_ keyword value) here)
    (hcall : InCall log here (.return_ keyword value) call) :
    Right (log.push (.finish call (.return_ raised result))) := by
  have hgrows := grows_push log (.finish call (.return_ raised result))
  have hnext : (log.push (.finish call (.return_ raised result)))[raised + 1]? =
      some (.finish call (.return_ raised result)) := by
    rw [← h.last]
    exact getElem?_push_self ..
  refine h.taken (.inr ⟨keyword, value, call, result, rfl, hcall.grows hgrows, hnext⟩) ?_
  exact ⟨h.last, keyword, value, here, hgrows _ _ h.raise, hcall.1⟩

/-! ## Statements at their spots -/

/-- A statement stands where it is executed: in a loop if the spot is in a round, and in a function
if it is in a call. -/
structure Site (log : Array Entry) (here : Spot) (s : Stmt) : Prop where
  enclosed : Enclosed.stmt (here.rounds ≠ []) (here.call ≠ none) s
  round : here.rounds ≠ [] → ∃ round, InRound log here s round
  call : here.call ≠ none → ∃ call, InCall log here s call

theorem Site.grows (h : Site log here s) (hlog : Grows log log') : Site log' here s where
  enclosed := h.enclosed
  round hne := (h.round hne).imp fun _ hround => hround.grows hlog
  call hne := (h.call hne).imp fun _ hcall => hcall.grows hlog

/-- A part of a statement stands where that does, if there is no loop between them. -/
theorem Site.part {s' : Stmt} (h : Site log here s)
    (henclosed : Enclosed.stmt (here.rounds ≠ []) (here.call ≠ none) s')
    (hpart : ∀ loops t, Part loops t s → Part loops t s') : Site log here s' where
  enclosed := henclosed
  round hne := by
    obtain ⟨round, outer, condition, body, hrounds, hround, hs⟩ := h.round hne
    exact ⟨round, outer, condition, body, hrounds, hround, hpart _ _ hs⟩
  call hne := by
    obtain ⟨call, hcall, fn, hfn, t, ht, hs⟩ := h.call hne
    exact ⟨call, hcall, fn, hfn, t, ht, hpart _ _ hs⟩

theorem Site.block {body : List Stmt} (h : Site log here (.block body)) :
    ∀ s ∈ body, Site log here s :=
  fun s hs => h.part (Enclosed.stmts_iff.mp h.enclosed s hs) fun _ _ hpart => hpart.block hs

theorem Site.thenBranch {condition : Expr} {thenBranch : Stmt} {elseBranch : Option Stmt}
    (h : Site log here (.ifElse condition thenBranch elseBranch)) : Site log here thenBranch := by
  have henclosed := h.enclosed
  refine h.part ?_ fun _ _ hpart => hpart.thenBranch
  cases elseBranch with
  | none => exact henclosed.2
  | some branch => exact henclosed.2.1

theorem Site.elseBranch {condition : Expr} {thenBranch branch : Stmt}
    (h : Site log here (.ifElse condition thenBranch (some branch))) : Site log here branch :=
  h.part h.enclosed.2.2 fun _ _ hpart => hpart.elseBranch

/-- The body of a loop, in a new round. -/
theorem Site.body {condition : Expr} {body : Stmt} (h : Site log here (.while_ condition body)) :
    Site (log.push (.round condition body here)) ⟨here.call, log.size :: here.rounds⟩ body where
  enclosed := by
    have henclosed := h.enclosed.2
    rwa [← show (log.size :: here.rounds ≠ []) = True from eq_true (List.cons_ne_nil _ _)]
      at henclosed
  round _ := ⟨log.size, here.rounds, condition, body, rfl, getElem?_push_self .., .self⟩
  call hne := by
    obtain ⟨call, hcall, fn, hfn, t, ht, hs⟩ := h.call hne
    exact ⟨call, hcall, fn, grows_push log _ _ _ hfn, t, ht, hs.body trivial⟩

/-- The body of a function, in a new call. -/
theorem site_body {fn : Lambda} (h : Enclosed.lambda fn) :
    ∀ s ∈ fn.body, Site (log.push (.call fn)) ⟨some log.size, []⟩ s := by
  intro s hs
  refine ⟨?_, fun hne => absurd rfl hne, fun _ => ?_⟩
  · have hbody := Enclosed.body h s hs
    rwa [← show (([] : List Nat) ≠ []) = False from eq_false fun hne => hne rfl,
      ← show (some log.size ≠ none) = True from eq_true (Option.some_ne_none _)] at hbody
  · exact ⟨log.size, rfl, fn, getElem?_push_self .., s, hs, .self⟩

/-- At the top there is no signal. -/
theorem site_top (h : Enclosed.stmt False False s) : Site log .top s where
  enclosed := by
    rw [show (Spot.top.rounds ≠ []) = False from eq_false fun hne => hne rfl,
      show (Spot.top.call ≠ none) = False from eq_false fun hne => hne rfl]
    exact h
  round hne := absurd rfl hne
  call hne := absurd rfl hne

end Lox.Trace
