import Lox.Proofs.Ledger.Erasure
import Lox.Proofs.Ledger.Steps

/-! # What a ledger explains

The entries of a ledger explain how the heap has come about: from one moment to
another a field of an instance changes only if it was booked that it was set, and
it holds what it was set to last. It was a Set expression that set it, which began
at a moment that is booked as well. Every evaluation is explained by what is booked
along with it, whether it ends in a result or stops. -/

namespace Lox.Ledger

/-- Entries explain how a heap has become another one. Every change that is not booked leaves the
fields of instances as they are. -/
inductive Explains : Heap → List Entry → Heap → Prop where
  | nothing (h : Heap) : Explains h [] h
  | extended {h h₁ h' : Heap} {entries : List Entry} (extends_ : h.Extends h₁)
      (rest : Explains h₁ entries h') : Explains h entries h'
  | moment {m : Machine} {h' : Heap} {entries : List Entry} (orderly : m.Orderly)
      (rest : Explains m.heap entries h') : Explains m.heap (.moment m :: entries) h'
  | set {h h' : Heap} {entries : List Entry} (i : InstanceId) (name : String) (v : Value)
      (rest : Explains (h.setField i name v) entries h') :
      Explains h (.set i name v :: entries) h'

namespace Explains

variable {h h' h'' : Heap} {entries entries' : List Entry} {m : Machine}

theorem append (hfirst : Explains h entries h') (hrest : Explains h' entries' h'') :
    Explains h (entries ++ entries') h'' := by
  induction hfirst with
  | nothing => exact hrest
  | extended hextends _ ih => exact .extended hextends (ih hrest)
  | moment horderly _ ih => exact .moment horderly (ih hrest)
  | set i name v _ ih => exact .set i name v (ih hrest)

/-- What comes before a moment, and what comes after it. -/
theorem split (hall : Explains h (entries ++ .moment m :: entries') h') :
    Explains h entries m.heap ∧ m.Orderly ∧ Explains m.heap entries' h' := by
  generalize hbooked : entries ++ .moment m :: entries' = booked at hall
  induction hall generalizing entries with
  | nothing => cases List.append_ne_nil_of_right_ne_nil entries (List.cons_ne_nil _ _) hbooked
  | extended hextends _ ih =>
    obtain ⟨hbefore, hat⟩ := ih hbooked
    exact ⟨.extended hextends hbefore, hat⟩
  | moment horderly hrest ih =>
    cases entries with
    | nil =>
      obtain ⟨hm, rfl⟩ := List.cons.inj hbooked
      obtain rfl := Entry.moment.inj hm
      exact ⟨.nothing _, horderly, hrest⟩
    | cons entry entries =>
      obtain ⟨rfl, hlater⟩ := List.cons.inj hbooked
      obtain ⟨hbefore, hat⟩ := ih hlater
      exact ⟨.moment horderly hbefore, hat⟩
  | set i name v _ ih =>
    cases entries with
    | nil => cases (List.cons.inj hbooked).1
    | cons entry entries =>
      obtain ⟨rfl, hlater⟩ := List.cons.inj hbooked
      obtain ⟨hbefore, hat⟩ := ih hlater
      exact ⟨.set i name v hbefore, hat⟩

theorem keeps (hall : Explains h entries h') : h.Keeps h' := by
  induction hall with
  | nothing => exact .refl _
  | extended hextends _ ih => exact hextends.keeps.trans ih
  | moment _ _ ih => exact ih
  | set i name v _ ih => exact (Heap.keeps_setField _ i name v).trans ih

/-- A field holds what it was set to last, or else what it held before. -/
theorem field (hall : Explains h entries h') {i : InstanceId} {c : ClassId}
    (hi : h.classOf? i = some c) (name : String) :
    h'.field? i name = (lastSet i name entries).or (h.field? i name) := by
  induction hall with
  | nothing => rfl
  | extended hextends _ ih => rw [ih (hextends.keeps.classOf i c hi), hextends.field hi]
  | moment _ _ ih => exact ih hi
  | @set h _ _ j other v _ ih =>
    obtain ⟨object, hobject, -⟩ := Option.map_eq_some_iff.mp hi
    have hlt := (Array.getElem?_eq_some_iff.mp hobject).1
    rw [ih ((Heap.keeps_setField h j other v).classOf i c hi), Heap.field?_setField, lastSet,
      Option.or_assoc]
    congr 1
    by_cases hset : j = i ∧ other = name
    · obtain ⟨rfl, rfl⟩ := hset
      simp [hlt]
    · rw [if_neg hset, if_neg fun hall => hset ⟨hall.1, hall.2.1⟩, Option.none_or]

end Explains

/-! ## Set expressions -/

section

variable {m m₁ m₂ : Machine} {object value : Expr} {i : InstanceId} {v : Value} {fuel : Nat}

/-- A Set expression that is evaluated on the first machine sets a field of an instance, and has
come to the second one when it does. -/
def Sets (m : Machine) (i : InstanceId) (name : String) (v : Value) (m' : Machine) : Prop :=
  ∃ fuel object ident value, ident.text = name ∧
    (∃ m₁, Eval.expr fuel object m = .ok (.instance_ i) m₁ ∧ Eval.expr fuel value m₁ = .ok v m') ∧
      Eval.expr (fuel + 1) (.set object ident value) m =
        .ok v { m' with heap := m'.heap.setField i name v }

theorem sets_of_parts (name : Ident) (hobject : Eval.expr fuel object m = .ok (.instance_ i) m₁)
    (hvalue : Eval.expr fuel value m₁ = .ok v m₂) : Sets m i name.text v m₂ := by
  refine ⟨fuel, object, name, value, rfl, ⟨m₁, hobject, hvalue⟩, ?_⟩
  rw [Eval.expr, bind_of_ok hobject]
  exact bind_of_ok hvalue

/-- Every field that is booked was set by a Set expression that began at a moment before. -/
def Justified (entries : List Entry) : Prop :=
  ∀ before i name v after, entries = before ++ .set i name v :: after →
    ∃ earlier m m', before = earlier ++ [.moment m'] ∧ .moment m ∈ earlier ∧ Sets m i name v m'

variable {entries entries' : List Entry}

theorem justified_nil : Justified [] := fun before _ _ _ _ h => by cases before <;> cases h

theorem justified_moment (m : Machine) : Justified [.moment m] := by
  intro before i name v after h
  rcases before with _ | ⟨_, _ | _⟩ <;> cases h

theorem Justified.append (h : Justified entries) (h' : Justified entries') :
    Justified (entries ++ entries') := by
  intro before i name v after hsplit
  rcases List.append_eq_append_iff.mp hsplit with ⟨rest, rfl, hlater⟩ | ⟨rest, hfirst, hrest⟩
  · obtain ⟨earlier, m, m', rfl, hm, hsets⟩ := h' rest i name v after hlater
    exact ⟨entries ++ earlier, m, m', (List.append_assoc ..).symm, List.mem_append_right _ hm, hsets⟩
  · cases rest with
    | nil =>
      obtain ⟨earlier, m, m', hnil, -⟩ := h' [] i name v after hrest.symm
      simp at hnil
    | cons entry rest =>
      obtain ⟨rfl, -⟩ := List.cons.inj hrest
      exact h before i name v rest hfirst

theorem Justified.set {name : String} (h : Justified entries) (hm : .moment m ∈ entries)
    (hsets : Sets m i name v m₁) : Justified (entries ++ [.moment m₁, .set i name v]) := by
  intro before j other w after hsplit
  rcases List.append_eq_append_iff.mp hsplit with ⟨rest, rfl, hlater⟩ | ⟨rest, hfirst, hrest⟩
  · rcases rest with _ | ⟨entry, _ | ⟨_, rest⟩⟩
    · cases hlater
    · cases hlater
      exact ⟨entries, m, m₁, rfl, hm, hsets⟩
    · simp at hlater
  · cases rest with
    | nil => cases hrest
    | cons entry rest =>
      obtain ⟨rfl, -⟩ := List.cons.inj hrest
      exact h before j other w rest hfirst

end

/-! ## Computations -/

/-- A ledger has been kept from one book to another. -/
structure Book.GoesOn (t u : Book) : Prop where
  orderly : u.machine.Orderly
  explained : ∃ entries, u.entries = t.entries ++ entries ∧
    Explains t.machine.heap entries u.machine.heap ∧ Justified entries

variable {t u v : Book} {α β : Type}

theorem Book.GoesOn.refl (ht : t.machine.Orderly) : t.GoesOn t :=
  ⟨ht, [], (List.append_nil _).symm, .nothing _, justified_nil⟩

theorem Book.GoesOn.trans (h : t.GoesOn u) (h' : u.GoesOn v) : t.GoesOn v := by
  obtain ⟨-, entries, hentries, hexplains, hjustified⟩ := h
  obtain ⟨hv, entries', hentries', hexplains', hjustified'⟩ := h'
  exact ⟨hv, entries ++ entries', by rw [hentries', hentries, List.append_assoc],
    hexplains.append hexplains', hjustified.append hjustified'⟩

theorem Book.GoesOn.classes (h : t.GoesOn u) :
    t.machine.heap.classes.toList <+: u.machine.heap.classes.toList := by
  obtain ⟨-, entries, -, hexplains, -⟩ := h
  exact hexplains.keeps.classes

/-- Only the heap and the host of a machine matter. -/
theorem Book.GoesOn.excursion {m m' : Machine} (h : Book.GoesOn ⟨m, t.entries⟩ u)
    (hheap : m.heap = t.machine.heap) (hback : m'.heap = u.machine.heap)
    (hhost : m'.host = u.machine.host) : t.GoesOn ⟨m', u.entries⟩ := by
  obtain ⟨hu, entries, hentries, hexplains, hjustified⟩ := h
  exact ⟨⟨hback ▸ hu.heap, hhost ▸ hu.host⟩, entries, hentries, hback ▸ hheap ▸ hexplains,
    hjustified⟩

/-- From a moment that is booked to where the heap has only been extended. -/
theorem Book.GoesOn.extended {m : Machine} (ht : t.machine.Orderly) (hm : m.Orderly)
    (hextends : t.machine.heap.Extends m.heap) :
    t.GoesOn ⟨m, t.entries ++ [.moment t.machine]⟩ :=
  ⟨hm, [.moment t.machine], rfl, .moment ht (.extended hextends (.nothing _)), justified_moment _⟩

/-- A Set expression books what it has set, after what its parts have booked. -/
theorem Book.GoesOn.set {i : InstanceId} {name : String} {value : Value}
    (h : Book.GoesOn ⟨t.machine, t.entries ++ [.moment t.machine]⟩ u) (ht : t.machine.Orderly)
    (hsets : Sets t.machine i name value u.machine) (hvalue : u.machine.heap.Holds value.classes) :
    t.GoesOn ⟨{ u.machine with heap := u.machine.heap.setField i name value },
      u.entries ++ [.moment u.machine] ++ [.set i name value]⟩ := by
  obtain ⟨hu, entries, hentries, hexplains, hjustified⟩ := h
  refine ⟨⟨hu.heap.setField i name hvalue, hu.host⟩,
    .moment t.machine :: entries ++ [.moment u.machine, .set i name value], ?_, ?_, ?_⟩
  · rw [hentries]
    simp
  · exact .moment ht (hexplains.append (.moment hu (.set i name value (.nothing _))))
  · exact ((justified_moment t.machine).append hjustified).set List.mem_cons_self hsets

/-- A computation that is explained by what is booked along with it. Given classes that exist, it
ends with others that do. -/
structure Accounts (w : Booked α) (given : List ClassId) (out : α → List ClassId) : Prop where
  ends : ∀ t : Book, t.machine.Orderly → t.machine.heap.Holds given →
    Ends w t (fun a u => t.GoesOn u ∧ u.machine.heap.Holds (out a)) fun _ u => t.GoesOn u

variable {w : Booked α} {given : List ClassId} {out : α → List ClassId}

theorem accounts_pure {a : α} (ha : out a ⊆ given) : Accounts (pure a) given out :=
  ⟨fun _ ht hgiven => ⟨.refl ht, hgiven.sub ha⟩⟩

theorem accounts_lift {r : Run α} (hr : Extending r given out) : Accounts (lift r) given out := by
  constructor
  intro t ht hgiven
  rw [ends_lift]
  refine (hr.ends t.machine ht hgiven).imp (fun a m hend => ?_) fun stop m hend => ?_
  · exact ⟨.extended ht hend.1 hend.2.1, hend.2.2⟩
  · exact .extended ht hend.1 hend.2

theorem Accounts.bind {k : α → Booked β} {out' : β → List ClassId} (hw : Accounts w given out)
    (hk : ∀ a, Accounts (k a) (out a ++ given) out') : Accounts (w >>= k) given out' := by
  constructor
  intro t ht hgiven
  rw [ends_bind]
  refine (hw.ends t ht hgiven).imp (fun a u hend => ?_) fun _ _ hend => hend
  obtain ⟨hgoes, hout⟩ := hend
  refine ((hk a).ends u hgoes.orderly (hout.append (hgiven.mono hgoes.classes))).imp ?_ ?_
  · exact fun b v hend => ⟨hgoes.trans hend.1, hend.2⟩
  · exact fun _ v hend => hgoes.trans hend

theorem Accounts.map {out' : β → List ClassId} (hw : Accounts w given out) (f : α → β)
    (hf : ∀ a, out' (f a) ⊆ out a ++ given) : Accounts (f <$> w) given out' := by
  rw [map_eq_pure_bind]
  exact hw.bind fun a => accounts_pure (hf a)

theorem Accounts.within (hw : Accounts w given out) (frame : FrameId) :
    Accounts (within frame w) given out := by
  constructor
  intro t ht hgiven
  rw [ends_within]
  have hinside := hw.ends { t with machine := { t.machine with current := frame } }
    ⟨ht.heap, ht.host⟩ hgiven
  exact hinside.imp (fun a u hend => ⟨hend.1.excursion rfl rfl rfl, hend.2⟩) fun _ u hend =>
    hend.excursion rfl rfl rfl

theorem Accounts.asCall (hw : Accounts w given out) : Accounts (asCall w) given out := by
  constructor
  intro t ht hgiven
  rw [ends_asCall]
  have hinside := hw.ends { t with machine := { t.machine with callDepth := t.machine.callDepth + 1 } }
    ⟨ht.heap, ht.host⟩ hgiven
  exact hinside.imp (fun a u hend => ⟨hend.1.excursion rfl rfl rfl, hend.2⟩) fun _ u hend =>
    hend.excursion rfl rfl rfl

theorem Accounts.attempt (hw : Accounts w given out) : Accounts (attempt w) given fun _ => [] := by
  constructor
  intro t ht hgiven
  rw [ends_attempt]
  refine (hw.ends t ht hgiven).imp (fun a u hend => ⟨hend.1, Heap.holds_nil _⟩) fun stop u hend => ?_
  cases stop with
  | failed d => exact ⟨hend, Heap.holds_nil _⟩
  | outOfFuel => exact hend

/-! ## Evaluation -/

/-- Within a bound on steps, evaluation is explained by what is booked along with it. -/
structure AccountsWithin (fuel : Nat) : Prop where
  expr : ∀ {given} e, Accounts (Ledger.expr fuel e) given Value.classes
  exprs : ∀ {given} es, Accounts (Ledger.exprs fuel es) given (List.flatMap Value.classes)
  call : ∀ {given} callee args paren, callee.classes ⊆ given → args.flatMap Value.classes ⊆ given →
    Accounts (Ledger.call fuel callee args paren) given Value.classes
  construct : ∀ {given} c args, c ∈ given → args.flatMap Value.classes ⊆ given →
    Accounts (Ledger.construct fuel c args) given Value.classes
  callFunction : ∀ {given} f args, args.flatMap Value.classes ⊆ given →
    Accounts (Ledger.callFunction fuel f args) given Value.classes
  stmt : ∀ {given} s, Accounts (Ledger.stmt fuel s) given Flow.classes
  stmts : ∀ {given} ss, Accounts (Ledger.stmts fuel ss) given Flow.classes

variable {fuel : Nat}

/-- The field is set on the machine that the parts of the expression have left, so that it is the
expression on the machine at its beginning that sets it. -/
theorem accounts_set_step (ih : AccountsWithin fuel) (object : Expr) (name : Ident) (value : Expr) :
    Accounts (Ledger.expr (fuel + 1) (.set object name value)) given Value.classes := by
  constructor
  intro t ht hgiven
  let marked : Book := ⟨t.machine, t.entries ++ [.moment t.machine]⟩
  have hmarked : t.GoesOn marked := .extended ht ht (.refl _)
  rw [Ledger.expr]
  show Ends (Ledger.expr fuel object >>= _) marked _ _
  rw [ends_bind]
  refine (((ih.expr object).ends marked ht hgiven).and (((erasesWithin fuel).expr object).ends
    marked)).imp (fun o u hend => ?_) fun _ _ hend => hmarked.trans hend.1
  obtain ⟨⟨hobject, -⟩, hran⟩ := hend
  let checked : Book := ⟨u.machine, u.entries ++ [.moment u.machine]⟩
  have hchecked : marked.GoesOn checked :=
    hobject.trans (.extended hobject.orderly hobject.orderly (.refl _))
  cases o with
  | instance_ i =>
    show Ends (Ledger.expr fuel value >>= _) checked _ _
    rw [ends_bind]
    refine (((ih.expr value).ends checked hchecked.orderly (hgiven.mono hchecked.classes)).and
      (((erasesWithin fuel).expr value).ends checked)).imp (fun v u' hend => ?_)
      fun _ _ hend => hmarked.trans (hchecked.trans hend.1)
    obtain ⟨⟨hvalue, hv⟩, hran'⟩ := hend
    exact ⟨(hchecked.trans hvalue).set ht (sets_of_parts name hran hran') hv, hv⟩
  | _ => exact hmarked.trans hchecked

theorem accounts_expr_step (ih : AccountsWithin fuel) (e : Expr) :
    Accounts (Ledger.expr (fuel + 1) e) given Value.classes := by
  rw [Ledger.expr.eq_def]
  dsimp only
  cases e with
  | literal value _ => exact accounts_pure (by cases value <;> exact List.nil_subset _)
  | grouping inner _ => exact ih.expr inner
  | unary op opSpan operand =>
    refine (ih.expr operand).bind fun v => accounts_lift (extending_orFail fun result hresult => ?_)
    rw [(UnaryOp.apply_isData hresult).classes]
    exact List.nil_subset _
  | binary left op opSpan right =>
    refine (ih.expr left).bind fun a => (ih.expr right).bind fun b => ?_
    refine accounts_lift (extending_orFail fun result hresult => ?_)
    rw [(BinaryOp.apply_isData hresult).classes]
    exact List.nil_subset _
  | logical left op _ right =>
    refine (ih.expr left).bind fun a => ?_
    split
    · exact accounts_pure (List.subset_append_left ..)
    · exact ih.expr right
  | var target => exact accounts_lift (extending_readVariable ..)
  | assign target value =>
    refine (ih.expr value).bind fun v => ?_
    refine (accounts_lift (extending_writeVariable target (List.subset_append_left ..))).bind ?_
    exact fun _ => accounts_pure (List.subset_append_left ..)
  | call callee paren arguments =>
    refine (ih.expr callee).bind fun f => (ih.exprs arguments).bind fun args => ?_
    refine (accounts_lift (extending_checkCall ..)).bind fun _ => .asCall ?_
    exact ih.call f args paren (by simp) (by simp)
  | get object name =>
    exact (ih.expr object).bind fun o => accounts_lift (extending_property o name)
  | set object name value => exact accounts_set_step ih object name value
  | this id span => exact accounts_lift (extending_readVariable ..)
  | super id keyword method => exact accounts_lift (extending_superMethod ..)
  | lambda fn => exact accounts_lift (extending_closure ..)

theorem accounts_exprs_step (ih : AccountsWithin fuel) (es : List Expr) :
    Accounts (Ledger.exprs (fuel + 1) es) given (List.flatMap Value.classes) := by
  cases es with
  | nil => exact accounts_pure (List.nil_subset _)
  | cons e es =>
    refine (ih.expr e).bind fun v => (ih.exprs es).bind fun vs => accounts_pure ?_
    simp

theorem accounts_call_step (ih : AccountsWithin fuel) (callee : Value) (args : List Value)
    (paren : Span) (hcallee : callee.classes ⊆ given) (hargs : args.flatMap Value.classes ⊆ given) :
    Accounts (Ledger.call (fuel + 1) callee args paren) given Value.classes := by
  rw [Ledger.call.eq_def]
  cases callee with
  | native n => exact accounts_lift (extending_callNative n paren hargs)
  | function f =>
    refine (accounts_lift (extending_look _)).bind fun object? => ?_
    refine (accounts_lift (extending_need ..)).bind fun object => ?_
    exact ih.callFunction object args hargs
  | class_ c => exact ih.construct c args (hcallee List.mem_cons_self) hargs
  | _ => exact accounts_lift extending_stop

theorem accounts_construct_step (ih : AccountsWithin fuel) (c : ClassId) (args : List Value)
    (hc : c ∈ given) (hargs : args.flatMap Value.classes ⊆ given) :
    Accounts (Ledger.construct (fuel + 1) c args) given Value.classes := by
  rw [Ledger.construct]
  refine (accounts_lift (extending_newInstance hc)).bind fun i => ?_
  refine (accounts_lift (extending_look _)).bind fun method? => ?_
  cases method? with
  | none => exact accounts_pure (List.nil_subset _)
  | some method =>
    refine (accounts_lift (extending_bind method i)).bind fun bound => ?_
    refine (ih.callFunction bound args hargs).bind fun _ => ?_
    exact accounts_pure (List.nil_subset _)

theorem accounts_callFunction_step (ih : AccountsWithin fuel) (f : FunctionObject)
    (args : List Value) (hargs : args.flatMap Value.classes ⊆ given) :
    Accounts (Ledger.callFunction (fuel + 1) f args) given Value.classes := by
  rw [Ledger.callFunction]
  have hparams : ∀ name v, (Eval.bindParams f.fn.params args).get? name = some v →
      v.classes ⊆ given := fun name v hv c hc =>
    hargs (List.mem_flatMap.mpr ⟨v, mem_of_bindParams hv, hc⟩)
  refine (accounts_lift (extending_newFrame hparams)).bind fun frame => ?_
  refine ((ih.stmts f.fn.body).within frame).bind fun flow => ?_
  exact accounts_lift (extending_callResult f (List.subset_append_left ..))

theorem accounts_stmt_step (ih : AccountsWithin fuel) (s : Stmt) :
    Accounts (Ledger.stmt (fuel + 1) s) given Flow.classes := by
  have hnormal {given : List ClassId} : Accounts (pure Flow.normal) given Flow.classes :=
    accounts_pure (List.nil_subset _)
  rw [Ledger.stmt.eq_def]
  dsimp only
  cases s with
  | expression value => exact (ih.expr value).bind fun _ => hnormal
  | print value =>
    refine (ih.expr value).bind fun v => ?_
    exact (accounts_lift (extending_print v)).bind fun _ => hnormal
  | var name initializer =>
    cases initializer with
    | none => exact (accounts_lift (extending_define _ (List.nil_subset _))).bind fun _ => hnormal
    | some initializer =>
      refine (ih.expr initializer).bind fun v => ?_
      refine (accounts_lift (extending_define _ (List.subset_append_left ..))).bind ?_
      exact fun _ => hnormal
  | block body =>
    refine (accounts_lift (extending_look _)).bind fun outer => ?_
    refine (accounts_lift (extending_newFrame fun name v hv => ?_)).bind fun frame => ?_
    · cases hv
    · exact (ih.stmts body).within frame
  | ifElse condition thenBranch elseBranch =>
    refine (ih.expr condition).bind fun v => ?_
    split
    · exact ih.stmt thenBranch
    · cases elseBranch with
      | some branch => exact ih.stmt branch
      | none => exact hnormal
  | while_ condition body =>
    refine (ih.expr condition).bind fun v => ?_
    split
    · refine (ih.stmt body).bind fun flow => ?_
      cases flow with
      | normal => exact ih.stmt (.while_ condition body)
      | break_ => exact hnormal
      | return_ value => exact accounts_pure (List.subset_append_left ..)
    · exact hnormal
  | break_ keyword => exact accounts_pure (List.nil_subset _)
  | return_ keyword value =>
    cases value with
    | none => exact accounts_pure (List.nil_subset _)
    | some value =>
      exact (ih.expr value).bind fun v => accounts_pure (List.subset_append_left ..)
  | function name fn =>
    refine (accounts_lift (extending_closure ..)).bind fun v => ?_
    refine (accounts_lift (extending_define _ (List.subset_append_left ..))).bind ?_
    exact fun _ => hnormal
  | class_ name superclass methods =>
    exact (accounts_lift (extending_declareClass ..)).bind fun _ => hnormal

theorem accounts_stmts_step (ih : AccountsWithin fuel) (ss : List Stmt) :
    Accounts (Ledger.stmts (fuel + 1) ss) given Flow.classes := by
  cases ss with
  | nil => exact accounts_pure (List.nil_subset _)
  | cons s rest =>
    refine (ih.stmt s).bind fun flow => ?_
    cases flow with
    | normal => exact ih.stmts rest
    | break_ => exact accounts_pure (List.nil_subset _)
    | return_ value => exact accounts_pure (List.subset_append_left ..)

/-- Evaluation is explained by what is booked along with it. -/
theorem accountsWithin (fuel : Nat) : AccountsWithin fuel := by
  induction fuel with
  | zero =>
    constructor <;> intros
    · rw [Ledger.expr]; exact accounts_lift extending_stop
    · rw [Ledger.exprs]; exact accounts_lift extending_stop
    · rw [Ledger.call]; exact accounts_lift extending_stop
    · rw [Ledger.construct]; exact accounts_lift extending_stop
    · rw [Ledger.callFunction]; exact accounts_lift extending_stop
    · rw [Ledger.stmt]; exact accounts_lift extending_stop
    · rw [Ledger.stmts]; exact accounts_lift extending_stop
  | succ fuel ih =>
    exact ⟨accounts_expr_step ih, accounts_exprs_step ih, accounts_call_step ih,
      accounts_construct_step ih, accounts_callFunction_step ih, accounts_stmt_step ih,
      accounts_stmts_step ih⟩

/-! ## Inputs -/

theorem accounts_program (fuel : Nat) (ss : List Stmt) (flows : Array Flow) :
    Accounts (program fuel flows ss) given fun _ => [] := by
  induction ss generalizing flows given with
  | nil => exact accounts_pure (List.nil_subset _)
  | cons s rest ih =>
    refine ((accountsWithin fuel).stmt s).attempt.bind fun outcome => ?_
    cases outcome with
    | ok flow => exact ih (flows.push flow)
    | error diagnostic => exact accounts_pure (List.nil_subset _)

theorem accounts_echo (fuel : Nat) (e : Expr) : Accounts (echo fuel e) given fun _ => [] :=
  ((accountsWithin fuel).expr e).bind fun v => accounts_lift (extending_print v)

theorem accounts_execute (fuel : Nat) (ss : List Stmt) :
    Accounts (execute fuel ss) given fun _ => [] := by
  have hstatements : Accounts (program fuel #[] ss >>= fun completion => pure completion.error)
      given fun _ => [] :=
    (accounts_program fuel ss #[]).bind fun completion => accounts_pure (List.nil_subset _)
  rcases ss with _ | ⟨s, _ | ⟨s', rest⟩⟩
  · exact hstatements
  · cases s with
    | expression e =>
      refine (accounts_echo fuel e).attempt.bind fun outcome => ?_
      cases outcome <;> exact accounts_pure (List.nil_subset _)
    | _ => exact hstatements
  · cases s <;> exact hstatements

/-- Whatever is done with an input is explained. -/
theorem accounts_task (fuel : Nat) (input : Input) (first : Nat) :
    Accounts (task fuel input first) given fun _ => [] := by
  cases input with
  | program source => exact (accounts_execute fuel _).map _ fun _ => List.nil_subset _
  | expression source =>
    unfold task
    dsimp only
    cases (readExpression source first).value with
    | none => exact accounts_lift extending_stop
    | some e =>
      exact ((accountsWithin fuel).expr e).attempt.map _ fun _ => List.nil_subset _

end Lox.Ledger
