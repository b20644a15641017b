import Lox.Eval.Basic

/-! # Data and arguments

The results of operators are data, never objects, and their errors are about
operands. What parameters are bound to
are the arguments of the call. -/

namespace Lox

/-! ## Data -/

/-- A value that is no object. -/
def Value.IsData : Value → Prop
  | .nil | .bool _ | .number _ | .string _ => True
  | .function _ | .class_ _ | .native _ | .instance_ _ => False

theorem Value.IsData.ne_function {v : Value} (h : v.IsData) (f : FunctionId) : v ≠ .function f := by
  rintro rfl
  exact h

theorem Value.IsData.ne_class {v : Value} (h : v.IsData) (c : ClassId) : v ≠ .class_ c := by
  rintro rfl
  exact h

theorem Literal.value_isData (value : Literal) : value.value.IsData := by
  cases value <;> trivial

theorem UnaryOp.apply_isData {op : UnaryOp} {v result : Value} (h : op.apply v = .ok result) :
    result.IsData := by
  unfold UnaryOp.apply at h
  split at h <;> cases h <;> trivial

theorem onNumbers_isData {op : Float → Float → Value} (hop : ∀ x y, (op x y).IsData)
    {a b result : Value} (h : onNumbers op a b = .ok result) : result.IsData := by
  unfold onNumbers at h
  split at h
  · cases h
    exact hop _ _
  · cases h

theorem BinaryOp.apply_isData {op : BinaryOp} {a b result : Value} (h : op.apply a b = .ok result) :
    result.IsData := by
  cases op with
  | add =>
    unfold BinaryOp.apply addValues at h
    dsimp only at h
    split at h <;> cases h <;> trivial
  | equal =>
    cases h
    trivial
  | notEqual =>
    cases h
    trivial
  | _ => exact onNumbers_isData (fun _ _ => by trivial) h

/-! ## Errors of operators -/

/-- An operator was given operands that it does not take. -/
def RuntimeError.OfOperands (error : RuntimeError) : Prop :=
  error = .operandNotNumber ∨ error = .operandsNotNumbers ∨ error = .operandsNotAddable

theorem UnaryOp.ofOperands {op : UnaryOp} {v : Value} {error : RuntimeError}
    (h : op.apply v = .error error) : error.OfOperands := by
  unfold UnaryOp.apply at h
  split at h <;> cases h
  exact .inl rfl

theorem onNumbers_ofOperands {op : Float → Float → Value} {a b : Value} {error : RuntimeError}
    (h : onNumbers op a b = .error error) : error.OfOperands := by
  unfold onNumbers at h
  split at h <;> cases h
  exact .inr (.inl rfl)

theorem BinaryOp.ofOperands {op : BinaryOp} {a b : Value} {error : RuntimeError}
    (h : op.apply a b = .error error) : error.OfOperands := by
  cases op with
  | add =>
    unfold BinaryOp.apply addValues at h
    dsimp only at h
    split at h <;> cases h
    exact .inr (.inr rfl)
  | equal | notEqual => cases h
  | _ => exact onNumbers_ofOperands h

theorem RuntimeError.OfOperands.ne_initializerUnbound {error : RuntimeError}
    (h : error.OfOperands) : error ≠ .initializerUnbound := by
  rintro rfl
  rcases h with h | h | h <;> cases h

/-! ## Arguments -/

/-- A table into which parameters are entered with their arguments. -/
theorem bindParams_fold (pairs : List (Ident × Value)) (names : Bindings Value) (name : String) :
    ((pairs.foldl (fun names entry => names.insert entry.1.text entry.2) names).get? name =
        names.get? name ∧ name ∉ pairs.map fun entry => entry.1.text) ∨
      ∃ entry ∈ pairs, entry.1.text = name ∧
        (pairs.foldl (fun names entry => names.insert entry.1.text entry.2) names).get? name =
          some entry.2 := by
  induction pairs generalizing names with
  | nil => exact .inl ⟨rfl, List.not_mem_nil⟩
  | cons first rest ih =>
    rw [List.foldl_cons]
    rcases ih (names.insert first.1.text first.2) with ⟨hkept, habsent⟩ | ⟨entry, hmem, hentry⟩
    · rw [Bindings.get?_insert] at hkept
      by_cases hname : first.1.text = name
      · rw [if_pos hname] at hkept
        exact .inr ⟨first, List.mem_cons_self, hname, hkept⟩
      · rw [if_neg hname] at hkept
        refine .inl ⟨hkept, fun hmem => ?_⟩
        rcases List.mem_cons.mp hmem with heq | hmem
        · exact hname heq.symm
        · exact habsent hmem
    · exact .inr ⟨entry, List.mem_cons_of_mem _ hmem, hentry⟩

/-- What parameters are bound to are arguments. -/
theorem mem_of_bindParams {params : List Ident} {args : List Value} {name : String} {v : Value}
    (h : (Eval.bindParams params args).get? name = some v) : v ∈ args := by
  rcases bindParams_fold (params.zip args) .empty name with ⟨hempty, -⟩ | ⟨entry, hmem, -, hentry⟩
  · cases h.symm.trans hempty
  · obtain rfl := Option.some.inj (h.symm.trans hentry)
    exact (List.of_mem_zip hmem).2

/-- Every parameter is bound when there are enough arguments. -/
theorem contains_bindParams {params : List Ident} {args : List Value} {name : String}
    (hlength : params.length = args.length) (hname : name ∈ params.map Ident.text) :
    (Eval.bindParams params args).contains name = true := by
  rcases bindParams_fold (params.zip args) .empty name with ⟨-, habsent⟩ | ⟨entry, -, -, hentry⟩
  · have hfirst := List.map_fst_zip (Nat.le_of_eq hlength)
    have hnames : (params.zip args).map (fun entry => entry.1.text) = params.map Ident.text :=
      calc
        _ = ((params.zip args).map Prod.fst).map Ident.text := List.map_map.symm
        _ = params.map Ident.text := by rw [hfirst]
    rw [hnames] at habsent
    exact absurd hname habsent
  · show ((Eval.bindParams params args).get? name).isSome = true
    exact Option.isSome_iff_exists.mpr ⟨_, hentry⟩

/-- Parameters of different names are bound to their arguments. -/
theorem get?_bindParams {params : List Ident} {args : List Value}
    (hnodup : (params.map Ident.text).Nodup) {k : Nat} {name : Ident} {v : Value}
    (hname : params[k]? = some name) (hv : args[k]? = some v) :
    (Eval.bindParams params args).get? name.text = some v := by
  have hentry : (params.zip args)[k]? = some (name, v) := by
    rw [List.zip_eq_zipWith, List.getElem?_zipWith, hname, hv]
  rcases bindParams_fold (params.zip args) .empty name.text with
    ⟨-, habsent⟩ | ⟨entry, hmem, htext, hget⟩
  · exact absurd (List.mem_map_of_mem (List.mem_of_getElem? hentry)) habsent
  · obtain ⟨j, hj⟩ := List.mem_iff_getElem?.mp hmem
    have hjth : params[j]? = some entry.1 ∧ args[j]? = some entry.2 := by
      rw [List.zip_eq_zipWith, List.getElem?_zipWith] at hj
      cases hp : params[j]? with
      | none => simp [hp] at hj
      | some a =>
        cases ha : args[j]? with
        | none => simp [hp, ha] at hj
        | some b =>
          simp only [hp, ha] at hj
          obtain rfl := Option.some.inj hj
          exact ⟨rfl, rfl⟩
    have htexts : ∀ {l : Nat} {a : Ident}, params[l]? = some a →
        (params.map Ident.text)[l]? = some a.text := fun h => by rw [List.getElem?_map, h]; rfl
    have hsame : j = k := by
      have hlt := (List.getElem?_eq_some_iff.mp (htexts hjth.1)).1
      refine (List.getElem?_inj hlt hnodup).mp ?_
      rw [htexts hjth.1, htexts hname, htext]
    obtain rfl := Option.some.inj (hv.symm.trans (hsame ▸ hjth.2))
    exact hget

end Lox
