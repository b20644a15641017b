import Lox.Machine.Basic

/-! # What a computation ends in

A computation ends in a result or in a reason to stop, and either way it leaves
a state. `Ends` says of both endings what holds there, so that one statement
covers every exit of a computation. -/

namespace Lox

variable {ε σ α β : Type}

/-- A computation ends with a result such as `ok` says, or stops such as `stopped` says. -/
def Ends (r : EStateM ε σ α) (s : σ) (ok : α → σ → Prop) (stopped : ε → σ → Prop) : Prop :=
  match r s with
  | .ok a s => ok a s
  | .error e s => stopped e s

variable {r : EStateM ε σ α} {s : σ} {ok ok' : α → σ → Prop} {stopped stopped' : ε → σ → Prop}

theorem Ends.imp (h : Ends r s ok stopped) (hok : ∀ a t, ok a t → ok' a t)
    (hstopped : ∀ e t, stopped e t → stopped' e t) : Ends r s ok' stopped' := by
  unfold Ends at h ⊢
  cases hr : r s with
  | ok a t => rw [hr] at h; exact hok a t h
  | error e t => rw [hr] at h; exact hstopped e t h

theorem Ends.and (h : Ends r s ok stopped) (h' : Ends r s ok' stopped') :
    Ends r s (fun a t => ok a t ∧ ok' a t) (fun e t => stopped e t ∧ stopped' e t) := by
  unfold Ends at h h' ⊢
  cases hr : r s with
  | ok a t => rw [hr] at h h'; exact ⟨h, h'⟩
  | error e t => rw [hr] at h h'; exact ⟨h, h'⟩

theorem Ends.of_ok {a : α} {t : σ} (h : Ends r s ok stopped) (hr : r s = .ok a t) : ok a t := by
  unfold Ends at h; rw [hr] at h; exact h

theorem Ends.of_error {e : ε} {t : σ} (h : Ends r s ok stopped) (hr : r s = .error e t) :
    stopped e t := by
  unfold Ends at h; rw [hr] at h; exact h

theorem ends_of_error {e : ε} {t : σ} (hr : r s = .error e t) :
    Ends r s ok stopped ↔ stopped e t := by
  unfold Ends; rw [hr]

@[simp] theorem ends_pure {a : α} : Ends (pure a) s ok stopped ↔ ok a s := Iff.rfl

@[simp] theorem ends_throw {e : ε} :
    Ends (throw e : EStateM ε σ α) s ok stopped ↔ stopped e s := Iff.rfl

/-- What a computation ends in, the next one starts from. -/
@[simp] theorem ends_bind {k : α → EStateM ε σ β} {ok : β → σ → Prop} :
    Ends (r >>= k) s ok stopped ↔ Ends r s (fun a t => Ends (k a) t ok stopped) stopped := by
  unfold Ends
  simp only [bind, EStateM.bind]
  cases r s <;> rfl

@[simp] theorem ends_map {f : α → β} {ok : β → σ → Prop} :
    Ends (f <$> r) s ok stopped ↔ Ends r s (fun a t => ok (f a) t) stopped := by
  unfold Ends
  simp only [Functor.map, EStateM.map]
  cases r s <;> rfl

theorem bind_of_ok {k : α → EStateM ε σ β} {a : α} {t : σ} (hr : r s = .ok a t) :
    (r >>= k) s = k a t := by
  simp only [bind, EStateM.bind, hr]

theorem bind_of_error {k : α → EStateM ε σ β} {e : ε} {t : σ} (hr : r s = .error e t) :
    (r >>= k) s = .error e t := by
  simp only [bind, EStateM.bind, hr]

theorem map_of_ok {f : α → β} {a : α} {t : σ} (hr : r s = .ok a t) :
    (f <$> r) s = .ok (f a) t := by
  simp only [Functor.map, EStateM.map, hr]

/-! ## Steps of a machine -/

namespace Run

variable {α β : Type} {m : Machine}

theorem ask_bind (f : Machine → α) (k : α → Run β) : (ask f >>= k) m = k (f m) m := rfl

theorem pure_bind (a : α) (k : α → Run β) : ((pure a : Run α) >>= k) m = k a m := rfl

theorem orElseFail_some (a : α) (error : RuntimeError) (span : Span) :
    orElseFail (some a) error span = pure a := rfl

variable {r : Run α} {a : α} {stop : Stop} {frame : FrameId} {t : Machine}

theorem within_of_ok (hr : r { m with current := frame } = .ok a t) :
    within frame r m = .ok a { t with current := m.current } := by
  simp only [within, hr]

theorem within_of_error (hr : r { m with current := frame } = .error stop t) :
    within frame r m = .error stop { t with current := m.current } := by
  simp only [within, hr]

theorem asCall_of_ok (hr : r { m with callDepth := m.callDepth + 1 } = .ok a t) :
    asCall r m = .ok a { t with callDepth := m.callDepth } := by
  simp only [asCall, hr]

theorem asCall_of_error (hr : r { m with callDepth := m.callDepth + 1 } = .error stop t) :
    asCall r m = .error stop { t with callDepth := m.callDepth } := by
  simp only [asCall, hr]

end Run
end Lox
