/-! # Names and what they are bound to

A small table from names to values. A name is bound at most once: binding it
again replaces its value, and nothing else. -/

namespace Lox

/-- A table from names to values, in the order in which the names were first bound. -/
structure Bindings (α : Type) where
  entries : List (String × α)
deriving Repr, DecidableEq

namespace Bindings

variable {α : Type}

/-- The table in which nothing is bound. -/
def empty : Bindings α := ⟨[]⟩

instance : Inhabited (Bindings α) := ⟨empty⟩

/-- The value of a name in a list of entries. -/
def lookup (name : String) : List (String × α) → Option α
  | [] => none
  | (key, value) :: rest => if key = name then some value else lookup name rest

/-- Entries in which a name is bound to a value. -/
def put (name : String) (value : α) : List (String × α) → List (String × α)
  | [] => [(name, value)]
  | (key, old) :: rest =>
    if key = name then (name, value) :: rest else (key, old) :: put name value rest

/-- The value of a name. -/
def get? (b : Bindings α) (name : String) : Option α := lookup name b.entries

/-- Whether a name is bound. -/
def contains (b : Bindings α) (name : String) : Bool := (b.get? name).isSome

/-- Binds a name, in place of what it was bound to. -/
def insert (b : Bindings α) (name : String) (value : α) : Bindings α :=
  ⟨put name value b.entries⟩

@[simp] theorem get?_empty (name : String) : (empty : Bindings α).get? name = none := rfl

theorem lookup_put (name other : String) (value : α) (entries : List (String × α)) :
    lookup other (put name value entries) =
      if name = other then some value else lookup other entries := by
  induction entries with
  | nil => simp [put, lookup]
  | cons entry rest ih =>
    obtain ⟨key, old⟩ := entry
    by_cases hk : key = name
    · subst hk
      by_cases ho : key = other <;> simp [put, lookup, ho]
    · by_cases ho : key = other
      · subst ho
        simp [put, lookup, hk, Ne.symm hk]
      · simp [put, lookup, hk, ho, ih]

theorem get?_insert (b : Bindings α) (name other : String) (value : α) :
    (b.insert name value).get? other = if name = other then some value else b.get? other :=
  lookup_put name other value b.entries

@[simp] theorem get?_insert_self (b : Bindings α) (name : String) (value : α) :
    (b.insert name value).get? name = some value := by simp [get?_insert]

theorem get?_insert_of_ne (b : Bindings α) {name other : String} (h : name ≠ other) (value : α) :
    (b.insert name value).get? other = b.get? other := by simp [get?_insert, h]

end Bindings
end Lox
