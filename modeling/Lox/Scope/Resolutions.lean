import Lox.Syntax

/-! # What is known about scopes

For a node whose name is declared in a scope around it, the number of scopes
between the node and the declaration is recorded. A node without a record
means a global name. Node numbers are handed out in sequence, so the records
stand in an array at the place of their number. -/

namespace Lox

/-- The recorded distances between uses of names and their declarations. -/
structure Resolutions where
  table : Array (Option Nat) := #[]
deriving Repr, DecidableEq, Inhabited

namespace Resolutions

/-- Nothing is recorded. -/
def empty : Resolutions := {}

/-- The distance recorded for a node. -/
def find? (r : Resolutions) (id : Nat) : Option Nat := r.table[id]?.getD none

/-- Records a distance for a node, in place of what was recorded for it. -/
def record (r : Resolutions) (id : Nat) (hops : Nat) : Resolutions :=
  if id < r.table.size then ⟨r.table.setIfInBounds id (some hops)⟩
  else ⟨(r.table ++ Array.replicate (id - r.table.size) none).push (some hops)⟩

/-- Records distances in order. -/
def recordAll (r : Resolutions) (found : Array (Nat × Nat)) : Resolutions :=
  found.foldl (fun r entry => r.record entry.1 entry.2) r

/-- Drops what is recorded for the nodes from a number on. -/
def forgetFrom (r : Resolutions) (first : Nat) : Resolutions := ⟨r.table.take first⟩

/-- For how many nodes a distance is recorded. -/
def count (r : Resolutions) : Nat := r.table.countP Option.isSome

@[simp] theorem find?_empty (id : Nat) : empty.find? id = none := by
  simp [empty, find?]

theorem find?_record (r : Resolutions) (id other : Nat) (hops : Nat) :
    (r.record id hops).find? other = if id = other then some hops else r.find? other := by
  unfold record
  split
  · next h =>
    by_cases ho : id = other
    · subst ho; simp [find?, h]
    · simp [find?, ho, Array.getElem?_setIfInBounds_ne]
  · next h =>
    have hs : (r.table ++ Array.replicate (id - r.table.size) (none : Option Nat)).size = id := by
      simp only [Array.size_append, Array.size_replicate]; omega
    by_cases ho : id = other
    · subst ho
      simp only [find?, Array.getElem?_push, hs, if_true, Option.getD_some]
    · simp only [find?, Array.getElem?_push, hs, ho, if_false, Ne.symm ho,
        Array.getElem?_append, Array.getElem?_replicate]
      split
      · rfl
      · next hlt =>
        rw [Array.getElem?_eq_none (Nat.le_of_not_lt hlt)]
        split <;> rfl

theorem find?_forgetFrom (r : Resolutions) (first id : Nat) :
    (r.forgetFrom first).find? id = if id < first then r.find? id else none := by
  simp only [forgetFrom, find?, Array.take_eq_extract, Array.getElem?_extract, Nat.zero_add,
    Nat.sub_zero]
  by_cases h : id < first
  · by_cases hs : id < r.table.size
    · rw [if_pos (by omega), if_pos h]
    · rw [if_neg (by omega), if_pos h, Array.getElem?_eq_none (by omega)]
  · rw [if_neg (by omega), if_neg h]; rfl

end Resolutions
end Lox
