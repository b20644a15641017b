/-! # Reading UTF-8

A byte sequence is read into characters, or refused with the place and the
kind of the first fault. A fault names the length of the longest start of a
character that the offending bytes form; it has no length when the text ends
inside a character that could still have been completed. -/

namespace Lox.Text.Utf8

/-- Why a byte sequence is no text. -/
structure Fault where
  /-- How many bytes before the fault are well formed. -/
  index : Nat
  /-- How many bytes the faulty start of a character has. -/
  length : Option Nat
deriving Repr, DecidableEq

/-- The words of a fault. -/
def Fault.message (fault : Fault) : String :=
  match fault.length with
  | some n => s!"invalid utf-8 sequence of {n} bytes from index {fault.index}"
  | none => s!"incomplete utf-8 byte sequence from index {fault.index}"

/-- What the first byte of a character says about the rest of it. -/
structure Lead where
  /-- How many continuation bytes follow. -/
  owed : Nat
  /-- The least and the greatest continuation byte that may come next. -/
  low : Nat
  high : Nat
  /-- The bits of the code point that the first byte holds. -/
  bits : Nat
deriving Repr, DecidableEq

/-- The meaning of a byte at the start of a character. The narrow ranges keep
out overlong forms, surrogates and values past the last code point. -/
def Lead.ofByte? (b : Nat) : Option Lead :=
  if b < 0x80 then some ⟨0, 0x80, 0xBF, b⟩
  else if b < 0xC2 then none
  else if b < 0xE0 then some ⟨1, 0x80, 0xBF, b - 0xC0⟩
  else if b = 0xE0 then some ⟨2, 0xA0, 0xBF, 0⟩
  else if b = 0xED then some ⟨2, 0x80, 0x9F, 13⟩
  else if b < 0xF0 then some ⟨2, 0x80, 0xBF, b - 0xE0⟩
  else if b = 0xF0 then some ⟨3, 0x90, 0xBF, 0⟩
  else if b < 0xF4 then some ⟨3, 0x80, 0xBF, b - 0xF0⟩
  else if b = 0xF4 then some ⟨3, 0x80, 0x8F, 4⟩
  else none

/-- Where the reading stands between two bytes. -/
structure State where
  /-- Continuation bytes that the open character still needs. -/
  owed : Nat
  low : Nat
  high : Nat
  /-- The code point read so far, and how many bytes of it. -/
  bits : Nat
  seen : Nat
  /-- The byte offset at which the open character, or the next one, starts. -/
  start : Nat
  /-- The characters read, last first. -/
  done : List Char

/-- A character begins with the byte `b`. -/
def opened (s : State) (b : Nat) : Except Fault State :=
  match Lead.ofByte? b with
  | none => .error ⟨s.start, some 1⟩
  | some ⟨0, _, _, bits⟩ => .ok { s with start := s.start + 1, done := Char.ofNat bits :: s.done }
  | some ⟨owed, low, high, bits⟩ => .ok { s with owed, low, high, bits, seen := 1 }

/-- The open character goes on with the byte `b`. -/
def extended (s : State) (b : Nat) : Except Fault State :=
  if s.low ≤ b ∧ b ≤ s.high then
    let bits := s.bits * 64 + (b - 0x80)
    if s.owed = 1 then
      .ok { s with owed := 0, start := s.start + s.seen + 1, done := Char.ofNat bits :: s.done }
    else
      .ok { s with owed := s.owed - 1, low := 0x80, high := 0xBF, bits, seen := s.seen + 1 }
  else .error ⟨s.start, some s.seen⟩

/-- One byte. -/
def step (s : State) (b : Nat) : Except Fault State :=
  if s.owed = 0 then opened s b else extended s b

/-- All bytes that are left. -/
def run (s : State) : List UInt8 → Except Fault (List Char)
  | [] => if s.owed = 0 then .ok s.done.reverse else .error ⟨s.start, none⟩
  | b :: bs =>
    match step s b.toNat with
    | .ok t => run t bs
    | .error fault => .error fault

/-- The text that a byte sequence encodes. -/
def decode (bytes : List UInt8) : Except Fault String :=
  (run ⟨0, 0x80, 0xBF, 0, 0, 0, []⟩ bytes).map String.ofList

end Lox.Text.Utf8
