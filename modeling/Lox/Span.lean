import Lox.Text.Line

/-! # Spans and locations

A span is a half-open range of byte offsets into a source text. Tokens and
syntax trees carry spans only; the line and the column are worked out when a
place has to be shown. -/

namespace Lox

/-- The bytes from `start` up to, and without, `stop`. -/
structure Span where
  start : Nat
  stop : Nat
deriving Repr, DecidableEq, Inhabited

/-- A place as people count it: lines from one, columns, in bytes, from zero. -/
structure Location where
  line : Nat
  column : Nat
deriving Repr, DecidableEq

namespace Span

/-- The empty span at an offset. -/
def point (offset : Nat) : Span := ⟨offset, offset⟩

/-- The least span that covers both. -/
def cover (a b : Span) : Span := ⟨min a.start b.start, max a.stop b.stop⟩

/-- Where a span starts in a source text. A start past the end of the text
counts as its end. -/
def location (span : Span) (source : String) : Location :=
  let offset := min span.start source.utf8ByteSize
  let line := Text.lineAt source offset
  ⟨line.number, offset - line.start⟩

end Span
end Lox
