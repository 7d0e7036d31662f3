/-!
# Spans

A span is a range of bytes in the source text of a compilation unit.  Offsets are 32-bit
words: a unit refuses sources that are longer.
-/

namespace DeclTree

/-- The bytes `start ≤ i < stop` of a source text. -/
structure Span where
  /-- Offset of the first byte. -/
  start : UInt32
  /-- Offset just after the last byte. -/
  stop : UInt32
deriving DecidableEq

namespace Span

/-- The span of nodes that stand for no piece of source text. -/
def dummy : Span := ⟨0, 0⟩

/-- The written form of a span. -/
def text (span : Span) : String :=
  toString span.start.toNat ++ ".." ++ toString span.stop.toNat

end Span

end DeclTree
