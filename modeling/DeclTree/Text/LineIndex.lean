import DeclTree.Span
import DeclTree.Text.Offset
import DeclTree.Text.Search
import DeclTree.Text.Slice

/-!
# Line index

The line index of a source text records at which byte each line starts.  It is built by one
scan over the bytes; a query is a binary search.

Lines are numbered from 1.  A newline belongs to the line that it ends, so the line after a
final newline has a start but holds no byte.  The empty text has no lines.
-/

namespace DeclTree.Text

/-- The byte that ends a line. -/
def newline : UInt8 := 10

/-- The offsets just after each newline, in order. -/
def afterNewlines (bytes : List UInt8) : List Nat :=
  bytes.zipIdx.filterMap fun (byte, i) => if byte = newline then some (i + 1) else none

/-- The bytes of a text. -/
def bytesOf (text : String) : List UInt8 := text.toUTF8.data.toList

/-- Where the lines of a source text start. -/
structure LineIndex where
  /-- The offset of the first byte of each line, ascending. -/
  starts : Array UInt32
  /-- The length of the source in bytes. -/
  length : UInt32
deriving DecidableEq

namespace LineIndex

/-- The line index of a source text. -/
def build (source : String) : LineIndex where
  starts :=
    if source.isEmpty then #[]
    else ((0 :: afterNewlines (bytesOf source)).map Offset.clamp).toArray
  length := Offset.clamp source.utf8ByteSize

/-- The number of recorded line starts. -/
def lineCount (ix : LineIndex) : Nat := ix.starts.size

/-- The line that holds the byte at an offset; nothing beyond the source. -/
def lineNumber (ix : LineIndex) (offset : UInt32) : Option UInt32 :=
  if ix.length ≤ offset then none
  else
    match search ix.starts offset with
    | .found i => Offset.ofNat? (i + 1)
    | .insertAt i => Offset.ofNat? (i - 1 + 1)

/-- The line on which a span starts. -/
def lineNumberFor (ix : LineIndex) (span : Span) : Option UInt32 := ix.lineNumber span.start

/-- The offset at which a line starts. -/
def lineStart (ix : LineIndex) (line : UInt32) : Option UInt32 :=
  if line = 0 then none else ix.starts[(line - 1).toNat]?

/-- Line and column of an offset.  Columns are numbered from 1 and count the characters of
`source` between the start of the line and the offset; `source` need not be the text that the
index was built from. -/
def lineCol (ix : LineIndex) (source : String) (offset : UInt32) : Option (UInt32 × UInt32) := do
  let line ← ix.lineNumber offset
  let start ← ix.lineStart line
  let before ← sliceChars source.toList start.toNat offset.toNat
  return (line, (Offset.ofNat? before.length).getD (Offset.last - 1) + 1)

end LineIndex

end DeclTree.Text
