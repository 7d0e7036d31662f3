import DeclTree.Text.LineIndex

/-!
# Line indexes with checked arithmetic

The scan and the queries of a line index once more, with exact numbers in place of words.  A number
becomes a word only if it fits, and nothing is taken from zero: where a computation on words would
wrap around or settle for the largest word, the computation here stops with a fault.
-/

namespace DeclTree.Text

/-- How a step of arithmetic leaves the range of its numbers. -/
inductive RangeFault
  /-- The number does not fit into a word. -/
  | tooLarge (value : Nat)
  /-- One would have to be taken from zero. -/
  | belowZero
deriving DecidableEq

/-- A computation that stops when it leaves the range of its numbers. -/
abbrev Checked := Except RangeFault

namespace Checked

/-- The word with a given value. -/
def word (n : Nat) : Checked UInt32 :=
  match Offset.ofNat? n with
  | some w => .ok w
  | none => .error (.tooLarge n)

/-- One less. -/
def pred : Nat → Checked Nat
  | 0 => .error .belowZero
  | n + 1 => .ok n

@[simp] theorem ok_bind {α β : Type} (x : α) (next : α → Checked β) :
    ((Except.ok x : Checked α) >>= next) = next x := rfl

end Checked

/-- The index of the last word up to the one searched for. -/
def Place.lastUpTo : Place → Checked Nat
  | found i => .ok i
  | insertAt i => Checked.pred i

namespace LineIndex

/-- The line index of a source text. -/
def buildChecked (source : String) : Checked LineIndex := do
  let length ← Checked.word source.utf8ByteSize
  if source.isEmpty then return ⟨#[], length⟩
  let later ← (afterNewlines (bytesOf source)).mapM Checked.word
  return ⟨(0 :: later).toArray, length⟩

/-- The line that holds the byte at an offset; nothing beyond the source. -/
def lineNumberChecked (ix : LineIndex) (offset : UInt32) : Checked (Option UInt32) := do
  if ix.length ≤ offset then return none
  let index ← (search ix.starts offset).lastUpTo
  let line ← Checked.word (index + 1)
  return some line

/-- The offset at which a line starts. -/
def lineStartChecked (ix : LineIndex) (line : UInt32) : Checked (Option UInt32) := do
  if line = 0 then return none
  let index ← Checked.pred line.toNat
  return ix.starts[index]?

/-- Line and column of an offset, where `source` need not be the text of the index. -/
def lineColChecked (ix : LineIndex) (source : String) (offset : UInt32) :
    Checked (Option (UInt32 × UInt32)) := do
  let some line ← ix.lineNumberChecked offset | return none
  let some start ← ix.lineStartChecked line | return none
  let some before := sliceChars source.toList start.toNat offset.toNat | return none
  let count ← Checked.word before.length
  let column ← Checked.word (count.toNat + 1)
  return some (line, column)

end LineIndex

end DeclTree.Text
