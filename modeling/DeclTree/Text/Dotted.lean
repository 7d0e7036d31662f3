/-!
# Dotted names

A dotted name is a text cut into segments by full stops, as in `a.b.Outer.Inner`.  Every text
has a last segment; it is the text itself when there is no full stop in it.
-/

namespace DeclTree.Text

/-- The characters after the last full stop. -/
def lastSegmentChars (chars : List Char) : List Char :=
  (chars.reverse.takeWhile (· != '.')).reverse

/-- What follows the last full stop of a text, or the whole text if it has none. -/
def lastSegment (text : String) : String :=
  String.ofList (lastSegmentChars text.toList)

/-- The last segment holds no full stop. -/
theorem not_mem_lastSegmentChars (chars : List Char) : '.' ∉ lastSegmentChars chars := by
  intro h
  have all := List.all_takeWhile (p := (· != '.')) (l := chars.reverse)
  simpa using List.all_eq_true.1 all '.' (List.mem_reverse.1 h)

end DeclTree.Text
