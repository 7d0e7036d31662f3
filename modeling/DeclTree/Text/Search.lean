/-!
# Binary search

Finds a word in an ascending array of words, or the place where it would have to be inserted.
-/

namespace DeclTree.Text

/-- The outcome of a search in an ascending array. -/
inductive Place
  /-- The word stands at this index. -/
  | found (index : Nat)
  /-- The word is missing; every smaller word stands before this index. -/
  | insertAt (index : Nat)
deriving DecidableEq

/-- Searches among the indices `lo ≤ i < hi`. -/
def searchBetween (words : Array UInt32) (key : UInt32) (lo hi : Nat) : Place :=
  if lo < hi then
    let mid := lo + (hi - lo) / 2
    match words[mid]? with
    | none => .insertAt lo
    | some word =>
      if word = key then .found mid
      else if word < key then searchBetween words key (mid + 1) hi
      else searchBetween words key lo mid
  else .insertAt lo
termination_by hi - lo
decreasing_by
  · omega
  · omega

/-- Searches an ascending array for a word. -/
def search (words : Array UInt32) (key : UInt32) : Place :=
  searchBetween words key 0 words.size

end DeclTree.Text
