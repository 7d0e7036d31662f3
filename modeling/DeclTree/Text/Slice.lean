/-!
# Pieces of a text by byte offsets

Offsets count the bytes of the UTF-8 form of a text.  A piece exists only if both of its ends
lie between characters, and not inside one.
-/

namespace DeclTree.Text

/-- The number of bytes that characters take. -/
def byteLength : List Char → Nat
  | [] => 0
  | c :: rest => c.utf8Size + byteLength rest

/-- What remains after the first `n` bytes, if they end between two characters. -/
def dropBytes : List Char → Nat → Option (List Char)
  | chars, 0 => some chars
  | [], _ + 1 => none
  | c :: rest, n + 1 =>
    if c.utf8Size ≤ n + 1 then dropBytes rest (n + 1 - c.utf8Size) else none

/-- The characters in the first `n` bytes, if these end between two characters. -/
def takeBytes : List Char → Nat → Option (List Char)
  | _, 0 => some []
  | [], _ + 1 => none
  | c :: rest, n + 1 =>
    if c.utf8Size ≤ n + 1 then (takeBytes rest (n + 1 - c.utf8Size)).map (c :: ·) else none

/-- The characters in the bytes `start ≤ i < stop`, if both ends lie between characters of the
text and in this order. -/
def sliceChars (chars : List Char) (start stop : Nat) : Option (List Char) :=
  if start ≤ stop then
    (dropBytes chars start).bind fun rest => takeBytes rest (stop - start)
  else none

/-- The piece of a text in the bytes `start ≤ i < stop`, if there is one. -/
def slice (text : String) (start stop : Nat) : Option String :=
  (sliceChars text.toList start stop).map String.ofList

/-- Where the first `n` bytes can be taken, the text is what they hold and what remains. -/
theorem append_of_takeBytes {chars front : List Char} {n : Nat}
    (h : takeBytes chars n = some front) :
    ∃ back, chars = front ++ back ∧ dropBytes chars n = some back ∧ byteLength front = n := by
  induction chars generalizing n front with
  | nil =>
    cases n with
    | zero => simp_all [takeBytes, dropBytes, byteLength]
    | succ n => simp [takeBytes] at h
  | cons c rest ih =>
    cases n with
    | zero =>
      simp only [takeBytes, Option.some.injEq] at h
      subst h
      exact ⟨c :: rest, rfl, rfl, rfl⟩
    | succ n =>
      simp only [takeBytes] at h
      split at h
      · rename_i fits
        obtain ⟨tail, htail, rfl⟩ := Option.map_eq_some_iff.1 h
        obtain ⟨back, happ, hdrop, hlen⟩ := ih htail
        refine ⟨back, by simp [happ], by simp [dropBytes, fits, hdrop], ?_⟩
        simp only [byteLength]
        omega
      · cases h

end DeclTree.Text
