import Mathlib.Data.String.Basic
import DeclTree.Text.LineIndex

/-!
# Boundaries between characters

Offsets count bytes, while a character takes one to four of them.  An offset is of use only if it
lies between two characters, and a piece can be taken out of a text exactly if both of its ends do:
`sliceChars_eq_some_iff`.  Of the bytes of a character that takes several, none is in ASCII.  So the
newline byte never lies inside of a character, `newline_mem_utf8EncodeChar`, and a scan for it over
the bytes finds the newlines of the text and nothing else.
-/

namespace DeclTree.Text

/-! ## The length of characters in bytes -/

lemma byteLength_eq_utf8Len (chars : List Char) : byteLength chars = String.utf8Len chars := by
  induction chars with
  | nil => rfl
  | cons c rest ih => rw [byteLength, ih, String.utf8Len_cons, Nat.add_comm]

lemma byteLength_toList (text : String) : byteLength text.toList = text.utf8ByteSize := by
  rw [byteLength_eq_utf8Len, ← String.utf8ByteSize_ofList, String.ofList_toList]

@[simp] lemma byteLength_append (front back : List Char) :
    byteLength (front ++ back) = byteLength front + byteLength back := by
  rw [byteLength_eq_utf8Len, byteLength_eq_utf8Len, byteLength_eq_utf8Len, String.utf8Len_append]

lemma length_le_byteLength (chars : List Char) : chars.length ≤ byteLength chars := by
  induction chars with
  | nil => exact Nat.le_refl _
  | cons c rest ih =>
    have hpos := c.utf8Size_pos
    rw [byteLength, List.length_cons]
    omega

/-- Of two fronts of a text, the one with fewer bytes has fewer characters. -/
lemma length_lt_of_byteLength_lt {front front' back back' : List Char}
    (h : front ++ back = front' ++ back') (hless : byteLength front < byteLength front') :
    front.length < front'.length := by
  rcases List.append_eq_append_iff.mp h with ⟨more, rfl, -⟩ | ⟨more, rfl, -⟩
  · rw [byteLength_append] at hless
    have hmore : more ≠ [] := by
      rintro rfl
      simp [byteLength] at hless
    rw [List.length_append]
    exact Nat.lt_add_of_pos_right (List.length_pos_iff.mpr hmore)
  · rw [byteLength_append] at hless
    omega

lemma eq_nil_of_byteLength_eq_zero {chars : List Char} (h : byteLength chars = 0) : chars = [] :=
  List.eq_nil_of_length_eq_zero (Nat.eq_zero_of_le_zero (h ▸ length_le_byteLength chars))

/-- Two fronts of a text with the same number of bytes are the same. -/
lemma append_inj_of_byteLength {front front' back back' : List Char}
    (h : front ++ back = front' ++ back') (hsame : byteLength front = byteLength front') :
    front = front' ∧ back = back' := by
  rcases List.append_eq_append_iff.mp h with ⟨more, rfl, rfl⟩ | ⟨more, rfl, rfl⟩
  all_goals
    rw [byteLength_append] at hsame
    have hmore : byteLength more = 0 := by omega
    obtain rfl := eq_nil_of_byteLength_eq_zero hmore
    exact ⟨by rw [List.append_nil], rfl⟩

/-! ## Pieces -/

lemma dropBytes_eq_some_iff {chars back : List Char} {n : Nat} :
    dropBytes chars n = some back ↔ ∃ front, chars = front ++ back ∧ byteLength front = n := by
  constructor
  · intro h
    fun_induction dropBytes chars n with
    | case1 chars =>
      obtain rfl := Option.some.inj h
      exact ⟨[], rfl, rfl⟩
    | case2 => cases h
    | case3 c rest n hfits ih =>
      obtain ⟨front, rfl, hlength⟩ := ih h
      refine ⟨c :: front, rfl, ?_⟩
      rw [byteLength]
      omega
    | case4 => cases h
  · rintro ⟨front, rfl, rfl⟩
    induction front with
    | nil => simp [byteLength, dropBytes]
    | cons c front ih =>
      obtain ⟨n, hn⟩ :=
        Nat.exists_eq_add_one.mpr (Nat.add_pos_left c.utf8Size_pos (byteLength front))
      rw [byteLength, hn, List.cons_append, dropBytes, if_pos (by omega),
        show n + 1 - c.utf8Size = byteLength front by omega, ih]

lemma takeBytes_eq_some_iff {chars front : List Char} {n : Nat} :
    takeBytes chars n = some front ↔ ∃ back, chars = front ++ back ∧ byteLength front = n := by
  constructor
  · intro h
    obtain ⟨back, hchars, -, hlength⟩ := append_of_takeBytes h
    exact ⟨back, hchars, hlength⟩
  · rintro ⟨back, rfl, rfl⟩
    induction front with
    | nil => simp [byteLength, takeBytes]
    | cons c front ih =>
      obtain ⟨n, hn⟩ :=
        Nat.exists_eq_add_one.mpr (Nat.add_pos_left c.utf8Size_pos (byteLength front))
      rw [byteLength, hn, List.cons_append, takeBytes, if_pos (by omega),
        show n + 1 - c.utf8Size = byteLength front by omega, ih, Option.map_some]

/-- A piece is what lies between a front that ends where it starts and a back. -/
lemma sliceChars_eq_some_iff {chars piece : List Char} {start stop : Nat} :
    sliceChars chars start stop = some piece ↔
      ∃ front back, chars = front ++ piece ++ back ∧ byteLength front = start ∧
        byteLength front + byteLength piece = stop := by
  rw [sliceChars]
  constructor
  · intro h
    split at h
    · next hle =>
      obtain ⟨rest, hdrop, htake⟩ := Option.bind_eq_some_iff.mp h
      obtain ⟨front, rfl, rfl⟩ := dropBytes_eq_some_iff.mp hdrop
      obtain ⟨back, rfl, hlength⟩ := takeBytes_eq_some_iff.mp htake
      exact ⟨front, back, (List.append_assoc ..).symm, rfl, by omega⟩
    · cases h
  · rintro ⟨front, back, rfl, rfl, rfl⟩
    have hdrop : dropBytes (front ++ piece ++ back) (byteLength front) = some (piece ++ back) :=
      dropBytes_eq_some_iff.mpr ⟨front, List.append_assoc .., rfl⟩
    have htake : takeBytes (piece ++ back) (byteLength piece) = some piece :=
      takeBytes_eq_some_iff.mpr ⟨back, rfl, rfl⟩
    rw [if_pos (Nat.le_add_right ..), hdrop, Option.bind_some, Nat.add_sub_cancel_left, htake]

lemma slice_append (front piece back : String) :
    slice (front ++ piece ++ back) front.utf8ByteSize (front.utf8ByteSize + piece.utf8ByteSize) =
      some piece := by
  have hpiece : sliceChars (front ++ piece ++ back).toList front.utf8ByteSize
      (front.utf8ByteSize + piece.utf8ByteSize) = some piece.toList := by
    rw [sliceChars_eq_some_iff]
    refine ⟨front.toList, back.toList, ?_, byteLength_toList front, ?_⟩
    · rw [String.toList_append, String.toList_append]
    · rw [byteLength_toList, byteLength_toList]
  rw [slice, hpiece, Option.map_some, String.ofList_toList]

/-! ## Boundaries -/

/-- An offset is a boundary if some front of the text ends there. -/
lemma isValid_iff {text : String} {n : Nat} :
    String.Pos.Raw.IsValid text ⟨n⟩ ↔
      ∃ front back, text.toList = front ++ back ∧ byteLength front = n := by
  rw [String.Pos.Raw.isValid_iff_exists_append]
  constructor
  · rintro ⟨front, back, rfl, hend⟩
    refine ⟨front.toList, back.toList, String.toList_append, ?_⟩
    rw [byteLength_toList]
    exact (congrArg String.Pos.Raw.byteIdx hend).symm
  · rintro ⟨front, back, htext, rfl⟩
    refine ⟨.ofList front, .ofList back, ?_, ?_⟩
    · rw [← String.ofList_append, ← htext, String.ofList_toList]
    · rw [← String.toList_ofList (l := front), byteLength_toList]
      simp [String.rawEndPos]

/-- There is a piece between any two boundaries. -/
lemma exists_sliceChars_iff {text : String} {start stop : Nat} :
    (∃ piece, sliceChars text.toList start stop = some piece) ↔
      start ≤ stop ∧ String.Pos.Raw.IsValid text ⟨start⟩ ∧ String.Pos.Raw.IsValid text ⟨stop⟩ := by
  constructor
  · rintro ⟨piece, hpiece⟩
    obtain ⟨front, back, htext, rfl, rfl⟩ := sliceChars_eq_some_iff.mp hpiece
    refine ⟨Nat.le_add_right .., isValid_iff.mpr ⟨front, piece ++ back, ?_, rfl⟩,
      isValid_iff.mpr ⟨front ++ piece, back, htext, byteLength_append ..⟩⟩
    rw [htext, List.append_assoc]
  · rintro ⟨hle, hstart, hstop⟩
    obtain ⟨front, rest, htext, rfl⟩ := isValid_iff.mp hstart
    obtain ⟨front', back, htext', rfl⟩ := isValid_iff.mp hstop
    rcases List.append_eq_append_iff.mp (htext.symm.trans htext') with
      ⟨piece, rfl, -⟩ | ⟨more, rfl, rfl⟩
    · exact ⟨piece, sliceChars_eq_some_iff.mpr ⟨front, back, htext', rfl,
        (byteLength_append ..).symm⟩⟩
    · -- the second end is no further on than the first, so nothing lies between
      rw [byteLength_append] at hle
      have hmore : byteLength more = 0 := by omega
      obtain rfl := eq_nil_of_byteLength_eq_zero hmore
      exact ⟨[], sliceChars_eq_some_iff.mpr ⟨front', rest, by simpa using htext', by simp, rfl⟩⟩

lemma isValid_append (front back : String) :
    String.Pos.Raw.IsValid (front ++ back) ⟨front.utf8ByteSize⟩ :=
  String.Pos.Raw.isValid_iff_exists_append.mpr ⟨front, back, rfl, rfl⟩

/-! ## Bytes -/

lemma bytesOf_eq_flatMap (text : String) :
    bytesOf text = text.toList.flatMap String.utf8EncodeChar := by
  rw [bytesOf, String.toUTF8_eq_toByteArray, ← String.utf8Encode_toList, List.utf8Encode,
    List.toList_data_toByteArray]

lemma bytesOf_append (front back : String) :
    bytesOf (front ++ back) = bytesOf front ++ bytesOf back := by
  rw [bytesOf_eq_flatMap, String.toList_append, List.flatMap_append, ← bytesOf_eq_flatMap,
    ← bytesOf_eq_flatMap]

lemma utf8EncodeChar_of_ascii {c : Char} (hc : c.toNat ≤ 127) :
    String.utf8EncodeChar c = [UInt8.ofNat c.toNat] := by
  have hval : c.val.toNat ≤ 127 := hc
  simp only [String.utf8EncodeChar, if_pos hval]
  rfl

lemma le_of_mem_utf8EncodeChar {c : Char} {b : UInt8} (hc : 127 < c.toNat)
    (h : b ∈ String.utf8EncodeChar c) : 128 ≤ b.toNat := by
  have hval : ¬ c.val.toNat ≤ 127 := Nat.not_le.mpr hc
  simp only [String.utf8EncodeChar, if_neg hval] at h
  split_ifs at h
  all_goals
    simp only [List.mem_cons, List.not_mem_nil, or_false] at h
    rcases h with rfl | rfl | rfl | rfl <;> simp only [UInt8.toNat_ofNat'] <;> omega

/-- **The newline byte occurs in the encoding of the newline and of no other character.** -/
lemma newline_mem_utf8EncodeChar {c : Char} : newline ∈ String.utf8EncodeChar c ↔ c = '\n' := by
  constructor
  · intro h
    have hascii : c.toNat ≤ 127 := by
      by_contra hc
      exact absurd (le_of_mem_utf8EncodeChar (Nat.lt_of_not_le hc) h) (by decide)
    rw [utf8EncodeChar_of_ascii hascii, List.mem_singleton, ← UInt8.toNat_inj,
      UInt8.toNat_ofNat', Nat.mod_eq_of_lt (by omega)] at h
    exact Char.toNat_inj.mp h.symm
  · rintro rfl
    decide

lemma newline_mem_bytesOf {text : String} : newline ∈ bytesOf text ↔ '\n' ∈ text.toList := by
  rw [bytesOf_eq_flatMap, List.mem_flatMap]
  simp [newline_mem_utf8EncodeChar]

/-- A text ends in a newline if its last byte is one. -/
lemma getLast?_bytesOf {text : String} :
    (bytesOf text).getLast? = some newline ↔ text.toList.getLast? = some '\n' := by
  rw [bytesOf_eq_flatMap]
  generalize text.toList = chars
  rcases List.eq_nil_or_concat chars with rfl | ⟨front, c, rfl⟩
  · simp
  · rw [List.concat_eq_append, List.flatMap_append, List.flatMap_singleton,
      List.getLast?_append_of_ne_nil _ String.utf8EncodeChar_ne_nil, List.getLast?_concat,
      Option.some.injEq]
    constructor
    · intro h
      exact newline_mem_utf8EncodeChar.mp (List.mem_of_getLast? h)
    · rintro rfl
      decide

end DeclTree.Text
