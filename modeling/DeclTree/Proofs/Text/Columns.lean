import Mathlib.Logic.Function.Iterate
import DeclTree.Proofs.Text.Lines

/-!
# Lines and columns

The column of an offset counts the characters between the start of its line and the offset, so it
exists for the offsets of characters and for no others.  Going on by as many characters from the
start of the line leads back to the offset, `next_iterate`.  Of two offsets on one line, the later
one has more characters in front of it; so lines and columns are in the order of the offsets:
`LineIndex.lineCol_build`.
-/

namespace DeclTree.Text

/-- Going on by the characters of a piece leads from its start to its end. -/
lemma next_iterate (front piece back : List Char) :
    (String.Pos.Raw.next (.ofList (front ++ piece ++ back)))^[piece.length] ⟨byteLength front⟩ =
      ⟨byteLength front + byteLength piece⟩ := by
  induction piece generalizing front with
  | nil => rfl
  | cons c piece ih =>
    have hchar : String.Pos.Raw.next (.ofList (front ++ c :: piece ++ back)) ⟨byteLength front⟩ =
        ⟨byteLength (front ++ [c])⟩ := by
      have hnext := String.next_of_valid front c (piece ++ back)
      rw [← byteLength_eq_utf8Len] at hnext
      rw [List.append_assoc, List.cons_append, hnext, byteLength_append]
      rfl
    have hrest := ih (front ++ [c])
    rw [List.append_assoc front [c], List.singleton_append, byteLength_append] at hrest
    rw [List.length_cons, Function.iterate_succ_apply, hchar, byteLength_append, hrest,
      byteLength, byteLength, byteLength, Nat.add_zero, Nat.add_assoc]

namespace LineIndex

variable {source : String} {ix : LineIndex} {offset line start col : UInt32}

lemma lineCol_eq_some_iff :
    ix.lineCol source offset = some (line, col) ↔ ix.lineNumber offset = some line ∧
      ∃ start, ix.lineStart line = some start ∧
        ∃ before, sliceChars source.toList start.toNat offset.toNat = some before ∧
          (Offset.ofNat? before.length).getD (Offset.last - 1) + 1 = col := by
  simp only [lineCol, Option.bind_eq_bind, Option.bind_eq_some_iff]
  constructor
  · rintro ⟨found, hline, start, hstart, before, hbefore, hplace⟩
    obtain ⟨rfl, rfl⟩ := Prod.mk.inj (Option.some.inj hplace)
    exact ⟨hline, start, hstart, before, hbefore, rfl⟩
  · rintro ⟨hline, start, hstart, before, hbefore, rfl⟩
    exact ⟨line, hline, start, hstart, before, hbefore, rfl⟩

/-- A column is a character on from the ones in front of it. -/
lemma toNat_column {n : Nat} (h : n + 1 < UInt32.size) :
    ((Offset.ofNat? n).getD (Offset.last - 1) + 1).toNat = 1 + n := by
  obtain ⟨w, hw⟩ := Option.isSome_iff_exists.mp (Offset.ofNat?_isSome_iff.mpr (Nat.lt_of_succ_lt h))
  have hvalue := Offset.toNat_of_ofNat? hw
  rw [hw, Option.getD_some, UInt32.toNat_add, hvalue, UInt32.toNat_one, Nat.mod_eq_of_lt h,
    Nat.add_comm]

/-- How the place of an offset comes about: `piece` is the text between the start of its line and
the offset. -/
structure Locates (ix : LineIndex) (source : String) (offset line col start : UInt32)
    (front piece back : List Char) : Prop where
  /-- The line of the offset. -/
  number : ix.lineNumber offset = some line
  /-- The start of the line. -/
  begins : ix.lineStart line = some start
  /-- The text is cut at both. -/
  text : source.toList = front ++ piece ++ back
  /-- One end of the piece. -/
  lower : byteLength front = start.toNat
  /-- The other end. -/
  upper : byteLength front + byteLength piece = offset.toNat
  /-- The column counts the characters of the piece. -/
  column : col.toNat = 1 + piece.length

lemma lineCol_build_eq_some_iff (hsize : source.utf8ByteSize < UInt32.size) :
    (build source).lineCol source offset = some (line, col) ↔
      ∃ start front piece back,
        (build source).Locates source offset line col start front piece back := by
  rw [lineCol_eq_some_iff]
  -- the characters in front of an offset are no more than the bytes there
  have hcolumn : ∀ {front piece : List Char}, (build source).lineNumber offset = some line →
      byteLength front + byteLength piece = offset.toNat →
      ((Offset.ofNat? piece.length).getD (Offset.last - 1) + 1).toNat = 1 + piece.length := by
    intro front piece hline hupper
    obtain ⟨hinside, -⟩ := (lineNumber_eq_some_iff hsize).mp hline
    have hpiece := length_le_byteLength piece
    exact toNat_column (by omega)
  constructor
  · rintro ⟨hline, start, hstart, piece, hpiece, rfl⟩
    obtain ⟨front, back, htext, hlower, hupper⟩ := sliceChars_eq_some_iff.mp hpiece
    exact ⟨start, front, piece, back, hline, hstart, htext, hlower, hupper, hcolumn hline hupper⟩
  · rintro ⟨start, front, piece, back, h⟩
    refine ⟨h.number, start, h.begins, piece,
      sliceChars_eq_some_iff.mpr ⟨front, back, h.text, h.lower, h.upper⟩, ?_⟩
    rw [← UInt32.toNat_inj, h.column, hcolumn h.number h.upper]

lemma isSome_lineCol_iff (hsize : source.utf8ByteSize < UInt32.size) :
    ((build source).lineCol source offset).isSome = true ↔
      offset.toNat < source.utf8ByteSize ∧ String.Pos.Raw.IsValid source ⟨offset.toNat⟩ := by
  rw [Option.isSome_iff_exists]
  constructor
  · rintro ⟨⟨line, col⟩, hplace⟩
    obtain ⟨hline, start, -, piece, hpiece, -⟩ := lineCol_eq_some_iff.mp hplace
    exact ⟨((lineNumber_eq_some_iff hsize).mp hline).1,
      (exists_sliceChars_iff.mp ⟨piece, hpiece⟩).2.2⟩
  · rintro ⟨hinside, hvalid⟩
    obtain ⟨line, hline, -⟩ := lineNumber_of_inside hsize hinside
    obtain ⟨⟨start, hstart, hle⟩, -⟩ := start_le_of_lineNumber hsize hline
    have hrecorded : start.toNat ∈ (build source).offsets :=
      mem_offsets.mpr ⟨_, start, (lineStart_eq_some_iff.mp hstart).2, rfl⟩
    obtain ⟨piece, hpiece⟩ := exists_sliceChars_iff.mpr
      ⟨UInt32.le_iff_toNat_le.mp hle, isValid_of_mem_offsets hsize hrecorded, hvalid⟩
    exact ⟨(line, _), lineCol_eq_some_iff.mpr ⟨hline, start, hstart, piece, hpiece, rfl⟩⟩

/-- A later offset has a later line, or the same line and a later column. -/
lemma lex_of_lineCol (hsize : source.utf8ByteSize < UInt32.size) {offset' : UInt32}
    {place place' : UInt32 × UInt32} (h : (build source).lineCol source offset = some place)
    (h' : (build source).lineCol source offset' = some place') (hless : offset < offset') :
    Prod.Lex (· < ·) (· < ·) place place' := by
  obtain ⟨line, col⟩ := place
  obtain ⟨line', col'⟩ := place'
  obtain ⟨start, front, piece, back, h⟩ := (lineCol_build_eq_some_iff hsize).mp h
  obtain ⟨start', front', piece', back', h'⟩ := (lineCol_build_eq_some_iff hsize).mp h'
  have hlines : line.toNat ≤ line'.toNat := by
    rw [((lineNumber_eq_some_iff hsize).mp h.number).2,
      ((lineNumber_eq_some_iff hsize).mp h'.number).2]
    refine List.countP_mono_left fun w _ hw => ?_
    rw [decide_eq_true_eq] at hw ⊢
    exact UInt32.le_trans hw (UInt32.le_of_lt hless)
  rcases Nat.lt_or_eq_of_le hlines with hlt | hsame
  · exact .left _ _ (UInt32.lt_iff_toNat_lt.mpr hlt)
  · obtain rfl := UInt32.toNat_inj.mp hsame
    obtain rfl := Option.some.inj (h.begins.symm.trans h'.begins)
    have htexts := h.text.symm.trans h'.text
    rw [List.append_assoc, List.append_assoc] at htexts
    obtain ⟨rfl, hrests⟩ := append_inj_of_byteLength htexts (h.lower.trans h'.lower.symm)
    have hbytes : byteLength piece < byteLength piece' := by
      have hlower := h.upper
      have hupper := h'.upper
      rw [UInt32.lt_iff_toNat_lt] at hless
      omega
    have hlength := length_lt_of_byteLength_lt hrests hbytes
    refine .right _ (UInt32.lt_iff_toNat_lt.mpr ?_)
    rw [h.column, h'.column]
    omega

/-- **The offsets of characters have a line and a column, and no others.**  The line is that of the
offset, the column counts the characters from the start of the line, both together lead back to the
offset, and later offsets have later lines or columns. -/
theorem lineCol_build (hsize : source.utf8ByteSize < UInt32.size) :
    (∀ offset, ((build source).lineCol source offset).isSome = true ↔
      offset.toNat < source.utf8ByteSize ∧ String.Pos.Raw.IsValid source ⟨offset.toNat⟩) ∧
    (∀ offset line col, (build source).lineCol source offset = some (line, col) →
      (build source).lineNumber offset = some line ∧
      ∃ start, (build source).lineStart line = some start ∧
        (∃ piece, slice source start.toNat offset.toNat = some piece ∧
          col.toNat = 1 + piece.length) ∧
        (String.Pos.Raw.next source)^[col.toNat - 1] ⟨start.toNat⟩ = ⟨offset.toNat⟩) ∧
    ∀ offset offset' place place', (build source).lineCol source offset = some place →
      (build source).lineCol source offset' = some place' → offset < offset' →
      Prod.Lex (· < ·) (· < ·) place place' := by
  refine ⟨fun _ => isSome_lineCol_iff hsize, fun offset line col hplace => ?_,
    fun _ _ _ _ => lex_of_lineCol hsize⟩
  obtain ⟨start, front, piece, back, h⟩ := (lineCol_build_eq_some_iff hsize).mp hplace
  refine ⟨h.number, start, h.begins, ⟨.ofList piece, ?_, ?_⟩, ?_⟩
  · have hpiece := sliceChars_eq_some_iff.mpr ⟨front, back, h.text, h.lower, h.upper⟩
    rw [slice, hpiece, Option.map_some]
  · rw [h.column, String.length_ofList]
  · have hnext := next_iterate front piece back
    rw [← h.text, String.ofList_toList, h.upper, h.lower] at hnext
    rw [h.column, Nat.add_sub_cancel_left, hnext]

/-- An offset inside of a character has no place, and the newline of a line has the last one. -/
theorem lineCol_build_of_greek :
    "αβ\nγ".utf8ByteSize < UInt32.size ∧
    ((build "αβ\nγ").lineCol "αβ\nγ" 1).isSome = false ∧
    (build "αβ\nγ").lineCol "αβ\nγ" 4 = some (1, 3) ∧
    (build "αβ\nγ").lineCol "αβ\nγ" 5 = some (2, 1) ∧
    Prod.Lex (· < ·) (· < ·) ((1, 3) : UInt32 × UInt32) (2, 1) :=
  have hnewline : (build "αβ\nγ").lineCol "αβ\nγ" 4 = some (1, 3) := by decide +kernel
  have hgamma : (build "αβ\nγ").lineCol "αβ\nγ" 5 = some (2, 1) := by decide +kernel
  ⟨by decide, by decide +kernel, hnewline, hgamma,
    (lineCol_build (by decide)).2.2 4 5 _ _ hnewline hgamma (by decide)⟩

end LineIndex

end DeclTree.Text
