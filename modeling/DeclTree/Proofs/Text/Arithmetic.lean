import DeclTree.CompilationUnit.Basic
import DeclTree.Proofs.Text.Columns
import DeclTree.Text.Checked

/-!
# The arithmetic of a line index

A compilation unit takes sources of which every byte has an offset, and no others.  On these no
step of the arithmetic of a line index leaves the range of its numbers: with checked arithmetic the
index and its queries are the same, `LineIndex.arithmetic_in_range`.  The bounds come from three
sides.  The starts are no greater than the length of the source; the first start is 0, so an
insertion point has a start in front of it; and an offset that has a line is less than the length,
so that neither its line nor its column is greater than that.

The bounds are reached: in a source of newlines every offset has a line of its own,
`LineIndex.lineNumber_newlines`.
-/

namespace DeclTree

namespace Text

namespace Checked

lemma word_of_ofNat? {n : Nat} {w : UInt32} (h : Offset.ofNat? n = some w) :
    word n = .ok w := by
  rw [word, h]

lemma word_of_lt {n : Nat} (h : n < UInt32.size) : word n = .ok (Offset.clamp n) := by
  obtain ⟨w, hw⟩ := Option.isSome_iff_exists.mp (Offset.ofNat?_isSome_iff.mpr h)
  rw [word_of_ofNat? hw, Offset.clamp, hw, Option.getD_some]

lemma mapM_word {ns : List Nat} (h : ∀ n ∈ ns, n < UInt32.size) :
    ns.mapM word = .ok (ns.map Offset.clamp) := by
  induction ns with
  | nil => rfl
  | cons n ns ih =>
    obtain ⟨hn, hns⟩ := List.forall_mem_cons.mp h
    rw [List.mapM_cons, word_of_lt hn, ih hns]
    rfl

lemma pred_of_pos {n : Nat} (h : 0 < n) : pred n = .ok (n - 1) := by
  obtain ⟨k, rfl⟩ := Nat.exists_eq_add_one.mpr h
  rfl

end Checked

namespace LineIndex

variable {source text : String} {ix : LineIndex} {offset line : UInt32}

/-! ## Building -/

lemma buildChecked_eq (hsize : source.utf8ByteSize < UInt32.size) :
    buildChecked source = .ok (build source) := by
  rw [buildChecked, Checked.word_of_lt hsize, Checked.ok_bind]
  by_cases hne : source = ""
  · subst hne
    rfl
  · have hlater : (afterNewlines (bytesOf source)).mapM Checked.word =
        .ok ((afterNewlines (bytesOf source)).map Offset.clamp) :=
      Checked.mapM_word fun n hn =>
        Nat.lt_of_le_of_lt (le_of_mem_startsOf (List.mem_cons_of_mem 0 hn)) hsize
    have hbuild : build source =
        ⟨((startsOf source).map Offset.clamp).toArray, Offset.clamp source.utf8ByteSize⟩ := by
      rw [← starts_build hne]
      rfl
    rw [if_neg (by simpa using hne), hlater, Checked.ok_bind, hbuild]
    rfl

/-! ## Queries -/

/-- The line of an offset, if it has one, comes about without a fault. -/
lemma lineNumberChecked_of_some (hfits : (search ix.starts offset).Fits ix.starts offset)
    (hfirst : ix.starts[0]? = some 0) (h : ix.lineNumber offset = some line) :
    ix.lineNumberChecked offset = .ok (some line) := by
  unfold lineNumber at h
  split at h
  · cases h
  · next hinside =>
    rw [lineNumberChecked, if_neg hinside]
    generalize search ix.starts offset = place at hfits h
    cases place with
    | found i =>
      have hline : Offset.ofNat? (i + 1) = some line := h
      rw [Place.lastUpTo, Checked.ok_bind, Checked.word_of_ofNat? hline]
      rfl
    | insertAt i =>
      have hline : Offset.ofNat? (i - 1 + 1) = some line := h
      rw [Place.lastUpTo, Checked.pred_of_pos (hfits.insertAt_pos hfirst), Checked.ok_bind,
        Checked.word_of_ofNat? hline]
      rfl

/-- An index whose first start is not 0 comes to the decrement of 0. -/
example : (LineIndex.mk #[5] 10).lineNumberChecked 3 = .error .belowZero := by decide +kernel

lemma lineNumberChecked_eq (hsize : source.utf8ByteSize < UInt32.size) (offset : UInt32) :
    (build source).lineNumberChecked offset = .ok ((build source).lineNumber offset) := by
  cases hline : (build source).lineNumber offset with
  | none =>
    have hbeyond : (build source).length ≤ offset := by
      rw [UInt32.le_iff_toNat_le, toNat_length_build hsize]
      by_contra hinside
      obtain ⟨line, hsome, -⟩ := lineNumber_of_inside hsize (Nat.lt_of_not_le hinside)
      rw [hline] at hsome
      cases hsome
    rw [lineNumberChecked, if_pos hbeyond]
    rfl
  | some line =>
    obtain ⟨hinside, -⟩ := (lineNumber_eq_some_iff hsize).mp hline
    exact lineNumberChecked_of_some (search_fits (ascending_starts hsize) offset)
      (first_start_build (ne_empty_of_inside hinside)) hline

lemma lineStartChecked_eq (ix : LineIndex) (line : UInt32) :
    ix.lineStartChecked line = .ok (ix.lineStart line) := by
  rw [lineStartChecked, lineStart]
  split
  · rfl
  · next hne =>
    rw [Checked.pred_of_pos (Offset.toNat_pos hne), Offset.toNat_sub_one hne]
    rfl

/-- The characters in front of an offset that has a line are fewer than a word can count. -/
lemma length_piece_lt (hsize : source.utf8ByteSize < UInt32.size)
    (hline : (build source).lineNumber offset = some line) {start : Nat} {piece : List Char}
    (hpiece : sliceChars text.toList start offset.toNat = some piece) :
    piece.length + 1 < UInt32.size := by
  obtain ⟨hinside, -⟩ := (lineNumber_eq_some_iff hsize).mp hline
  obtain ⟨front, back, -, -, hupper⟩ := sliceChars_eq_some_iff.mp hpiece
  have hlength := length_le_byteLength piece
  omega

lemma lineColChecked_eq (hsize : source.utf8ByteSize < UInt32.size) (text : String)
    (offset : UInt32) :
    (build source).lineColChecked text offset = .ok ((build source).lineCol text offset) := by
  rw [lineColChecked, lineCol, lineNumberChecked_eq hsize, Checked.ok_bind]
  cases hline : (build source).lineNumber offset with
  | none => rfl
  | some line =>
    simp only [lineStartChecked_eq, Checked.ok_bind, Option.bind_eq_bind, Option.bind_some]
    cases (build source).lineStart line with
    | none => rfl
    | some start =>
      simp only [Option.bind_some]
      cases hpiece : sliceChars text.toList start.toNat offset.toNat with
      | none => rfl
      | some piece =>
        have hlength := length_piece_lt hsize hline hpiece
        have hcolumn : Offset.clamp (piece.length + 1) =
            (Offset.ofNat? piece.length).getD (Offset.last - 1) + 1 := by
          rw [← UInt32.toNat_inj, Offset.toNat_clamp hlength, toNat_column hlength, Nat.add_comm]
        simp only [Checked.word_of_lt (Nat.lt_of_succ_lt hlength), Checked.ok_bind,
          Offset.toNat_clamp (Nat.lt_of_succ_lt hlength), Checked.word_of_lt hlength, hcolumn]
        rfl

/-! ## Other texts -/

/-- A place is read off the piece of the text between the start of the line and the offset. -/
lemma piece_of_lineCol (hsize : source.utf8ByteSize < UInt32.size) {col : UInt32}
    (h : (build source).lineCol text offset = some (line, col)) :
    (build source).lineNumber offset = some line ∧
      ∃ start piece, (build source).lineStart line = some start ∧ start ≤ offset ∧
        offset.toNat ≤ text.utf8ByteSize ∧ slice text start.toNat offset.toNat = some piece ∧
        col.toNat = 1 + piece.length := by
  obtain ⟨hline, start, hstart, piece, hpiece, rfl⟩ := lineCol_eq_some_iff.mp h
  obtain ⟨hle, -, hvalid⟩ := exists_sliceChars_iff.mp ⟨piece, hpiece⟩
  refine ⟨hline, start, .ofList piece, hstart, UInt32.le_iff_toNat_le.mpr hle,
    hvalid.le_utf8ByteSize, ?_, ?_⟩
  · rw [slice, hpiece, Option.map_some]
  · rw [toNat_column (length_piece_lt hsize hline hpiece), String.length_ofList]

/-- There is a place exactly if the text can be cut at the start of the line and at the offset. -/
lemma isSome_lineCol_text_iff (hsize : source.utf8ByteSize < UInt32.size) :
    ((build source).lineCol text offset).isSome = true ↔
      ∃ line start, (build source).lineNumber offset = some line ∧
        (build source).lineStart line = some start ∧
        String.Pos.Raw.IsValid text ⟨start.toNat⟩ ∧
        String.Pos.Raw.IsValid text ⟨offset.toNat⟩ := by
  rw [Option.isSome_iff_exists]
  constructor
  · rintro ⟨⟨line, col⟩, hplace⟩
    obtain ⟨hline, start, hstart, piece, hpiece, -⟩ := lineCol_eq_some_iff.mp hplace
    exact ⟨line, start, hline, hstart, (exists_sliceChars_iff.mp ⟨piece, hpiece⟩).2⟩
  · rintro ⟨line, start, hline, hstart, hvalid⟩
    obtain ⟨⟨found, hfound, hle⟩, -⟩ := start_le_of_lineNumber hsize hline
    obtain rfl := Option.some.inj (hstart.symm.trans hfound)
    obtain ⟨piece, hpiece⟩ :=
      exists_sliceChars_iff.mpr ⟨UInt32.le_iff_toNat_le.mp hle, hvalid⟩
    exact ⟨(line, _), lineCol_eq_some_iff.mpr ⟨hline, start, hstart, piece, hpiece, rfl⟩⟩

/-- The arithmetic on the index of a source stays in the range of its numbers, and nothing is read
where a text has nothing. -/
structure KeepsRange (source : String) : Prop where
  /-- The length and the starts fit into words. -/
  built : buildChecked source = .ok (build source)
  /-- Every insertion point has a start in front of it, and line numbers fit into words. -/
  numbered : ∀ offset, (build source).lineNumberChecked offset =
    .ok ((build source).lineNumber offset)
  /-- No line is looked for in front of line 0. -/
  started : ∀ line, (build source).lineStartChecked line = .ok ((build source).lineStart line)
  /-- Columns fit into words, also in a text that is not the source. -/
  placed : ∀ text offset, (build source).lineColChecked text offset =
    .ok ((build source).lineCol text offset)
  /-- A text gives a place exactly if it can be cut at the start of the line and at the offset. -/
  readable : ∀ text offset, ((build source).lineCol text offset).isSome = true ↔
    ∃ line start, (build source).lineNumber offset = some line ∧
      (build source).lineStart line = some start ∧
      String.Pos.Raw.IsValid text ⟨start.toNat⟩ ∧ String.Pos.Raw.IsValid text ⟨offset.toNat⟩
  /-- What is read lies in the text, between the start of the line and the offset. -/
  read : ∀ text offset line col, (build source).lineCol text offset = some (line, col) →
    (build source).lineNumber offset = some line ∧
    ∃ start piece, (build source).lineStart line = some start ∧ start ≤ offset ∧
      offset.toNat ≤ text.utf8ByteSize ∧ slice text start.toNat offset.toNat = some piece ∧
      col.toNat = 1 + piece.length

lemma exists_create_iff {path name : String} :
    (∃ u, CompilationUnit.create path name source = .ok u ∧ u.lines = build source) ↔
      name ≠ "" ∧ source.utf8ByteSize < UInt32.size := by
  rw [← Offset.ofNat?_isSome_iff, CompilationUnit.create]
  by_cases hname : name = ""
  · simp [hname]
  · cases Offset.ofNat? source.utf8ByteSize <;> simp [hname]

/-- **The sources that make a unit are those of which every byte has an offset, and on their indexes
no arithmetic leaves the range of its numbers.** -/
theorem arithmetic_in_range (source : String) :
    ((∃ path name u, CompilationUnit.create path name source = .ok u ∧ u.lines = build source) ↔
      source.utf8ByteSize < UInt32.size) ∧
    (source.utf8ByteSize < UInt32.size → KeepsRange source) := by
  constructor
  · constructor
    · rintro ⟨path, name, hunit⟩
      exact (exists_create_iff.mp hunit).2
    · intro hsize
      exact ⟨"", "Main", exists_create_iff.mpr ⟨by decide, hsize⟩⟩
  · intro hsize
    exact {
      built := buildChecked_eq hsize
      numbered := lineNumberChecked_eq hsize
      started := lineStartChecked_eq _
      placed := lineColChecked_eq hsize
      readable := fun _ _ => isSome_lineCol_text_iff hsize
      read := fun _ _ _ _ => piece_of_lineCol hsize }

/-- A text that ends before the offset, one that has a character across it, and one that can be cut
there. -/
theorem arithmetic_in_range_of_other_texts :
    "αβ\nγ".utf8ByteSize < UInt32.size ∧
    (build "αβ\nγ").lineColChecked "αβ" 5 = .ok none ∧
    (build "αβ\nγ").lineColChecked "αβ€" 5 = .ok none ∧
    (build "αβ\nγ").lineColChecked "abcde" 4 = .ok (some (1, 5)) :=
  have hsize : "αβ\nγ".utf8ByteSize < UInt32.size := by decide
  have hrange := (arithmetic_in_range "αβ\nγ").2 hsize
  ⟨hsize, (hrange.placed "αβ" 5).trans (by decide +kernel),
    (hrange.placed "αβ€" 5).trans (by decide +kernel),
    (hrange.placed "abcde" 4).trans (by decide +kernel)⟩

/-! ## Sources of newlines -/

/-- In a source of newlines every offset has a line of its own, so the last line of the longest
source has the largest word for its number. -/
lemma lineNumber_newlines {n : Nat} (hn : n < UInt32.size) (hinside : offset.toNat < n) :
    ((build (.ofList (List.replicate n '\n'))).lineNumber offset).map UInt32.toNat =
      some (offset.toNat + 1) := by
  have hbytes : bytesOf (.ofList (List.replicate n '\n')) = List.replicate n newline := by
    have hnewline : String.utf8EncodeChar '\n' = [newline] := by decide
    rw [bytesOf_eq_flatMap, String.toList_ofList, List.flatMap_replicate, hnewline,
      List.flatten_replicate_singleton]
  have hlength : (String.ofList (List.replicate n '\n')).utf8ByteSize = n := by
    rw [← length_bytesOf, hbytes, List.length_replicate]
  obtain ⟨line, hline, hcount⟩ :=
    lineNumber_of_inside (hlength.symm ▸ hn) (hlength.symm ▸ hinside)
  rw [hline, Option.map_some, hcount, hbytes, List.take_replicate, List.count_replicate_self,
    Nat.min_eq_left (Nat.le_of_lt hinside), Nat.add_comm]

end LineIndex

end Text

end DeclTree
