import DeclTree.Proofs.Text.Boundaries
import DeclTree.Proofs.Text.LineIndex

/-!
# The lines of a text

A text falls into lines, `IsLines`: each but the last ends with a newline, and there are no other
newlines.  As the newline byte never lies inside of a character, the scan of a source finds where
its lines start, `startsOf_join`, and cutting the source there gives the lines back,
`cutAt_startsFrom`.  `LineIndex.Indexes` puts this together with the two queries: they invert each
other but for an empty last line, which starts where the source ends.
-/

namespace DeclTree.Text

/-! ## Lines -/

/-- The lines that some text falls into.  A newline belongs to the line that it ends. -/
inductive IsLines : List String → Prop
  /-- The last line has no newline. -/
  | last {line : String} (h : '\n' ∉ line.toList) : IsLines [line]
  /-- Any other line has one, at its end. -/
  | more {line : String} {lines : List String} (h : '\n' ∉ line.toList) (rest : IsLines lines) :
    IsLines ((line ++ "\n") :: lines)

/-- The pieces of a text from each cut to the next and from the last cut to the end. -/
def cutAt (text : String) (cuts : List Nat) : Option (List String) :=
  (cuts.zip (cuts.tail ++ [text.utf8ByteSize])).mapM fun (start, stop) => slice text start stop

/-- Where lines start, if the first one starts at `base`. -/
def startsFrom (base : Nat) : List String → List Nat
  | [] => []
  | line :: lines => base :: startsFrom (base + line.utf8ByteSize) lines

lemma IsLines.ne_nil {lines : List String} (h : IsLines lines) : lines ≠ [] := by
  cases h <;> exact List.cons_ne_nil _ _

/-- Every text falls into lines. -/
lemma exists_isLines (text : String) : ∃ lines, IsLines lines ∧ String.join lines = text := by
  rw [← String.ofList_toList (s := text)]
  induction text.toList with
  | nil => exact ⟨[""], .last (by simp), rfl⟩
  | cons c rest ih =>
    obtain ⟨lines, hlines, hjoin⟩ := ih
    rw [String.ofList_cons, ← hjoin]
    by_cases hc : c = '\n'
    · subst hc
      exact ⟨("" ++ "\n") :: lines, .more (by simp) hlines, String.join_cons⟩
    · -- the character goes in front of the first line
      cases hlines with
      | @last line h =>
        have hline : '\n' ∉ (String.singleton c ++ line).toList := by simp [Ne.symm hc, h]
        exact ⟨_, .last hline, by simp⟩
      | @more line lines h hrest =>
        have hline : '\n' ∉ (String.singleton c ++ line).toList := by simp [Ne.symm hc, h]
        exact ⟨_, .more hline hrest, by simp [String.append_assoc]⟩

/-! ## Cutting a text into its lines -/

lemma cutAt_cons_cons (text : String) (start next : Nat) (cuts : List Nat) :
    cutAt text (start :: next :: cuts) =
      (slice text start next).bind fun piece => (cutAt text (next :: cuts)).map (piece :: ·) := by
  rw [cutAt, List.tail_cons, List.cons_append, List.zip_cons_cons, List.mapM_cons]
  simp only [Option.map_eq_bind]
  rfl

/-- **Cut where its lines start, a text falls into its lines.** -/
lemma cutAt_startsFrom {lines : List String} (h : lines ≠ []) (front : String) :
    cutAt (front ++ String.join lines) (startsFrom front.utf8ByteSize lines) = some lines := by
  induction lines generalizing front with
  | nil => exact absurd rfl h
  | cons line lines ih =>
    cases lines with
    | nil =>
      have hslice := slice_append front line ""
      rw [String.append_empty] at hslice
      simp [cutAt, startsFrom, hslice]
    | cons next lines =>
      have hrest := ih (List.cons_ne_nil _ _) (front ++ line)
      have hslice := slice_append front line (String.join (next :: lines))
      have htext : front ++ String.join (line :: next :: lines) =
          front ++ line ++ String.join (next :: lines) := by
        rw [String.join_cons, String.append_assoc]
      rw [String.utf8ByteSize_append] at hrest
      rw [htext, startsFrom, startsFrom, cutAt_cons_cons, hslice, Option.bind_some,
        ← startsFrom, hrest, Option.map_some]

lemma map_startsFrom (k base : Nat) (lines : List String) :
    (startsFrom base lines).map (k + ·) = startsFrom (k + base) lines := by
  induction lines generalizing base with
  | nil => rfl
  | cons line lines ih => rw [startsFrom, startsFrom, List.map_cons, ih, Nat.add_assoc]

/-- A line starts where the lines in front of it end. -/
lemma exists_of_mem_startsFrom {base n : Nat} {lines : List String}
    (h : n ∈ startsFrom base lines) :
    ∃ front back, lines = front ++ back ∧ n = base + (String.join front).utf8ByteSize := by
  induction lines generalizing base with
  | nil => cases h
  | cons line lines ih =>
    rcases List.mem_cons.mp h with rfl | h
    · exact ⟨[], line :: lines, rfl, rfl⟩
    · obtain ⟨front, back, rfl, rfl⟩ := ih h
      refine ⟨line :: front, back, rfl, ?_⟩
      rw [String.join_cons, String.utf8ByteSize_append, Nat.add_assoc]

/-! ## The scan -/

lemma mem_afterNewlines {bytes : List UInt8} {n : Nat} :
    n ∈ afterNewlines bytes ↔ ∃ i, bytes[i]? = some newline ∧ n = i + 1 := by
  rw [afterNewlines, List.mem_filterMap]
  constructor
  · rintro ⟨⟨byte, i⟩, hmem, hn⟩
    simp only [Option.ite_none_right_eq_some, Option.some.injEq] at hn
    obtain ⟨rfl, rfl⟩ := hn
    exact ⟨i, List.mem_zipIdx_iff_getElem?.mp hmem, rfl⟩
  · rintro ⟨i, hbyte, rfl⟩
    exact ⟨(newline, i), List.mem_zipIdx_iff_getElem?.mpr hbyte, if_pos rfl⟩

lemma afterNewlines_eq_nil {bytes : List UInt8} (h : newline ∉ bytes) :
    afterNewlines bytes = [] := by
  refine List.eq_nil_iff_forall_not_mem.mpr fun n hn => h ?_
  obtain ⟨i, hbyte, -⟩ := mem_afterNewlines.mp hn
  exact List.mem_of_getElem? hbyte

/-- The scan of a second part goes on where the first part ends. -/
lemma afterNewlines_append (front back : List UInt8) :
    afterNewlines (front ++ back) =
      afterNewlines front ++ (afterNewlines back).map (front.length + ·) := by
  induction back using List.reverseRecOn with
  | nil => simp [afterNewlines]
  | append_singleton back b ih =>
    rw [← List.append_assoc, afterNewlines_concat, ih, afterNewlines_concat, List.map_append,
      List.append_assoc, List.length_append]
    by_cases hb : b = newline <;> simp [hb, Nat.add_assoc]

/-- **The scan of a text finds where its lines start.** -/
lemma startsOf_join {lines : List String} (h : IsLines lines) :
    LineIndex.startsOf (String.join lines) = startsFrom 0 lines := by
  induction h with
  | @last line h =>
    have hnone : afterNewlines (bytesOf line) = [] :=
      afterNewlines_eq_nil fun hmem => h (newline_mem_bytesOf.mp hmem)
    simp [LineIndex.startsOf, startsFrom, hnone]
  | @more line lines h _ ih =>
    have hnone : afterNewlines (bytesOf line) = [] :=
      afterNewlines_eq_nil fun hmem => h (newline_mem_bytesOf.mp hmem)
    have hline : bytesOf (line ++ "\n") = bytesOf line ++ [newline] := by
      rw [bytesOf_append]
      rfl
    have hsize : (line ++ "\n").utf8ByteSize = line.utf8ByteSize + 1 := String.utf8ByteSize_append
    calc LineIndex.startsOf (String.join ((line ++ "\n") :: lines))
        = 0 :: (afterNewlines (bytesOf (line ++ "\n")) ++
            (afterNewlines (bytesOf (String.join lines))).map
              ((bytesOf (line ++ "\n")).length + ·)) := by
          rw [LineIndex.startsOf, String.join_cons, bytesOf_append, afterNewlines_append]
      _ = 0 :: (LineIndex.startsOf (String.join lines)).map
            ((line ++ "\n").utf8ByteSize + ·) := by
          rw [hline, afterNewlines_concat, hnone, if_pos rfl, ← hline, LineIndex.length_bytesOf,
            LineIndex.length_bytesOf, ← hsize]
          rfl
      _ = startsFrom 0 ((line ++ "\n") :: lines) := by
          rw [ih, map_startsFrom, startsFrom, Nat.zero_add, Nat.add_zero]

namespace LineIndex

variable {source : String} {ix : LineIndex} {offset line start : UInt32}

/-! ## What an index records -/

/-- The recorded starts, as numbers. -/
def offsets (ix : LineIndex) : List Nat := ix.starts.toList.map UInt32.toNat

lemma offsets_build (hsize : source.utf8ByteSize < UInt32.size) (hne : source ≠ "") :
    (build source).offsets = startsOf source := by
  rw [offsets, starts_build hne, List.map_map]
  conv_rhs => rw [← List.map_id (startsOf source)]
  exact List.map_congr_left fun n hn => toNat_clamp_start hsize hn

lemma mem_offsets {n : Nat} :
    n ∈ ix.offsets ↔
      ∃ (i : Nat) (start : UInt32), ix.starts[i]? = some start ∧ start.toNat = n := by
  rw [offsets, List.mem_iff_getElem?]
  simp [List.getElem?_map]

lemma pairwise_offsets (hsize : source.utf8ByteSize < UInt32.size) :
    (build source).offsets.Pairwise (· < ·) := by
  by_cases hne : source = ""
  · subst hne
    exact .nil
  · rw [offsets_build hsize hne]
    exact pairwise_startsOf source

/-- Cut at the recorded starts, the source falls into its lines. -/
lemma exists_lines_build (hsize : source.utf8ByteSize < UInt32.size) (hne : source ≠ "") :
    ∃ lines, IsLines lines ∧ String.join lines = source ∧
      (build source).offsets = startsFrom 0 lines ∧
      cutAt source (build source).offsets = some lines := by
  obtain ⟨lines, hlines, rfl⟩ := exists_isLines source
  have hoffsets : (build (String.join lines)).offsets = startsFrom 0 lines :=
    (offsets_build hsize hne).trans (startsOf_join hlines)
  have hcut := cutAt_startsFrom hlines.ne_nil ""
  rw [String.empty_append] at hcut
  exact ⟨lines, hlines, rfl, hoffsets, hoffsets ▸ hcut⟩

lemma isValid_of_mem_offsets (hsize : source.utf8ByteSize < UInt32.size) {n : Nat}
    (hn : n ∈ (build source).offsets) : String.Pos.Raw.IsValid source ⟨n⟩ := by
  by_cases hne : source = ""
  · subst hne
    cases hn
  · obtain ⟨lines, -, rfl, hoffsets, -⟩ := exists_lines_build hsize hne
    rw [hoffsets] at hn
    obtain ⟨front, back, rfl, rfl⟩ := exists_of_mem_startsFrom hn
    rw [String.join_append, Nat.zero_add]
    exact isValid_append _ _

/-! ## Lines and their starts -/

lemma lineStart_eq_some_iff :
    ix.lineStart line = some start ↔ 0 < line.toNat ∧ ix.starts[line.toNat - 1]? = some start := by
  rw [lineStart]
  split
  · next hzero => simp [hzero]
  · next hne =>
    rw [Offset.toNat_sub_one hne]
    exact ⟨fun h => ⟨Offset.toNat_pos hne, h⟩, And.right⟩

lemma ne_empty_of_inside (hinside : offset.toNat < source.utf8ByteSize) : source ≠ "" := by
  rintro rfl
  exact Nat.not_lt_zero _ hinside

/-- The line of an offset is the number of starts up to it. -/
lemma lineNumber_eq_some_iff (hsize : source.utf8ByteSize < UInt32.size) :
    (build source).lineNumber offset = some line ↔ offset.toNat < source.utf8ByteSize ∧
      line.toNat = (build source).starts.toList.countP (· ≤ offset) := by
  by_cases hinside : offset.toNat < source.utf8ByteSize
  · obtain ⟨found, hfound, hcount⟩ := lineNumber_of_inside hsize hinside
    rw [← countP_starts hsize (ne_empty_of_inside hinside)] at hcount
    rw [hfound, Option.some.injEq, ← hcount, UInt32.toNat_inj, eq_comm]
    exact ⟨fun h => ⟨hinside, h⟩, And.right⟩
  · rw [lineNumber_of_beyond hsize (Nat.le_of_not_lt hinside)]
    simp [hinside]

/-- An offset lies between the start of its line and the start of the next one. -/
lemma start_le_of_lineNumber (hsize : source.utf8ByteSize < UInt32.size)
    (h : (build source).lineNumber offset = some line) :
    (∃ start, (build source).lineStart line = some start ∧ start ≤ offset) ∧
    ∀ next start, next.toNat = line.toNat + 1 → (build source).lineStart next = some start →
      offset < start := by
  obtain ⟨hinside, hcount⟩ := (lineNumber_eq_some_iff hsize).mp h
  have hwords : Ascending (build source).starts := ascending_starts hsize
  have hpos : 0 < line.toNat := by
    rw [hcount, countP_starts hsize (ne_empty_of_inside hinside)]
    omega
  constructor
  · have hbound : line.toNat ≤ (build source).starts.size := by
      rw [hcount, ← Array.length_toList]
      exact List.countP_le_length
    obtain ⟨start, hstart⟩ : ∃ start, (build source).starts[line.toNat - 1]? = some start :=
      ⟨_, Array.getElem?_eq_getElem (by omega)⟩
    refine ⟨start, lineStart_eq_some_iff.mpr ⟨hpos, hstart⟩, ?_⟩
    rw [le_iff_lt_countP hwords hstart, ← hcount]
    omega
  · intro next start hnext hstart
    obtain ⟨-, hstart⟩ := lineStart_eq_some_iff.mp hstart
    rw [hnext, Nat.add_sub_cancel] at hstart
    rw [← UInt32.not_le, le_iff_lt_countP hwords hstart, ← hcount]
    exact Nat.lt_irrefl _

/-- A line starts where the source ends exactly if it is the last one and a newline is in front. -/
lemma start_eq_size_iff (hsize : source.utf8ByteSize < UInt32.size) (hne : source ≠ "") {i : Nat}
    (hstart : (build source).starts[i]? = some start) :
    start.toNat = source.utf8ByteSize ↔
      i + 1 = (build source).lineCount ∧ source.toList.getLast? = some '\n' := by
  have hwords : Ascending (build source).starts := ascending_starts hsize
  obtain ⟨hi, -⟩ := Array.getElem?_eq_some_iff.mp hstart
  have hbound : ∀ {j : Nat} {w : UInt32}, (build source).starts[j]? = some w →
      w.toNat ≤ source.utf8ByteSize := by
    intro j w hw
    refine le_of_mem_startsOf (offsets_build hsize hne ▸ ?_)
    exact mem_offsets.mpr ⟨j, w, hw, rfl⟩
  have hrecorded : source.utf8ByteSize ∈ (build source).offsets ↔
      source.toList.getLast? = some '\n' := by
    have hnonzero : source.utf8ByteSize ≠ 0 := by simpa using hne
    rw [offsets_build hsize hne, startsOf, List.mem_cons, mem_afterNewlines, ← getLast?_bytesOf,
      List.getLast?_eq_getElem?, length_bytesOf]
    constructor
    · rintro (hzero | ⟨j, hbyte, hend⟩)
      · exact absurd hzero hnonzero
      · rwa [hend, Nat.add_sub_cancel]
    · exact fun hbyte => .inr ⟨_, hbyte, by omega⟩
  rw [← hrecorded]
  constructor
  · intro hend
    refine ⟨?_, mem_offsets.mpr ⟨i, start, hstart, hend⟩⟩
    -- any further start would lie beyond the source
    by_contra hnext
    have hlt : i + 1 < (build source).starts.size := Nat.lt_of_le_of_ne hi hnext
    have hless := hwords (Nat.lt_succ_self i) hstart (Array.getElem?_eq_getElem hlt)
    rw [UInt32.lt_iff_toNat_lt, hend] at hless
    exact absurd (hbound (Array.getElem?_eq_getElem hlt)) (Nat.not_le.mpr hless)
  · rintro ⟨hlast, hmem⟩
    obtain ⟨j, w, hw, hend⟩ := mem_offsets.mp hmem
    obtain ⟨hj, -⟩ := Array.getElem?_eq_some_iff.mp hw
    have hle : j ≤ i := Nat.le_of_lt_succ (Nat.lt_of_lt_of_eq hj hlast.symm)
    rcases Nat.lt_or_eq_of_le hle with hlt | rfl
    · have hless := hwords hlt hw hstart
      rw [UInt32.lt_iff_toNat_lt, hend] at hless
      exact absurd (hbound hstart) (Nat.not_le.mpr hless)
    · rw [← Option.some.inj (hw.symm.trans hstart), hend]

/-- What an index of a source records, and how its two queries go together. -/
structure Indexes (ix : LineIndex) (source : String) : Prop where
  /-- The recorded offsets ascend. -/
  ascending : ix.offsets.Pairwise (· < ·)
  /-- They lie between characters of the source or at its ends. -/
  boundary : ∀ n ∈ ix.offsets, n ≤ source.utf8ByteSize ∧ String.Pos.Raw.IsValid source ⟨n⟩
  /-- Nothing is recorded of the empty text. -/
  nothing : source = "" → ix.offsets = []
  /-- Of any other text, the start and what follows each newline byte are recorded. -/
  recorded : source ≠ "" → ∀ n, n ∈ ix.offsets ↔
    n = 0 ∨ ∃ i, (bytesOf source)[i]? = some newline ∧ n = i + 1
  /-- Cut there, the source falls into its lines. -/
  lines : ∃ pieces, cutAt source ix.offsets = some pieces ∧ String.join pieces = source ∧
    (source ≠ "" → IsLines pieces)
  /-- The start of a line is on that line, but for an empty last line. -/
  numbered : ∀ line : UInt32, 1 ≤ line.toNat → line.toNat ≤ ix.lineCount →
    ∃ start, ix.lineStart line = some start ∧ ix.lineNumber start =
      if line.toNat = ix.lineCount ∧ source.toList.getLast? = some '\n' then none else some line
  /-- The line of an offset starts at the offset or before, and the next one behind it. -/
  encloses : ∀ offset line, ix.lineNumber offset = some line →
    (∃ start, ix.lineStart line = some start ∧ start ≤ offset) ∧
    ∀ next start, next.toNat = line.toNat + 1 → ix.lineStart next = some start → offset < start

lemma numbered_build (hsize : source.utf8ByteSize < UInt32.size) (hpos : 1 ≤ line.toNat)
    (hle : line.toNat ≤ (build source).lineCount) :
    ∃ start, (build source).lineStart line = some start ∧ (build source).lineNumber start =
      if line.toNat = (build source).lineCount ∧ source.toList.getLast? = some '\n' then none
      else some line := by
  have hne : source ≠ "" := by
    rintro rfl
    exact absurd (Nat.le_trans hpos hle) (by decide)
  obtain ⟨start, hstart⟩ : ∃ start, (build source).starts[line.toNat - 1]? = some start :=
    ⟨_, Array.getElem?_eq_getElem (Nat.lt_of_lt_of_le (Nat.sub_one_lt_of_lt hpos) hle)⟩
  refine ⟨start, lineStart_eq_some_iff.mpr ⟨hpos, hstart⟩, ?_⟩
  have hend := start_eq_size_iff hsize hne hstart
  rw [Nat.sub_add_cancel hpos] at hend
  split
  · next hlast => exact lineNumber_of_beyond hsize (Nat.le_of_eq (hend.mpr hlast).symm)
  · next hinner =>
    have hbound : start.toNat ≤ source.utf8ByteSize :=
      (isValid_of_mem_offsets hsize (mem_offsets.mpr ⟨_, start, hstart, rfl⟩)).le_utf8ByteSize
    -- the start itself is the last one up to it
    have hfound : (Place.found (line.toNat - 1)).Fits (build source).starts start := hstart
    refine (lineNumber_eq_some_iff hsize).mpr
      ⟨Nat.lt_of_le_of_ne hbound fun hsame => hinner (hend.mp hsame), ?_⟩
    rw [hfound.countP_le (ascending_starts hsize), Place.upTo, Nat.sub_add_cancel hpos]

/-- **The index of a source records where its lines start, and its queries find the line of an
offset and the start of a line.** -/
theorem indexes_build (hsize : source.utf8ByteSize < UInt32.size) :
    (build source).Indexes source where
  ascending := pairwise_offsets hsize
  boundary n hn :=
    have hvalid := isValid_of_mem_offsets hsize hn
    ⟨hvalid.le_utf8ByteSize, hvalid⟩
  nothing := by
    rintro rfl
    rfl
  recorded hne n := by
    rw [offsets_build hsize hne, startsOf, List.mem_cons, mem_afterNewlines]
  lines := by
    by_cases hne : source = ""
    · subst hne
      exact ⟨[], rfl, rfl, fun h => absurd rfl h⟩
    · obtain ⟨lines, hlines, hjoin, -, hcut⟩ := exists_lines_build hsize hne
      exact ⟨lines, hcut, hjoin, fun _ => hlines⟩
  numbered _ := numbered_build hsize
  encloses _ _ := start_le_of_lineNumber hsize

/-- Line 4 is empty and starts where the source ends. -/
theorem indexes_build_of_final_newline :
    "αβ\n\nγ\n".utf8ByteSize < UInt32.size ∧ (build "αβ\n\nγ\n").offsets = [0, 5, 6, 9] ∧
    (build "αβ\n\nγ\n").Indexes "αβ\n\nγ\n" :=
  ⟨by decide, by decide, indexes_build (by decide)⟩

end LineIndex

end DeclTree.Text
