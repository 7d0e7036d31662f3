import Mathlib.Data.List.Induction
import DeclTree.Text.LineIndex

/-!
# Line numbers

A query of a line index is a binary search among the line starts.  What a binary search has to
answer is `Place.Fits`; on ascending words there is one such answer, `search_eq_iff`, and it tells
how many words there are up to the one looked for, `Place.Fits.countP_le`.  The scan of a source
records a start for the first line and one behind every newline, so the number of starts up to an
offset is one more than the number of newlines before it: `LineIndex.lineNumber_build`.
-/

namespace DeclTree.Text

/-! ## Binary search -/

/-- Each word is less than the words behind it. -/
def Ascending (words : Array UInt32) : Prop :=
  ∀ {i j : Nat} {v w : UInt32}, i < j → words[i]? = some v → words[j]? = some w → v < w

/-- What a search for `key` may answer: the index of an equal word, or the index that parts the
smaller words from the greater ones. -/
def Place.Fits (words : Array UInt32) (key : UInt32) : Place → Prop
  | .found i => words[i]? = some key
  | .insertAt i => i ≤ words.size ∧ (∀ {j w}, j < i → words[j]? = some w → w < key) ∧
      ∀ {j w}, i ≤ j → words[j]? = some w → key < w

/-- How many words there are up to `key`, by the answer of a search for it. -/
def Place.upTo : Place → Nat
  | .found i => i + 1
  | .insertAt i => i

section Search

variable {words : Array UInt32} {key : UInt32} {place : Place}

/-- The indices left to search are those between the words known to be smaller and the words known
to be greater. -/
lemma searchBetween_fits (hwords : Ascending words) {lo hi : Nat} (hle : lo ≤ hi)
    (hsize : hi ≤ words.size) (hbelow : ∀ {j w}, j < lo → words[j]? = some w → w < key)
    (habove : ∀ {j w}, hi ≤ j → words[j]? = some w → key < w) :
    (searchBetween words key lo hi).Fits words key := by
  fun_induction searchBetween words key lo hi with
  | case1 lo hi hlt mid hnone =>
    -- the middle index is in range
    have hmid : words.size ≤ mid := Array.getElem?_eq_none_iff.mp hnone
    omega
  | case2 lo hi hlt mid hword => exact hword
  | case3 lo hi hlt mid word hword hne hless ih =>
    refine ih (by omega) hsize (fun {j w} hj hw => ?_) habove
    rcases Nat.lt_or_eq_of_le (Nat.le_of_lt_succ hj) with hj | rfl
    · exact UInt32.lt_trans (hwords hj hw hword) hless
    · obtain rfl : word = w := Option.some.inj (hword.symm.trans hw)
      exact hless
  | case4 lo hi hlt mid word hword hne hless ih =>
    have hgreater : key < word := by
      rw [UInt32.lt_iff_toNat_lt] at hless ⊢
      rw [← UInt32.toNat_inj] at hne
      omega
    refine ih (by omega) (by omega) hbelow (fun {j w} hj hw => ?_)
    rcases Nat.lt_or_eq_of_le hj with hj | rfl
    · exact UInt32.lt_trans hgreater (hwords hj hword hw)
    · obtain rfl : word = w := Option.some.inj (hword.symm.trans hw)
      exact hgreater
  | case5 lo hi hdone =>
    obtain rfl : lo = hi := by omega
    exact ⟨hsize, hbelow, habove⟩

lemma search_fits (hwords : Ascending words) (key : UInt32) :
    (search words key).Fits words key := by
  refine searchBetween_fits hwords (Nat.zero_le _) (Nat.le_refl _) nofun (fun {j w} hj hw => ?_)
  rw [Array.getElem?_eq_none hj] at hw
  cases hw

/-- An index parts the words up to `key` from the greater ones. -/
lemma countP_le_of_parted {i : Nat} (hi : i ≤ words.size)
    (hfront : ∀ {j w}, j < i → words[j]? = some w → w ≤ key)
    (hback : ∀ {j w}, i ≤ j → words[j]? = some w → key < w) :
    words.toList.countP (· ≤ key) = i := by
  have hin : ∀ w ∈ words.toList.take i, decide (w ≤ key) = true := by
    intro w hw
    obtain ⟨j, hj, rfl⟩ := List.mem_take_iff_getElem.mp hw
    have hless : j < i := by omega
    exact decide_eq_true (hfront hless (by simp))
  have hout : ∀ w ∈ words.toList.drop i, ¬ decide (w ≤ key) = true := by
    intro w hw
    obtain ⟨j, hj, rfl⟩ := List.mem_drop_iff_getElem.mp hw
    have hgreater := hback (Nat.le_add_right i j) (w := words.toList[i + j]) (by simp)
    rw [decide_eq_true_eq, UInt32.not_le]
    exact hgreater
  calc words.toList.countP (· ≤ key)
      = (words.toList.take i).countP (· ≤ key) + (words.toList.drop i).countP (· ≤ key) := by
        rw [← List.countP_append, List.take_append_drop]
    _ = i := by
        rw [List.countP_eq_length.mpr hin, List.countP_eq_zero.mpr hout, List.length_take,
          Array.length_toList]
        omega

lemma Place.Fits.countP_le (hwords : Ascending words) (h : place.Fits words key) :
    words.toList.countP (· ≤ key) = place.upTo := by
  cases place with
  | found i =>
    have hword : words[i]? = some key := h
    obtain ⟨hi, -⟩ := Array.getElem?_eq_some_iff.mp hword
    refine countP_le_of_parted hi (fun {j w} hj hw => ?_) fun hj hw => hwords hj hword hw
    rcases Nat.lt_or_eq_of_le (Nat.le_of_lt_succ hj) with hj | rfl
    · exact UInt32.le_of_lt (hwords hj hw hword)
    · obtain rfl : key = w := Option.some.inj (hword.symm.trans hw)
      exact UInt32.le_refl _
  | insertAt i =>
    obtain ⟨hi, hsmaller, hgreater⟩ := h
    exact countP_le_of_parted hi (fun hj hw => UInt32.le_of_lt (hsmaller hj hw)) hgreater

/-- Of ascending words, those up to `key` stand in front. -/
lemma le_iff_lt_countP (hwords : Ascending words) {i : Nat} {w : UInt32}
    (hw : words[i]? = some w) : w ≤ key ↔ i < words.toList.countP (· ≤ key) := by
  have hfits := search_fits hwords key
  rw [hfits.countP_le hwords]
  generalize search words key = place at hfits
  cases place with
  | found k =>
    have hkey : words[k]? = some key := hfits
    rw [Place.upTo, Nat.lt_succ_iff]
    constructor
    · intro hle
      by_contra hgreater
      exact absurd (hwords (Nat.lt_of_not_le hgreater) hkey hw) (UInt32.not_lt.mpr hle)
    · intro hle
      rcases Nat.lt_or_eq_of_le hle with hlt | rfl
      · exact UInt32.le_of_lt (hwords hlt hw hkey)
      · exact UInt32.le_of_eq (Option.some.inj (hw.symm.trans hkey))
  | insertAt k =>
    obtain ⟨-, hsmaller, hgreater⟩ := hfits
    rw [Place.upTo]
    constructor
    · intro hle
      by_contra hbehind
      exact absurd (hgreater (Nat.le_of_not_lt hbehind) hw) (UInt32.not_lt.mpr hle)
    · exact fun hfront => UInt32.le_of_lt (hsmaller hfront hw)

/-- Where the first word is 0, an insertion point has a word in front of it. -/
lemma Place.Fits.insertAt_pos {i : Nat} (h : (Place.insertAt i).Fits words key)
    (hfirst : words[0]? = some 0) : 0 < i := by
  by_contra hzero
  have hless : key < 0 := h.2.2 (by omega) hfirst
  exact UInt32.not_lt_zero hless

/-- Ascending words leave a search no choice. -/
lemma Place.Fits.unique (hwords : Ascending words) {other : Place} (h : place.Fits words key)
    (hother : other.Fits words key) : place = other := by
  have hcount := (h.countP_le hwords).symm.trans (hother.countP_le hwords)
  -- an equal word at an index is not among the smaller ones in front of another
  cases place with
  | found i =>
    cases other with
    | found j => exact congrArg Place.found (Nat.succ.inj hcount)
    | insertAt j =>
      have hij : i < j := Nat.lt_of_succ_le (Nat.le_of_eq hcount)
      exact absurd (hother.2.1 hij h) (UInt32.lt_irrefl key)
  | insertAt i =>
    cases other with
    | found j =>
      have hji : j < i := Nat.lt_of_succ_le (Nat.le_of_eq hcount.symm)
      exact absurd (h.2.1 hji hother) (UInt32.lt_irrefl key)
    | insertAt j => exact congrArg Place.insertAt hcount

/-- **A binary search of ascending words answers what it has to.** -/
theorem search_eq_iff (hwords : Ascending words) :
    search words key = place ↔ place.Fits words key := by
  constructor
  · rintro rfl
    exact search_fits hwords key
  · exact (search_fits hwords key).unique hwords

end Search

/-! ## The starts of the lines -/

/-- The scan one byte further. -/
lemma afterNewlines_concat (bytes : List UInt8) (b : UInt8) :
    afterNewlines (bytes ++ [b]) =
      afterNewlines bytes ++ if b = newline then [bytes.length + 1] else [] := by
  unfold afterNewlines
  rw [List.zipIdx_append, List.filterMap_append]
  by_cases hb : b = newline <;> simp [hb]

lemma le_length_of_mem_afterNewlines {bytes : List UInt8} {n : Nat}
    (h : n ∈ afterNewlines bytes) : 0 < n ∧ n ≤ bytes.length := by
  induction bytes using List.reverseRecOn with
  | nil => simp [afterNewlines] at h
  | append_singleton bytes b ih =>
    rw [afterNewlines_concat, List.mem_append] at h
    rw [List.length_append, List.length_singleton]
    rcases h with h | h
    · have hbound := ih h
      omega
    · split at h
      · obtain rfl := List.mem_singleton.mp h
        omega
      · cases h

/-- The scan only goes forward. -/
lemma pairwise_afterNewlines (bytes : List UInt8) : (afterNewlines bytes).Pairwise (· < ·) := by
  induction bytes using List.reverseRecOn with
  | nil => exact .nil
  | append_singleton bytes b ih =>
    rw [afterNewlines_concat, List.pairwise_append]
    refine ⟨ih, by split <;> simp, fun m hm n hn => ?_⟩
    have hbound := (le_length_of_mem_afterNewlines hm).2
    split at hn
    · obtain rfl := List.mem_singleton.mp hn
      omega
    · cases hn

/-- The newlines in front of an offset are those that end at it or before. -/
lemma countP_afterNewlines (bytes : List UInt8) (offset : Nat) :
    (afterNewlines bytes).countP (· ≤ offset) = (bytes.take offset).count newline := by
  induction bytes using List.reverseRecOn with
  | nil => simp [afterNewlines]
  | append_singleton bytes b ih =>
    rw [afterNewlines_concat, List.countP_append, ih, List.take_append, List.count_append]
    by_cases hoffset : bytes.length + 1 ≤ offset
    · have htake : [b].take (offset - bytes.length) = [b] := List.take_of_length_le (by simp; omega)
      rw [htake]
      by_cases hb : b = newline <;> simp [hb, hoffset]
    · have htake : [b].take (offset - bytes.length) = [] := by
        rw [show offset - bytes.length = 0 by omega, List.take_zero]
      rw [htake]
      by_cases hb : b = newline <;> simp [hb, hoffset]

namespace LineIndex

variable {source : String}

/-- The starts of the lines of a text that is not empty: the first byte, and what follows each
newline. -/
def startsOf (source : String) : List Nat := 0 :: afterNewlines (bytesOf source)

lemma pairwise_startsOf (source : String) : (startsOf source).Pairwise (· < ·) :=
  List.pairwise_cons.mpr
    ⟨fun _ hn => (le_length_of_mem_afterNewlines hn).1, pairwise_afterNewlines _⟩

lemma length_bytesOf (source : String) : (bytesOf source).length = source.utf8ByteSize := rfl

lemma le_of_mem_startsOf {n : Nat} (hn : n ∈ startsOf source) : n ≤ source.utf8ByteSize := by
  rcases List.mem_cons.mp hn with rfl | hn
  · exact Nat.zero_le _
  · rw [← length_bytesOf]
    exact (le_length_of_mem_afterNewlines hn).2

lemma starts_build (hne : source ≠ "") :
    (build source).starts = ((startsOf source).map Offset.clamp).toArray := by
  simp [build, startsOf, hne]

lemma first_start_build (hne : source ≠ "") : (build source).starts[0]? = some 0 := by
  rw [starts_build hne]
  rfl

/-- No start is clamped. -/
lemma toNat_clamp_start (hsize : source.utf8ByteSize < UInt32.size) {n : Nat}
    (hn : n ∈ startsOf source) : (Offset.clamp n).toNat = n :=
  Offset.toNat_clamp (Nat.lt_of_le_of_lt (le_of_mem_startsOf hn) hsize)

lemma ascending_toArray {words : List UInt32} (h : words.Pairwise (· < ·)) :
    Ascending words.toArray := by
  intro i j v w hij hv hw
  rw [List.getElem?_toArray] at hv hw
  obtain ⟨hi, rfl⟩ := List.getElem?_eq_some_iff.mp hv
  obtain ⟨hj, rfl⟩ := List.getElem?_eq_some_iff.mp hw
  exact List.pairwise_iff_getElem.mp h i j hi hj hij

lemma ascending_starts (hsize : source.utf8ByteSize < UInt32.size) :
    Ascending (build source).starts := by
  by_cases hne : source = ""
  · subst hne
    exact ascending_toArray .nil
  · rw [starts_build hne]
    refine ascending_toArray (List.pairwise_map.mpr ?_)
    refine (pairwise_startsOf source).imp_of_mem fun hm hn hmn => ?_
    rw [UInt32.lt_iff_toNat_lt, toNat_clamp_start hsize hm, toNat_clamp_start hsize hn]
    exact hmn

/-- Of the starts, those up to an offset are the first and one for each newline before it. -/
lemma countP_starts (hsize : source.utf8ByteSize < UInt32.size) (hne : source ≠ "")
    (offset : UInt32) :
    (build source).starts.toList.countP (· ≤ offset) =
      1 + ((bytesOf source).take offset.toNat).count newline := by
  rw [starts_build hne, List.countP_map]
  have hclamp : (startsOf source).countP ((decide <| · ≤ offset) ∘ Offset.clamp) =
      (startsOf source).countP (· ≤ offset.toNat) := by
    refine List.countP_congr fun n hn => ?_
    simp [UInt32.le_iff_toNat_le, toNat_clamp_start hsize hn]
  rw [hclamp, startsOf, List.countP_cons, countP_afterNewlines]
  simp [Nat.add_comm]

/-! ## The line of an offset -/

/-- A line index that starts with offset 0 answers how many of its starts there are up to the
offset, so the decrement of an insertion point is never one of 0. -/
lemma lineNumber_eq {ix : LineIndex} (hstarts : Ascending ix.starts)
    (hfirst : ix.starts[0]? = some 0) (offset : UInt32) :
    ix.lineNumber offset =
      if ix.length ≤ offset then none
      else Offset.ofNat? (ix.starts.toList.countP (· ≤ offset)) := by
  unfold lineNumber
  split
  · rfl
  · have hfits := search_fits hstarts offset
    rw [hfits.countP_le hstarts]
    generalize search ix.starts offset = place at hfits
    cases place with
    | found i => rfl
    | insertAt i => exact congrArg Offset.ofNat? (Nat.sub_add_cancel (hfits.insertAt_pos hfirst))

lemma toNat_length_build (hsize : source.utf8ByteSize < UInt32.size) :
    (build source).length.toNat = source.utf8ByteSize :=
  Offset.toNat_clamp hsize

lemma lineNumber_of_beyond (hsize : source.utf8ByteSize < UInt32.size) {offset : UInt32}
    (hbeyond : source.utf8ByteSize ≤ offset.toNat) : (build source).lineNumber offset = none := by
  have hle : (build source).length ≤ offset := by
    rw [UInt32.le_iff_toNat_le, toNat_length_build hsize]
    exact hbeyond
  rw [lineNumber, if_pos hle]

lemma lineNumber_of_inside (hsize : source.utf8ByteSize < UInt32.size) {offset : UInt32}
    (hinside : offset.toNat < source.utf8ByteSize) :
    ∃ line, (build source).lineNumber offset = some line ∧
      line.toNat = 1 + ((bytesOf source).take offset.toNat).count newline := by
  have hlt : ¬ (build source).length ≤ offset := by
    rw [UInt32.le_iff_toNat_le, toNat_length_build hsize]
    omega
  have hne : source ≠ "" := by
    rintro rfl
    exact Nat.not_lt_zero _ hinside
  -- the newlines in front of the offset are no more than the bytes there
  have hcount : ((bytesOf source).take offset.toNat).count newline ≤ offset.toNat :=
    Nat.le_trans List.count_le_length (List.length_take_le _ _)
  obtain ⟨line, hline⟩ : ∃ line,
      Offset.ofNat? (1 + ((bytesOf source).take offset.toNat).count newline) = some line :=
    Option.isSome_iff_exists.mp (Offset.ofNat?_isSome_iff.mpr (by omega))
  refine ⟨line, ?_, Offset.toNat_of_ofNat? hline⟩
  rw [lineNumber_eq (ascending_starts hsize) (first_start_build hne), if_neg hlt,
    countP_starts hsize hne, hline]

/-- **The line of an offset inside of the source is one more than the number of newlines in front of
it, and there is no line beyond the source.**  The binary search on which this rests answers what
any search that keeps the contract has to answer. -/
theorem lineNumber_build (hsize : source.utf8ByteSize < UInt32.size) (offset : UInt32) :
    (∀ place, search (build source).starts offset = place ↔
      place.Fits (build source).starts offset) ∧
    ((build source).lineNumber offset).map UInt32.toNat =
      if source.utf8ByteSize ≤ offset.toNat then none
      else some (1 + ((bytesOf source).take offset.toNat).count newline) := by
  refine ⟨fun _ => search_eq_iff (ascending_starts hsize), ?_⟩
  split
  · next hbeyond => rw [lineNumber_of_beyond hsize hbeyond, Option.map_none]
  · next hinside =>
    obtain ⟨line, hline, hcount⟩ := lineNumber_of_inside hsize (Nat.lt_of_not_le hinside)
    rw [hline, Option.map_some, hcount]

/-- The newline at offset 4 is on the line that it ends. -/
theorem lineNumber_build_of_newline :
    "a\nbb\n".utf8ByteSize < UInt32.size ∧
    ((build "a\nbb\n").lineNumber 4).map UInt32.toNat = some 2 :=
  ⟨by decide, (lineNumber_build (by decide) 4).2⟩

end LineIndex

end DeclTree.Text
