import Mathlib.Data.List.TakeWhile
import DeclTree.Text.Dotted

/-!
# The last segment of a dotted name

The last segment of a text holds no full stop, and either it is the whole text or a full stop stands
in front of it: `lastSegment_eq_iff`.  A qualifier in front of the text changes nothing,
`lastSegmentChars_qualified`.
-/

namespace DeclTree.Text

variable {chars segment : List Char}

lemma lastSegmentChars_of_not_mem (h : '.' ∉ chars) : lastSegmentChars chars = chars := by
  have hall : chars.reverse.takeWhile (· != '.') = chars.reverse := by
    refine List.takeWhile_eq_self_iff.mpr fun c hc => bne_iff_ne.mpr ?_
    rintro rfl
    exact h (List.mem_reverse.mp hc)
  rw [lastSegmentChars, hall, List.reverse_reverse]

/-- A qualifier does not count. -/
lemma lastSegmentChars_qualified (qualifier chars : List Char) :
    lastSegmentChars (qualifier ++ '.' :: chars) = lastSegmentChars chars := by
  have hreverse : (qualifier ++ '.' :: chars).reverse =
      chars.reverse ++ '.' :: qualifier.reverse := by simp
  rw [lastSegmentChars, lastSegmentChars, hreverse, List.takeWhile_append]
  split
  · next hall =>
    rw [List.takeWhile_cons_of_neg (by decide), List.append_nil]
    exact congrArg List.reverse ((List.takeWhile_prefix _).eq_of_length hall).symm
  · rfl

/-- The last segment is the whole text or stands behind a full stop. -/
lemma lastSegmentChars_whole_or_suffix (chars : List Char) :
    chars = lastSegmentChars chars ∨ '.' :: lastSegmentChars chars <:+ chars := by
  by_cases hdot : '.' ∈ chars
  · obtain ⟨back, front, hsplit, hback⟩ :=
      List.eq_append_cons_of_mem (List.mem_reverse.mpr hdot)
    have hchars : chars = front.reverse ++ '.' :: back.reverse := by
      rw [← List.reverse_reverse chars, hsplit]
      simp
    have hlast : lastSegmentChars chars = back.reverse := by
      rw [hchars, lastSegmentChars_qualified,
        lastSegmentChars_of_not_mem (by rwa [List.mem_reverse])]
    exact .inr ⟨front.reverse, by rw [hlast, ← hchars]⟩
  · exact .inl (lastSegmentChars_of_not_mem hdot).symm

lemma lastSegmentChars_eq_iff :
    lastSegmentChars chars = segment ↔
      '.' ∉ segment ∧ (chars = segment ∨ '.' :: segment <:+ chars) := by
  constructor
  · rintro rfl
    exact ⟨not_mem_lastSegmentChars chars, lastSegmentChars_whole_or_suffix chars⟩
  · rintro ⟨hsegment, rfl | ⟨front, rfl⟩⟩
    · exact lastSegmentChars_of_not_mem hsegment
    · rw [lastSegmentChars_qualified, lastSegmentChars_of_not_mem hsegment]

/-- A text ends with another one exactly if its characters do. -/
lemma toList_suffix_iff {text tail : String} :
    tail.toList <:+ text.toList ↔ ∃ front, text = front ++ tail := by
  constructor
  · rintro ⟨front, htext⟩
    refine ⟨String.ofList front, String.toList_inj.mp ?_⟩
    rw [String.toList_append, String.toList_ofList, htext]
  · rintro ⟨front, rfl⟩
    exact ⟨front.toList, String.toList_append.symm⟩

/-- **The last segment of a text is the segment without a full stop that the text ends in, behind a
full stop if there is more.** -/
lemma lastSegment_eq_iff {text segment : String} :
    lastSegment text = segment ↔
      '.' ∉ segment.toList ∧ (text = segment ∨ ∃ front, text = front ++ "." ++ segment) := by
  have htail : '.' :: segment.toList = ("." ++ segment).toList := by simp
  rw [lastSegment, ← String.toList_inj, String.toList_ofList, lastSegmentChars_eq_iff,
    String.toList_inj, htail, toList_suffix_iff]
  simp only [String.append_assoc]

end DeclTree.Text
