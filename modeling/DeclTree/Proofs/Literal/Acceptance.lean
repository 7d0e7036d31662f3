import DeclTree.Proofs.Literal.Reading

/-!
# Accepted texts and how they are spelled

Which texts may be written inline and how texts are written are decided apart, by classes of
characters that are cut in different ways.  They agree character by character, `isInline_eq`: what
is refused is spelled by an octal escape or by the name of a control character.  The names that are
written are codes of characters behind ASCII, `spelledName_of_spellingOf`.
-/

namespace DeclTree.Literal

/-- Whether a spelling is one of those that accepted texts have: no octal escape, and no name of a
character below `U+00A0`. -/
def Spelling.isInline : Spelling → Bool
  | plain _ => true
  | named _ => true
  | octal _ => false
  | universal code => 0xA0 ≤ code

/-- A name as it may be written for some character, accepted or not. -/
structure SpelledName (code : Nat) : Prop where
  /-- It is no ASCII character. -/
  behind_ascii : 0x80 ≤ code
  /-- It is no surrogate. -/
  not_surrogate : ¬ (0xD800 ≤ code ∧ code ≤ 0xDFFF)
  /-- It is not beyond the last character. -/
  le_last : code ≤ 0x10FFFF

/-- A name that compilers allow in a literal: that of no control character either. -/
structure AllowedName (code : Nat) : Prop extends SpelledName code where
  /-- It is behind the control characters. -/
  behind_controls : 0xA0 ≤ code

variable {c : Char} {code : Nat} {text : String}

/-! ## Characters -/

/-- The classes of characters for one decision and for the other are cut at the same points. -/
lemma isInline_eq (c : Char) : isInline c = (spellingOf c).isInline := by
  by_cases hnamed : c ∈ namedChars
  · simp only [namedChars, List.mem_cons, List.not_mem_nil, or_false] at hnamed
    rcases hnamed with rfl | rfl | rfl | rfl | rfl <;> decide
  · have hinline : isInline c = true ↔ ¬ (c.toNat ≤ 0x1F ∨ 0x7F ≤ c.toNat ∧ c.toNat ≤ 0x9F) := by
      simp only [namedChars, List.mem_cons, List.not_mem_nil, or_false, not_or] at hnamed
      simp only [isInline, isControl, Bool.or_eq_true, Bool.not_eq_true', Bool.or_eq_false_iff,
        Bool.and_eq_false_iff, decide_eq_false_iff_not, beq_iff_eq, hnamed, or_false]
      omega
    -- what is left is a comparison of ranges of codes
    rw [Bool.eq_iff_iff, hinline, spellingOf, if_neg hnamed]
    split
    · simp only [Spelling.isInline, Bool.false_eq_true, iff_false]
      omega
    · split
      · simp only [Spelling.isInline, iff_true]
        omega
      · simp only [Spelling.isInline, decide_eq_true_eq]
        omega

/-- A character is no surrogate. -/
lemma spelledName_toNat (h : 0x80 ≤ c.toNat) : SpelledName c.toNat := by
  have hvalid : c.toNat < 0xD800 ∨ (0xDFFF < c.toNat ∧ c.toNat < 0x110000) := c.valid
  exact ⟨h, by omega, by omega⟩

lemma spelledName_of_spellingOf (h : spellingOf c = .universal code) : SpelledName code := by
  unfold spellingOf at h
  split at h
  · cases h
  · split at h
    · cases h
    · split at h
      · cases h
      · next hascii =>
        cases h
        exact spelledName_toNat (by omega)

/-! ## Texts -/

lemma read_cpp (text : String) :
    read .between (Escaper.cpp.body text).toList = some (text.toList.map spellingOf) := by
  rw [Escaper.cpp, String.toList_ofList, read_escapeChars]

lemma accepts_cpp_iff :
    Escaper.cpp.accepts text = true ↔
      ∀ spelling ∈ text.toList.map spellingOf, spelling.isInline = true := by
  simp only [Escaper.cpp, List.all_eq_true, List.forall_mem_map, isInline_eq]

/-- **A text is accepted exactly if its body, read back, holds no octal escape and no name below
`U+00A0`.**  No body at all holds a name of an ASCII character, a surrogate or what is no character,
so the names in the bodies of accepted texts are allowed. -/
theorem Escaper.cpp_accepts_iff_spelling (text : String) :
    ∃ spellings, read .between (Escaper.cpp.body text).toList = some spellings ∧
      (Escaper.cpp.accepts text = true ↔
        (∀ code, .octal code ∉ spellings) ∧ ∀ code < 0xA0, .universal code ∉ spellings) ∧
      (∀ code, .universal code ∈ spellings → SpelledName code) ∧
      (Escaper.cpp.accepts text = true →
        ∀ code, .universal code ∈ spellings → AllowedName code) := by
  have hnames : ∀ code, .universal code ∈ text.toList.map spellingOf → SpelledName code := by
    intro code hmem
    obtain ⟨c, -, hspelled⟩ := List.mem_map.mp hmem
    exact spelledName_of_spellingOf hspelled
  refine ⟨text.toList.map spellingOf, read_cpp text, ?_, hnames, fun haccepts code hmem => ?_⟩
  · rw [accepts_cpp_iff]
    constructor
    · intro hinline
      refine ⟨fun code hmem => ?_, fun code hcode hmem => ?_⟩
      · exact Bool.false_ne_true (hinline _ hmem)
      · exact absurd (of_decide_eq_true (hinline _ hmem)) (by omega)
    · rintro ⟨hoctal, huniversal⟩ spelling hmem
      cases spelling with
      | plain c => rfl
      | named c => rfl
      | octal code => exact absurd hmem (hoctal code)
      | universal code =>
        exact decide_eq_true (Nat.not_lt.mp fun hcode => huniversal code hcode hmem)
  · have hinline := accepts_cpp_iff.mp haccepts _ hmem
    exact ⟨hnames code hmem, of_decide_eq_true hinline⟩

/-- A text with an escaped backslash in front of what looks like a name, and with two names. -/
theorem Escaper.cpp_accepts_iff_spelling_of_face :
    Escaper.cpp.body "\\u0041é😀" = "\\\\u0041\\u00E9\\U0001F600" ∧
    Escaper.cpp.accepts "\\u0041é😀" = true ∧ AllowedName 0xE9 ∧ AllowedName 0x1F600 ∧
    Escaper.cpp.accepts "\u0085" = false ∧ SpelledName 0x85 ∧ ¬ AllowedName 0x85 := by
  obtain ⟨spellings, hread, -, -, hallowed⟩ := Escaper.cpp_accepts_iff_spelling "\\u0041é😀"
  obtain ⟨spellings', hread', -, hspelled, -⟩ := Escaper.cpp_accepts_iff_spelling "\u0085"
  rw [read_cpp, Option.some.injEq] at hread hread'
  subst hread hread'
  have haccepts : Escaper.cpp.accepts "\\u0041é😀" = true := by decide
  exact ⟨by decide, haccepts, hallowed haccepts _ (by decide), hallowed haccepts _ (by decide),
    by decide, hspelled _ (by decide), fun h => absurd h.behind_controls (by decide)⟩

end DeclTree.Literal
