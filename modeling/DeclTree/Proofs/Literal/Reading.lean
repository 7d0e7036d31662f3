import Mathlib.Logic.Function.Basic
import Mathlib.Tactic.Ring
import DeclTree.Literal.Escape

/-!
# Reading literals back

The body of a literal is read from left to right, one character at a time.  Between two spellings
the reader is in the state `between`; a backslash takes it into an escape, and it comes back when
the escape is complete.  The reader stops without an answer at a double quote that is not escaped,
at an escape that it does not know, and at an end inside of an escape.

Each character is written so that the reader gets it back and is `between` again, whatever follows:
`read_escapeChar`.  So bodies mean the texts that they were made from,
`Escaper.cpp_body_means_text`.
-/

namespace DeclTree.Literal

/-! ## The reader -/

/-- How one character of a text is spelled in the body of a literal. -/
inductive Spelling
  /-- The character stands for itself. -/
  | plain (c : Char)
  /-- An escape with a name of its own, for this character. -/
  | named (c : Char)
  /-- An escape with three octal digits. -/
  | octal (code : Nat)
  /-- A universal character name. -/
  | universal (code : Nat)
deriving DecidableEq

/-- The character with a code, if there is one. -/
def charOfCode? (code : Nat) : Option Char :=
  if code.isValidChar then some (Char.ofNat code) else none

/-- The character that is meant. -/
def Spelling.meaning? : Spelling → Option Char
  | plain c => some c
  | named c => some c
  | octal code => charOfCode? code
  | universal code => charOfCode? code

/-- The character that a backslash and a letter or sign stand for. -/
def namedEscape? (name : Char) : Option Char :=
  if name = '\\' then some '\\'
  else if name = '"' then some '"'
  else if name = 'n' then some '\n'
  else if name = 'r' then some '\r'
  else if name = 't' then some '\t'
  else none

/-- The value of a hexadecimal digit, in capital or small letters. -/
def hexValue? (c : Char) : Option Nat :=
  if '0' ≤ c ∧ c ≤ '9' then some (c.toNat - 48)
  else if 'A' ≤ c ∧ c ≤ 'F' then some (c.toNat - 55)
  else if 'a' ≤ c ∧ c ≤ 'f' then some (c.toNat - 87)
  else none

/-- The value of a digit of a base up to 16. -/
def digitValue? (base : Nat) (c : Char) : Option Nat := (hexValue? c).filter (· < base)

/-- Where the reader is. -/
inductive ReaderState
  /-- Between two spellings. -/
  | between
  /-- Behind the backslash of an escape. -/
  | escape
  /-- Among the digits of an escape: their base, how many there are behind the next one, and the
  value of those that have been read. -/
  | digits (base more value : Nat)
deriving DecidableEq

/-- The spelling by a code, whose base tells the two sorts apart. -/
def Spelling.ofCode (base code : Nat) : Spelling :=
  if base = 8 then octal code else universal code

/-- Reads one character: the next state, and the spelling if the character completes one. -/
def ReaderState.step : ReaderState → Char → Option (ReaderState × List Spelling)
  | between, c =>
    if c = '"' then none
    else if c = '\\' then some (escape, [])
    else some (between, [.plain c])
  | escape, c =>
    match namedEscape? c with
    | some meant => some (between, [.named meant])
    | none =>
      if c = 'u' then some (digits 16 3 0, [])
      else if c = 'U' then some (digits 16 7 0, [])
      else (digitValue? 8 c).map fun value => (digits 8 1 value, [])
  | digits base 0 value, c =>
    (digitValue? base c).map fun d => (between, [.ofCode base (value * base + d)])
  | digits base (more + 1) value, c =>
    (digitValue? base c).map fun d => (digits base more (value * base + d), [])

/-- Reads to the end, which has to be between two spellings. -/
def read : ReaderState → List Char → Option (List Spelling)
  | .between, [] => some []
  | .escape, [] => none
  | .digits _ _ _, [] => none
  | state, c :: rest =>
    (state.step c).bind fun (next, spelled) => (read next rest).map (spelled ++ ·)

/-- The text that the body of a literal means. -/
def textOfBody? (body : String) : Option String :=
  (read .between body.toList).bind fun spellings =>
    (spellings.mapM Spelling.meaning?).map String.ofList

/-! ## Digits -/

lemma hexValue?_digit : ∀ value < 16, hexValue? (digit value) = some value := by decide

lemma digitValue?_digit {base value : Nat} (hbase : base ≤ 16) (hvalue : value < base) :
    digitValue? base (digit value) = some value := by
  rw [digitValue?, hexValue?_digit value (by omega)]
  simp [hvalue]

/-- An octal digit behind a backslash is the first of three. -/
lemma step_escape_digit : ∀ value < 8,
    ReaderState.escape.step (digit value) = some (.digits 8 1 value, []) := by decide

lemma read_cons {state next : ReaderState} {c : Char} {rest : List Char} {spelled : List Spelling}
    (hstep : state.step c = some (next, spelled)) :
    read state (c :: rest) = (read next rest).map (spelled ++ ·) := by
  cases state <;> simp [read, hstep]

/-- A character that completes no spelling. -/
lemma read_cons_silent {state next : ReaderState} {c : Char} {rest : List Char}
    (hstep : state.step c = some (next, [])) : read state (c :: rest) = read next rest := by
  rw [read_cons hstep]
  simp

/-- The digits of a number are read one after the other while there are more to come. -/
lemma read_digits {base : Nat} (hbase : 0 < base) (hsmall : base ≤ 16) (width more value n : Nat)
    (rest : List Char) :
    read (.digits base (width + more) value) (digits base width n ++ rest) =
      read (.digits base more (value * base ^ width + n % base ^ width)) rest := by
  induction width generalizing more n rest with
  | zero => simp [digits, Nat.mod_one]
  | succ width ih =>
    have hlast : digitValue? base (digit (n % base)) = some (n % base) :=
      digitValue?_digit hsmall (Nat.mod_lt n hbase)
    have hvalue : (value * base ^ width + n / base % base ^ width) * base + n % base =
        value * base ^ (width + 1) + n % base ^ (width + 1) := by
      rw [Nat.pow_succ', Nat.mod_mul]
      ring
    calc read (.digits base (width + 1 + more) value) (digits base (width + 1) n ++ rest)
        = read (.digits base (width + (more + 1)) value)
            (digits base width (n / base) ++ (digit (n % base) :: rest)) := by
          rw [digits, List.append_assoc, List.singleton_append, Nat.add_right_comm, Nat.add_assoc]
      _ = read (.digits base (more + 1) (value * base ^ width + n / base % base ^ width))
            (digit (n % base) :: rest) := ih (more + 1) (n / base) _
      _ = read (.digits base more (value * base ^ (width + 1) + n % base ^ (width + 1))) rest := by
          rw [← hvalue]
          exact read_cons_silent (by simp [ReaderState.step, hlast])

/-- All digits of a number are read, and the last completes the spelling. -/
lemma read_number {base : Nat} (hbase : 0 < base) (hsmall : base ≤ 16) {width n : Nat}
    (hn : n < base ^ (width + 1)) (rest : List Char) :
    read (.digits base width 0) (digits base (width + 1) n ++ rest) =
      (read .between rest).map (.ofCode base n :: ·) := by
  have hlast : digitValue? base (digit (n % base)) = some (n % base) :=
    digitValue?_digit hsmall (Nat.mod_lt n hbase)
  have hfront : n / base < base ^ width := by
    rw [Nat.div_lt_iff_lt_mul hbase, ← Nat.pow_succ]
    exact hn
  have hstep : (ReaderState.digits base 0 (n / base)).step (digit (n % base)) =
      some (.between, [.ofCode base n]) := by
    simp [ReaderState.step, hlast, Nat.div_add_mod']
  calc read (.digits base width 0) (digits base (width + 1) n ++ rest)
      = read (.digits base (width + 0) 0)
          (digits base width (n / base) ++ (digit (n % base) :: rest)) := by
        rw [digits, List.append_assoc, List.singleton_append, Nat.add_zero]
    _ = read (.digits base 0 (n / base)) (digit (n % base) :: rest) := by
        rw [read_digits hbase hsmall, Nat.zero_mul, Nat.zero_add, Nat.mod_eq_of_lt hfront]
    _ = (read .between rest).map (.ofCode base n :: ·) := read_cons hstep

/-- Behind a backslash, three octal digits are read like any number of three digits. -/
lemma read_octal {n : Nat} (hn : n < 8 ^ 3) (rest : List Char) :
    read .escape (digits 8 3 n ++ rest) = (read .between rest).map (.octal n :: ·) := by
  have hfirst := step_escape_digit (n / 8 / 8 % 8) (Nat.mod_lt _ (by decide))
  have hvalue : digitValue? 8 (digit (n / 8 / 8 % 8)) = some (n / 8 / 8 % 8) :=
    digitValue?_digit (by decide) (Nat.mod_lt _ (by decide))
  have hdigits : (ReaderState.digits 8 2 0).step (digit (n / 8 / 8 % 8)) =
      some (.digits 8 1 (n / 8 / 8 % 8), []) := by
    simp [ReaderState.step, hvalue]
  calc read .escape (digits 8 3 n ++ rest)
      = read (.digits 8 2 0) (digits 8 3 n ++ rest) :=
        (read_cons_silent hfirst).trans (read_cons_silent hdigits).symm
    _ = (read .between rest).map (.octal n :: ·) := read_number (by decide) (by decide) hn rest

/-! ## Characters -/

/-- The characters that have an escape with a name. -/
def namedChars : List Char := ['\\', '"', '\n', '\r', '\t']

/-- The spelling of a character in the bodies for generated code. -/
def spellingOf (c : Char) : Spelling :=
  if c ∈ namedChars then .named c
  else if c.toNat < 0x20 ∨ c.toNat = 0x7F then .octal c.toNat
  else if c.toNat < 0x80 then .plain c
  else .universal c.toNat

lemma charOfCode?_toNat (c : Char) : charOfCode? c.toNat = some c := by
  have hvalid : c.toNat.isValidChar := c.valid
  rw [charOfCode?, if_pos hvalid, Char.ofNat_toNat]

lemma meaning?_spellingOf (c : Char) : (spellingOf c).meaning? = some c := by
  unfold spellingOf
  split
  · rfl
  · split
    · exact charOfCode?_toNat c
    · split
      · rfl
      · exact charOfCode?_toNat c

/-- The four ways of writing a character that has no named escape. -/
lemma escapeChar_of_not_mem {c : Char} (hc : c ∉ namedChars) :
    escapeChar c =
      if c.toNat < 0x20 ∨ c.toNat = 0x7F then '\\' :: digits 8 3 c.toNat
      else if c.toNat < 0x80 then [c]
      else if c.toNat ≤ 0xFFFF then '\\' :: 'u' :: digits 16 4 c.toNat
      else '\\' :: 'U' :: digits 16 8 c.toNat := by
  simp only [namedChars, List.mem_cons, List.not_mem_nil, or_false, not_or] at hc
  obtain ⟨hslash, hquote, hnewline, hreturn, htab⟩ := hc
  simp only [escapeChar, hslash, hquote, hnewline, hreturn, htab, if_false]

lemma read_backslash (rest : List Char) : read .between ('\\' :: rest) = read .escape rest :=
  read_cons_silent (by decide)

lemma read_named {name c : Char} (hname : namedEscape? name = some c) (rest : List Char) :
    read .between ('\\' :: name :: rest) = (read .between rest).map (.named c :: ·) := by
  have hstep : ReaderState.escape.step name = some (.between, [.named c]) := by
    simp [ReaderState.step, hname]
  rw [read_backslash, read_cons hstep]
  rfl

/-- **A character is read back, and what follows it is read as if nothing had been before.** -/
lemma read_escapeChar (c : Char) (rest : List Char) :
    read .between (escapeChar c ++ rest) = (read .between rest).map (spellingOf c :: ·) := by
  by_cases hnamed : c ∈ namedChars
  · have hcases := hnamed
    simp only [namedChars, List.mem_cons, List.not_mem_nil, or_false] at hcases
    rcases hcases with rfl | rfl | rfl | rfl | rfl <;> exact read_named rfl rest
  · rw [escapeChar_of_not_mem hnamed, spellingOf, if_neg hnamed]
    split
    · next hcontrol =>
      have hcode : c.toNat < 8 ^ 3 := by omega
      rw [List.cons_append, read_backslash, read_octal hcode]
    · split
      · have hstep : ReaderState.between.step c = some (.between, [.plain c]) := by
          simp only [namedChars, List.mem_cons, not_or] at hnamed
          simp only [ReaderState.step, hnamed.1, hnamed.2.1, if_false]
        exact read_cons hstep
      · split
        · next hshort =>
          have hcode : c.toNat < 16 ^ 4 := by omega
          have hstep : ReaderState.escape.step 'u' = some (.digits 16 3 0, []) := by decide
          rw [List.cons_append, List.cons_append, read_backslash, read_cons_silent hstep,
            read_number (by decide) (by decide) hcode]
          rfl
        · have hcode : c.toNat < 16 ^ 8 := c.val.toNat_lt
          have hstep : ReaderState.escape.step 'U' = some (.digits 16 7 0, []) := by decide
          rw [List.cons_append, List.cons_append, read_backslash, read_cons_silent hstep,
            read_number (by decide) (by decide) hcode]
          rfl

/-- The characters of a text are spelled one after the other. -/
lemma read_escapeChars (chars : List Char) :
    read .between (escapeChars chars) = some (chars.map spellingOf) := by
  induction chars with
  | nil => rfl
  | cons c chars ih =>
    have hcons : escapeChars (c :: chars) = escapeChar c ++ escapeChars chars := List.flatMap_cons
    rw [hcons, read_escapeChar, ih, Option.map_some, List.map_cons]

lemma mapM_meaning? (chars : List Char) :
    (chars.map spellingOf).mapM Spelling.meaning? = some chars := by
  induction chars with
  | nil => rfl
  | cons c chars ih =>
    rw [List.map_cons, List.mapM_cons, ih, meaning?_spellingOf]
    rfl

lemma textOfBody?_cpp (text : String) : textOfBody? (Escaper.cpp.body text) = some text := by
  rw [textOfBody?, Escaper.cpp, String.toList_ofList, read_escapeChars, Option.bind_some,
    mapM_meaning?, Option.map_some, String.ofList_toList]

/-! ## The characters of a body -/

/-- The characters from the blank to the tilde. -/
def isPrintable (c : Char) : Bool := 0x20 ≤ c.toNat && c.toNat ≤ 0x7E

lemma isPrintable_digit : ∀ value < 16, isPrintable (digit value) = true := by decide

lemma all_isPrintable_digits {base : Nat} (hbase : 0 < base) (hsmall : base ≤ 16)
    (width n : Nat) : (digits base width n).all isPrintable = true := by
  induction width generalizing n with
  | zero => rfl
  | succ width ih =>
    have hlast : n % base < 16 := Nat.lt_of_lt_of_le (Nat.mod_lt n hbase) hsmall
    rw [digits, List.all_append, ih, List.all_cons, isPrintable_digit _ hlast, List.all_nil]
    rfl

lemma all_isPrintable_escapeChar (c : Char) : (escapeChar c).all isPrintable = true := by
  by_cases hnamed : c ∈ namedChars
  · simp only [namedChars, List.mem_cons, List.not_mem_nil, or_false] at hnamed
    rcases hnamed with rfl | rfl | rfl | rfl | rfl <;> decide
  · have hslash : isPrintable '\\' = true := by decide
    have hshort : isPrintable 'u' = true := by decide
    have hlong : isPrintable 'U' = true := by decide
    have hoctal : (digits 8 3 c.toNat).all isPrintable = true :=
      all_isPrintable_digits (by decide) (by decide) 3 c.toNat
    have hhex : ∀ width, (digits 16 width c.toNat).all isPrintable = true := fun width =>
      all_isPrintable_digits (by decide) (by decide) width c.toNat
    rw [escapeChar_of_not_mem hnamed]
    split
    · simp only [List.all_cons, hslash, hoctal, Bool.and_self]
    · split
      · have hprintable : isPrintable c = true := by
          simp only [isPrintable, Bool.and_eq_true, decide_eq_true_eq]
          omega
        simp only [List.all_cons, List.all_nil, hprintable, Bool.and_self]
      · split <;> simp only [List.all_cons, hslash, hshort, hlong, hhex, Bool.and_self]

lemma all_isPrintable_cpp (text : String) :
    (Escaper.cpp.body text).toList.all isPrintable = true := by
  rw [Escaper.cpp, String.toList_ofList, escapeChars, List.all_flatMap]
  simp only [all_isPrintable_escapeChar, List.all_eq_true, implies_true]

/-- **The body for generated code is printable ASCII throughout and means the text that it was made
from, whether that may be written inline or not.**  So different texts have different bodies. -/
theorem Escaper.cpp_body_means_text :
    (∀ text, (Escaper.cpp.body text).toList.all isPrintable = true ∧
      textOfBody? (Escaper.cpp.body text) = some text) ∧
    Function.Injective Escaper.cpp.body := by
  refine ⟨fun text => ⟨all_isPrintable_cpp text, textOfBody?_cpp text⟩, fun text other heq => ?_⟩
  apply Option.some.inj
  rw [← textOfBody?_cpp text, heq, textOfBody?_cpp other]

example : textOfBody? "say \\\"hi\\\"\\012\\u00e9" = some "say \"hi\"\né" := by decide
example : textOfBody? "say \"hi\"" = none := by decide
example : textOfBody? "cut \\u00E" = none := by decide

end DeclTree.Literal
