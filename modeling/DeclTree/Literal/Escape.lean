/-!
# Escaping of literals

A text becomes the body of a double-quoted literal of generated C++ code, character by
character.  Printable ASCII stands for itself, except that a backslash and a double quote are
escaped; line feed, carriage return and tab have escapes of their own; the other ASCII control
characters are written as three octal digits and all other characters as universal character
names of four or eight hexadecimal digits.

Not every text may be written inline: control characters other than the three with escapes of
their own are refused.
-/

namespace DeclTree.Literal

/-- Whether a character is a control character: those of ASCII and the block after ASCII. -/
def isControl (c : Char) : Bool :=
  c.toNat ≤ 0x1F || (0x7F ≤ c.toNat && c.toNat ≤ 0x9F)

/-- Whether a character may stand in an inline literal. -/
def isInline (c : Char) : Bool :=
  !isControl c || c == '\n' || c == '\r' || c == '\t'

/-- The digit with a given value below 16; letters are upper case. -/
def digit (value : Nat) : Char :=
  if value < 10 then Char.ofNat (48 + value) else Char.ofNat (55 + value)

/-- The last `width` digits of a number in a given base, the most significant first. -/
def digits (base : Nat) : (width : Nat) → Nat → List Char
  | 0, _ => []
  | width + 1, n => digits base width (n / base) ++ [digit (n % base)]

/-- How a character is written in the body of a literal. -/
def escapeChar (c : Char) : List Char :=
  if c = '\\' then ['\\', '\\']
  else if c = '"' then ['\\', '"']
  else if c = '\n' then ['\\', 'n']
  else if c = '\r' then ['\\', 'r']
  else if c = '\t' then ['\\', 't']
  else if c.toNat < 0x20 ∨ c.toNat = 0x7F then '\\' :: digits 8 3 c.toNat
  else if c.toNat < 0x80 then [c]
  else if c.toNat ≤ 0xFFFF then '\\' :: 'u' :: digits 16 4 c.toNat
  else '\\' :: 'U' :: digits 16 8 c.toNat

/-- How characters are written in the body of a literal. -/
def escapeChars (chars : List Char) : List Char := chars.flatMap escapeChar

/-- Decides which texts may be written inline and how they are written. -/
structure Escaper where
  /-- Whether every character of a text may be written inline. -/
  accepts : String → Bool
  /-- The body of the literal for a text. -/
  body : String → String

/-- The escaper for generated C++ code. -/
def Escaper.cpp : Escaper where
  accepts text := text.toList.all isInline
  body text := String.ofList (escapeChars text.toList)

end DeclTree.Literal
