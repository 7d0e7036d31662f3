import DeclTree.Literal.Escape
import DeclTree.Literal.Pool

/-!
# String constants

A string constant in generated code names the number of its literal and, where the text may be
written inline, the text itself.  Otherwise a placeholder stands for the text, to be filled in
from the pool.
-/

namespace DeclTree.Literal

/-- The text of a string constant. -/
inductive LiteralText
  /-- The body of a literal, to be put between double quotes. -/
  | escaped (body : String)
  /-- The text cannot be written inline. -/
  | placeholder
deriving DecidableEq

/-- A string constant of generated code. -/
structure Constant where
  /-- The number of the literal. -/
  id : LiteralId
  /-- Its text. -/
  text : LiteralText
deriving DecidableEq

/-- How a string constant is written. -/
def Constant.display (c : Constant) : String :=
  match c.text with
  | .escaped body => "JreString(" ++ c.id.display ++ ", \"" ++ body ++ "\")"
  | .placeholder => "JreString(" ++ c.id.display ++ ", __)"

/-- The text of the constant for `text`. -/
def Escaper.render (escaper : Escaper) (text : String) : LiteralText :=
  if escaper.accepts text then .escaped (escaper.body text) else .placeholder

/-- Interns a text for a file and answers with its constant. -/
def LiteralPool.constant (pool : LiteralPool) (escaper : Escaper) (file text : String) :
    Constant × LiteralPool :=
  let (id, after) := pool.intern file text
  (⟨id, escaper.render text⟩, after)

end DeclTree.Literal
