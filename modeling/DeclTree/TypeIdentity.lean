import DeclTree.Text.Dotted

/-!
# Identities of declared types

A type is identified by its qualified name.  The identity does not depend on the unit that
declares the type or on copies of that unit, so tables shared by all units are keyed on it.
-/

namespace DeclTree

/-- The identity of a declared type. -/
structure TypeIdentity where
  /-- The qualified name, segments separated by full stops. -/
  qualified : String
deriving DecidableEq, Hashable

namespace TypeIdentity

/-- The name of the type without its qualifier. -/
def simpleName (t : TypeIdentity) : String :=
  Text.lastSegment t.qualified

/-- Identities are ordered by the code points of their qualified names. -/
def le (a b : TypeIdentity) : Bool :=
  decide (a.qualified ≤ b.qualified)

/-- A list of identities in ascending order, equal ones kept. -/
def sort (ts : List TypeIdentity) : List TypeIdentity :=
  ts.mergeSort le

/-- The written form that names the sort of value. -/
def text (t : TypeIdentity) : String :=
  "TypeIdentity(" ++ t.qualified ++ ")"

instance : ToString TypeIdentity := ⟨qualified⟩

end TypeIdentity

end DeclTree
