/-!
# Node kinds and slot names

Both sets are closed.  The kind of a node fixes which slots it has and in which order they
are traversed; the name of a slot fixes which kinds it admits and whether it holds a sequence
or at most one child.
-/

namespace DeclTree

/-- The kinds of nodes. -/
inductive Kind
  | compilationUnit
  | package
  | comment
  | native
  | type
  | method
  | field
deriving DecidableEq

/-- The names of the slots that hold the children of a node. -/
inductive Slot
  /-- The package declaration of a compilation unit: at most one child. -/
  | package
  /-- The comments of a compilation unit. -/
  | comments
  /-- The native code blocks of a compilation unit. -/
  | nativeBlocks
  /-- The top-level type declarations of a compilation unit. -/
  | types
  /-- The methods, fields and nested types of a type declaration. -/
  | members
deriving DecidableEq

namespace Kind

/-- Every kind, in declaration order. -/
def all : List Kind :=
  [compilationUnit, package, comment, native, type, method, field]

/-- How messages call a kind. -/
def name : Kind → String
  | compilationUnit => "compilation unit"
  | package => "package declaration"
  | comment => "comment"
  | native => "native declaration"
  | type => "type declaration"
  | method => "method declaration"
  | field => "field declaration"

instance : ToString Kind := ⟨name⟩

/-- The slots of a node of this kind, in traversal order. -/
def slots : Kind → List Slot
  | compilationUnit => [.package, .comments, .nativeBlocks, .types]
  | type => [.members]
  | _ => []

theorem mem_all (k : Kind) : k ∈ all := by
  cases k <;> decide

theorem slots_nodup (k : Kind) : k.slots.Nodup := by
  cases k <;> decide

end Kind

namespace Slot

/-- Every slot, in declaration order. -/
def all : List Slot :=
  [package, comments, nativeBlocks, types, members]

/-- How messages call a slot. -/
def name : Slot → String
  | package => "package"
  | comments => "comments"
  | nativeBlocks => "native_blocks"
  | types => "types"
  | members => "members"

instance : ToString Slot := ⟨name⟩

/-- How a written parent link shows a slot. -/
def label : Slot → String
  | package => "Package"
  | comments => "Comments"
  | nativeBlocks => "NativeBlocks"
  | types => "Types"
  | members => "Members"

/-- Whether the slot holds a sequence rather than at most one child. -/
def isList : Slot → Bool
  | package => false
  | _ => true

/-- Whether a node of the given kind may stand in the slot. -/
def admits : Slot → Kind → Bool
  | package, .package => true
  | comments, .comment => true
  | nativeBlocks, .native => true
  | types, .type => true
  | members, .method => true
  | members, .field => true
  | members, .type => true
  | _, _ => false

theorem mem_all (s : Slot) : s ∈ all := by
  cases s <;> decide

/-- No slot admits a compilation unit: such a node is always a root. -/
theorem not_admits_compilationUnit (s : Slot) : s.admits .compilationUnit = false := by
  cases s <;> rfl

end Slot

end DeclTree
