import DeclTree.Store.Alloc
import DeclTree.Store.Update
import DeclTree.Store.Validate
import DeclTree.Text.LineIndex
import DeclTree.CompilationUnit.Imports

/-!
# Compilation units

A compilation unit holds the tree of one source file, the source text with its line index, the
flags that passes raise and, once resolved, the imports that generated code cannot reference.
Node 0 of its tree is the root, which carries the package declaration, the comments, the native
code blocks and the top-level types.

Path, main type name and source never change once the unit is created; flags are raised and
never lowered.
-/

namespace DeclTree

/-- Why a compilation unit cannot be created. -/
inductive UnitError
  /-- The unit names no main type. -/
  | emptyMainTypeName (path : String)
  /-- The source is longer than offsets can tell. -/
  | sourceTooLarge (path : String) (length : Nat)
deriving DecidableEq

/-- What the user reads. -/
def UnitError.message : UnitError → String
  | emptyMainTypeName path => s!"compilation unit `{path}` has an empty main type name"
  | sourceTooLarge path length =>
    s!"source of `{path}` is {length} bytes, more than offsets can address"

/-- What passes find out about a unit as a whole. -/
inductive Flag
  /-- Some protocol is incomplete. -/
  | incompleteProtocol
  /-- Some implementation is incomplete. -/
  | incompleteImplementation
  /-- The source has nullability annotations. -/
  | nullability
deriving DecidableEq

/-- Which flags are raised. -/
structure Flags where
  /-- Some protocol is incomplete. -/
  incompleteProtocol : Bool
  /-- Some implementation is incomplete. -/
  incompleteImplementation : Bool
  /-- The source has nullability annotations. -/
  nullability : Bool
deriving DecidableEq

namespace Flags

/-- No flag is raised. -/
def none : Flags := ⟨false, false, false⟩

/-- Whether a flag is raised. -/
def has (flags : Flags) : Flag → Bool
  | .incompleteProtocol => flags.incompleteProtocol
  | .incompleteImplementation => flags.incompleteImplementation
  | .nullability => flags.nullability

/-- Raises a flag. -/
def raise (flags : Flags) : Flag → Flags
  | .incompleteProtocol => { flags with incompleteProtocol := true }
  | .incompleteImplementation => { flags with incompleteImplementation := true }
  | .nullability => { flags with nullability := true }

/-- Raising a flag raises it and no other. -/
theorem has_raise (flags : Flags) (raised asked : Flag) :
    (flags.raise raised).has asked = (decide (raised = asked) || flags.has asked) := by
  cases raised <;> cases asked <;> simp [raise, has]

end Flags

/-- One source file with its tree. -/
structure CompilationUnit where
  /-- The path of the source file. -/
  path : String
  /-- The name of the main type. -/
  mainTypeName : String
  /-- The source text. -/
  source : String
  /-- The line index of the source. -/
  lines : Text.LineIndex
  /-- The nodes of the tree. -/
  tree : Store
  /-- The flags raised so far. -/
  flags : Flags
  /-- The imports that generated code cannot reference, once resolved. -/
  imports : Option ImportTable

namespace CompilationUnit

/-- The root of the tree of every unit. -/
def root : NodeId := ⟨0⟩

/-- The tree of a new unit: its root, without children. -/
def emptyTree : Store := (Store.empty.alloc (.compilationUnit .empty) .dummy).2

/-- A unit for a source file. -/
def create (path mainTypeName source : String) : Except UnitError CompilationUnit :=
  if mainTypeName.isEmpty then .error (.emptyMainTypeName path)
  else if (Text.Offset.ofNat? source.utf8ByteSize).isNone then
    .error (.sourceTooLarge path source.utf8ByteSize)
  else
    .ok {
      path, mainTypeName, source
      lines := .build source
      tree := emptyTree
      flags := .none
      imports := none }

/-- A unit without a source file. -/
def synthetic (mainTypeName : String) : Except UnitError CompilationUnit :=
  create "" mainTypeName ""

/-- The children in one slot of the root. -/
def rootSlot (u : CompilationUnit) (slot : Slot) : List NodeId := u.tree.childrenIn root slot

/-- The package declaration. -/
def package? (u : CompilationUnit) : Option NodeId := (u.rootSlot .package).head?

/-- The comments. -/
def comments (u : CompilationUnit) : List NodeId := u.rootSlot .comments

/-- The native code blocks. -/
def nativeBlocks (u : CompilationUnit) : List NodeId := u.rootSlot .nativeBlocks

/-- The top-level type declarations. -/
def types (u : CompilationUnit) : List NodeId := u.rootSlot .types

/-- The unit with another tree. -/
def withTree (u : CompilationUnit) (tree : Store) : CompilationUnit := { u with tree := tree }

/-- The unit with a flag raised. -/
def raise (u : CompilationUnit) (flag : Flag) : CompilationUnit :=
  { u with flags := u.flags.raise flag }

/-- The line that holds the byte at an offset. -/
def lineNumber (u : CompilationUnit) (offset : UInt32) : Option UInt32 :=
  u.lines.lineNumber offset

/-- The line on which a span starts. -/
def lineNumberFor (u : CompilationUnit) (span : Span) : Option UInt32 :=
  u.lines.lineNumberFor span

/-- The line on which a node starts. -/
def lineNumberOf (u : CompilationUnit) (id : NodeId) : Option UInt32 :=
  (u.tree.span? id).bind u.lines.lineNumberFor

/-- The source text under a node. -/
def textOf (u : CompilationUnit) (id : NodeId) : Option String :=
  (u.tree.span? id).bind fun span => Text.slice u.source span.start.toNat span.stop.toNat

/-- Records which imports generated code cannot reference, in place of any earlier record. -/
def resolveImports (u : CompilationUnit) (imports : List String) (canImport : String → Bool) :
    CompilationUnit :=
  { u with imports := some (unreachableImports imports canImport) }

/-- Checks the unit: it names a main type, has a package declaration and a sound tree. -/
def validate (u : CompilationUnit) : Except ValidationError Unit :=
  if u.mainTypeName.isEmpty then .error .emptyMainTypeName
  else if u.package?.isNone then .error (.missingPackage u.path)
  else u.tree.validateSubtree root

end CompilationUnit

end DeclTree
