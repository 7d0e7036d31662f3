import DeclTree.Kind
import DeclTree.SlotContent
import DeclTree.TypeIdentity

/-!
# Payloads

The payload of a node is what its kind lets it carry: scalar fields, such as a name, and the
contents of its slots.  Children are referred to by identifier and live in the store beside
their parent.

Everything that walks over payloads goes through a few functions defined here: `slot?` and
`setSlot` read and write one slot, `slotChildren` lists all children in traversal order,
`mapChildrenM` replaces them one by one, and `sameScalars` compares everything else.
-/

namespace DeclTree

/-- The slots of a compilation unit. -/
structure UnitSlots where
  /-- The package declaration. -/
  package : Option NodeId
  /-- The comments. -/
  comments : List NodeId
  /-- The native code blocks. -/
  nativeBlocks : List NodeId
  /-- The top-level type declarations. -/
  types : List NodeId
deriving DecidableEq

/-- The slots of a compilation unit without children. -/
def UnitSlots.empty : UnitSlots := ⟨none, [], [], []⟩

/-- A package declaration. -/
structure PackageDecl where
  /-- The dotted name; empty for the default package. -/
  name : String
deriving DecidableEq

/-- Whether this is the default package. -/
def PackageDecl.isDefault (d : PackageDecl) : Bool := d.name.isEmpty

/-- The three ways to write a comment.  Its text is the source text under the node's span. -/
inductive CommentStyle
  | line
  | block
  | doc
deriving DecidableEq

/-- Code that is carried verbatim to the output. -/
structure NativeCode where
  /-- The part for the header. -/
  header : Option String
  /-- The part for the implementation. -/
  implementation : Option String
deriving DecidableEq

/-- The forms of type declarations. -/
inductive TypeForm
  | classForm
  | interfaceForm
  | enumForm
  | annotationForm
  | recordForm
deriving DecidableEq

/-- A type declaration. -/
structure TypeDecl where
  /-- The form of the declaration. -/
  form : TypeForm
  /-- The simple name as declared. -/
  name : String
  /-- The identity of the declared type. -/
  identity : TypeIdentity
  /-- The methods, fields and nested types. -/
  members : List NodeId
deriving DecidableEq

/-- A method or constructor. -/
structure MethodDecl where
  /-- The name of the method. -/
  name : String
  /-- The annotations by name, as written. -/
  annotations : List String
  /-- Whether this is a constructor. -/
  isConstructor : Bool
deriving DecidableEq

/-- Whether an annotation with the given simple name is present: leading `@` signs and a
qualifier are not part of the simple name. -/
def MethodDecl.isAnnotated (m : MethodDecl) (simpleName : String) : Bool :=
  m.annotations.any fun written =>
    Text.lastSegmentChars (written.toList.dropWhile (· == '@')) == simpleName.toList

/-- A field declaration. -/
structure FieldDecl where
  /-- The name of the field. -/
  name : String
  /-- The name of its type, as written. -/
  typeName : String
deriving DecidableEq

/-- What a node carries, one form for each kind. -/
inductive Payload
  | compilationUnit (slots : UnitSlots)
  | package (decl : PackageDecl)
  | comment (style : CommentStyle)
  | native (code : NativeCode)
  | type (decl : TypeDecl)
  | method (decl : MethodDecl)
  | field (decl : FieldDecl)
deriving DecidableEq

/-- The fields that validation wants filled. -/
inductive RequiredField
  | name
  | identity
deriving DecidableEq

/-- How messages call a required field. -/
def RequiredField.text : RequiredField → String
  | name => "name"
  | identity => "identity"

namespace Payload

/-- The kind of node that carries this payload. -/
def kind : Payload → Kind
  | compilationUnit _ => .compilationUnit
  | package _ => .package
  | comment _ => .comment
  | native _ => .native
  | type _ => .type
  | method _ => .method
  | field _ => .field

/-- The content of one slot, if nodes of this kind have it. -/
def slot? : Payload → Slot → Option SlotContent
  | compilationUnit u, .package => some (.link u.package)
  | compilationUnit u, .comments => some (.list u.comments)
  | compilationUnit u, .nativeBlocks => some (.list u.nativeBlocks)
  | compilationUnit u, .types => some (.list u.types)
  | type d, .members => some (.list d.members)
  | _, _ => none

/-- The payload with the content of one slot replaced.  A slot that is not there, or that has
another shape, is left alone. -/
def setSlot : Payload → Slot → SlotContent → Payload
  | compilationUnit u, .package, .link child => compilationUnit { u with package := child }
  | compilationUnit u, .comments, .list cs => compilationUnit { u with comments := cs }
  | compilationUnit u, .nativeBlocks, .list cs => compilationUnit { u with nativeBlocks := cs }
  | compilationUnit u, .types, .list cs => compilationUnit { u with types := cs }
  | type d, .members, .list cs => type { d with members := cs }
  | p, _, _ => p

/-- The children in one slot; none if the slot is not there. -/
def childrenIn (p : Payload) (slot : Slot) : List NodeId :=
  match p.slot? slot with
  | some content => content.toList
  | none => []

/-- All children in traversal order, each with the slot that holds it. -/
def slotChildren (p : Payload) : List (Slot × NodeId) :=
  p.kind.slots.flatMap fun slot => (p.childrenIn slot).map fun child => (slot, child)

/-- All children in traversal order. -/
def children (p : Payload) : List NodeId :=
  p.slotChildren.map Prod.snd

/-- Replaces every child, in traversal order, by what `f` answers for it. -/
def mapChildrenM {m : Type → Type} [Monad m] (f : NodeId → m NodeId) : Payload → m Payload
  | compilationUnit u => do
    let package ← u.package.mapM f
    let comments ← u.comments.mapM f
    let nativeBlocks ← u.nativeBlocks.mapM f
    let types ← u.types.mapM f
    return compilationUnit ⟨package, comments, nativeBlocks, types⟩
  | type d => do
    let members ← d.members.mapM f
    return type { d with members := members }
  | p => pure p

/-- Whether two payloads are of one kind and agree in everything but their children. -/
def sameScalars : Payload → Payload → Bool
  | compilationUnit _, compilationUnit _ => true
  | package a, package b => a == b
  | comment a, comment b => a == b
  | native a, native b => a == b
  | type a, type b => a.form == b.form && a.name == b.name && a.identity == b.identity
  | method a, method b => a == b
  | field a, field b => a == b
  | _, _ => false

/-- The first required field that is empty. -/
def missingField? : Payload → Option RequiredField
  | type d =>
    if d.name.isEmpty then some .name
    else if d.identity.qualified.isEmpty then some .identity
    else none
  | method d => if d.name.isEmpty then some .name else none
  | field d => if d.name.isEmpty then some .name else none
  | _ => none

/-- The payload with every slot emptied. -/
def withoutChildren : Payload → Payload
  | compilationUnit _ => compilationUnit .empty
  | type d => type { d with members := [] }
  | p => p

/-- The scalar fields of `p` with the slots of `before`, a payload of the same kind. -/
def withSlotsOf (p before : Payload) : Payload :=
  match p, before with
  | compilationUnit _, compilationUnit u => compilationUnit u
  | type d, type b => type { d with members := b.members }
  | _, _ => p

/-- The type declaration that the payload is, if it is one. -/
def type? : Payload → Option TypeDecl
  | type d => some d
  | _ => none

/-- The method declaration that the payload is, if it is one. -/
def method? : Payload → Option MethodDecl
  | method d => some d
  | _ => none

/-- The package declaration that the payload is, if it is one. -/
def package? : Payload → Option PackageDecl
  | package d => some d
  | _ => none

end Payload

end DeclTree
