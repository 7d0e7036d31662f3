import DeclTree.Payload

/-!
# Open slots

A payload that is edited where it stands has one of its slots opened: the slot shows what it holds,
and what is put into it ends up in the payload.  A slot keeps its shape, so a link takes at most one
child and a sequence takes a sequence.

`Payload.setSlot` writes a slot without showing what was there before.
-/

namespace DeclTree

/-- A slot that is open for writing: what it holds, and the payload once something else is there. -/
inductive OpenSlot
  /-- At most one child. -/
  | link (child : Option NodeId) (written : Option NodeId → Payload)
  /-- A sequence of children. -/
  | list (children : List NodeId) (written : List NodeId → Payload)

namespace OpenSlot

/-- What the slot holds. -/
def content : OpenSlot → SlotContent
  | link child _ => .link child
  | list children _ => .list children

/-- The payload once a content is put into the slot, if the content is of its shape. -/
def put : OpenSlot → SlotContent → Option Payload
  | link _ written, .link child => some (written child)
  | list _ written, .list children => some (written children)
  | _, _ => none

end OpenSlot

/-- Opens one slot for writing, if nodes of this kind have it. -/
def Payload.openSlot? : Payload → Slot → Option OpenSlot
  | compilationUnit u, .package =>
    some (.link u.package fun child => compilationUnit { u with package := child })
  | compilationUnit u, .comments =>
    some (.list u.comments fun cs => compilationUnit { u with comments := cs })
  | compilationUnit u, .nativeBlocks =>
    some (.list u.nativeBlocks fun cs => compilationUnit { u with nativeBlocks := cs })
  | compilationUnit u, .types =>
    some (.list u.types fun cs => compilationUnit { u with types := cs })
  | type d, .members => some (.list d.members fun cs => type { d with members := cs })
  | _, _ => none

end DeclTree
