import DeclTree.Store.Error

/-!
# Looking up nodes and slots

The lookups on which edits are planned.  Where a view answers with nothing, a lookup says what
is missing: the node, the slot, or a slot of the shape that is needed.
-/

namespace DeclTree.Store

/-- The node with the given identifier, or the complaint that there is none. -/
def node (σ : Store) (id : NodeId) : Except TreeError Node :=
  match σ.node? id with
  | some n => .ok n
  | none => .error (.unknownNode id)

/-- The content of one slot of a node. -/
def slotContent (σ : Store) (owner : NodeId) (slot : Slot) : Except TreeError SlotContent := do
  let n ← σ.node owner
  match n.payload.slot? slot with
  | some content => .ok content
  | none => .error (.noSuchSlot owner n.kind slot)

/-- The children in one slot of a node. -/
def slotChildren (σ : Store) (owner : NodeId) (slot : Slot) : Except TreeError (List NodeId) := do
  let content ← σ.slotContent owner slot
  return content.toList

/-- The children in a slot that holds a sequence. -/
def sequenceIn (σ : Store) (owner : NodeId) (slot : Slot) : Except TreeError (List NodeId) := do
  match ← σ.slotContent owner slot with
  | .list children => .ok children
  | .link _ => .error (.notAList slot)

/-- The occupant of a slot that holds at most one child. -/
def occupantOf (σ : Store) (owner : NodeId) (slot : Slot) :
    Except TreeError (Option NodeId) := do
  match ← σ.slotContent owner slot with
  | .link child => .ok child
  | .list _ => .error (.notAList slot)

end DeclTree.Store
