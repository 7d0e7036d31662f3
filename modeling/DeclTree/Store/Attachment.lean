import DeclTree.Store.Lookup

/-!
# Attaching and detaching nodes

The edits that put nodes into slots and take them out again.  Slot contents and parent links
are written together, so they never come to disagree:

* a node that is attached has to be detached before it is attached elsewhere;
* a slot takes only the kinds that it admits;
* a node is never placed under itself or under one of its descendants.
-/

namespace DeclTree.Store

/-- Checks that a node may be placed into a slot. -/
def checkAttach (σ : Store) (owner : NodeId) (slot : Slot) (child : NodeId) :
    Except TreeError Unit := do
  let ownerNode ← σ.node owner
  let childNode ← σ.node child
  if let some holder := childNode.parent then
    throw (.alreadyAttached child holder)
  if (ownerNode.payload.slot? slot).isNone then
    throw (.noSuchSlot owner ownerNode.kind slot)
  if !slot.admits childNode.kind then
    throw (.kindMismatch slot childNode.kind)
  if owner = child ∨ child ∈ σ.ancestors owner then
    throw (.cycle owner child)

/-- Puts a child into a slot for at most one, or clears it, and answers with the previous
occupant, which is detached.  Setting the present occupant again changes nothing. -/
def setChild (σ : Store) (owner : NodeId) (slot : Slot) (child : Option NodeId) :
    Reply (Option NodeId) :=
  σ.commit do
    let previous ← σ.occupantOf owner slot
    if child.isSome ∧ child = previous then
      return (previous, σ)
    if let some new := child then
      σ.checkAttach owner slot new
    let filled := σ.setSlot owner slot (.link child)
    let released := filled.setParents previous.toList none
    return (previous, released.setParents child.toList (some ⟨owner, slot⟩))

/-- Inserts a child into a sequence at a position; later children move up. -/
def insertChild (σ : Store) (owner : NodeId) (slot : Slot) (index : Nat) (child : NodeId) :
    Reply Unit :=
  σ.commit do
    let present ← σ.sequenceIn owner slot
    if index > present.length then
      throw (.indexOutOfRange slot index present.length)
    σ.checkAttach owner slot child
    let filled := σ.setSlot owner slot (.list (present.insertIdx index child))
    return ((), filled.setParent child (some ⟨owner, slot⟩))

/-- Appends a child to a sequence. -/
def pushChild (σ : Store) (owner : NodeId) (slot : Slot) (child : NodeId) : Reply Unit :=
  match σ.sequenceIn owner slot with
  | .ok present => σ.insertChild owner slot present.length child
  | .error e => (.error e, σ)

/-- Removes the child at a position of a sequence and answers with it. -/
def removeChild (σ : Store) (owner : NodeId) (slot : Slot) (index : Nat) : Reply NodeId :=
  σ.commit do
    let present ← σ.sequenceIn owner slot
    match present[index]? with
    | none => throw (.indexOutOfRange slot index present.length)
    | some removed =>
      let rest := σ.setSlot owner slot (.list (present.eraseIdx index))
      return (removed, rest.setParent removed none)

/-- Takes a node out of the slot that holds it and answers with where it was.  Nothing happens
to a node that is not attached. -/
def detach (σ : Store) (id : NodeId) : Reply (Option ParentLink) :=
  σ.commit do
    let n ← σ.node id
    match n.parent with
    | none => return (none, σ)
    | some link =>
      let remaining : SlotContent :=
        match ← σ.slotContent link.owner link.slot with
        | .link _ => .link none
        | .list children => .list (children.filter (· ≠ id))
      return (some link, (σ.setSlot link.owner link.slot remaining).setParent id none)

/-- Puts a node in the place of another, which is detached. -/
def replace (σ : Store) (old new : NodeId) : Reply Unit :=
  σ.commit do
    let n ← σ.node old
    match n.parent with
    | none => throw (.notAttached old)
    | some link =>
      if old = new then
        return ((), σ)
      σ.checkAttach link.owner link.slot new
      let content : SlotContent :=
        match ← σ.slotContent link.owner link.slot with
        | .link _ => .link (some new)
        | .list children => .list (children.map fun c => if c = old then new else c)
      let moved := (σ.setSlot link.owner link.slot content).setParent old none
      return ((), moved.setParent new (some link))

end DeclTree.Store
