import DeclTree.Store.Attachment
import DeclTree.Store.Update

/-!
# Edits in place

An edit may also be carried out on the store itself, look by look and write by write, in the order
in which a program with one mutable store proceeds.  A step that fails ends the edit there, and what
had been written by then stays written: nothing here takes a write back, unless a later step does.

The edits below are those of `DeclTree.Store.Attachment` and `DeclTree.Store.Update`, in this form.
-/

namespace DeclTree

/-- Steps that read and write one store and may fail; the store survives the failure. -/
abbrev InPlace := ExceptT TreeError (StateM Store)

namespace InPlace

variable {α : Type}

/-- Carries out the steps on a store. -/
def on (steps : InPlace α) (σ : Store) : Reply α := steps.run.run σ

/-- Looks something up. -/
def look (f : Store → Except TreeError α) : InPlace α := ExceptT.mk fun σ => (f σ, σ)

/-- Writes. -/
def write (f : Store → Store) : InPlace Unit := ExceptT.mk fun σ => (.ok (), f σ)

/-- Writes the parent link of a node; nothing happens if there is no such node. -/
def writeParent (child : NodeId) (link : Option ParentLink) : InPlace Unit :=
  write (·.setParent child link)

/-- Fills or clears a slot for at most one child.  The occupant is looked up twice, before the check
and when it is replaced. -/
def setChild (owner : NodeId) (slot : Slot) (child : Option NodeId) :
    InPlace (Option NodeId) := do
  let current ← look (·.occupantOf owner slot)
  if child.isSome ∧ child = current then
    return current
  if let some new := child then
    look (·.checkAttach owner slot new)
  let previous ← look (·.occupantOf owner slot)
  write (·.setSlot owner slot (.link child))
  if let some released := previous then
    writeParent released none
  if let some new := child then
    writeParent new (some ⟨owner, slot⟩)
  return previous

/-- The length of a sequence. -/
def lengthOf (owner : NodeId) (slot : Slot) : InPlace Nat := do
  let children ← look (·.sequenceIn owner slot)
  return children.length

/-- Inserts a child into a sequence at a position. -/
def insertChild (owner : NodeId) (slot : Slot) (index : Nat) (child : NodeId) : InPlace Unit := do
  let length ← lengthOf owner slot
  if index > length then
    throw (.indexOutOfRange slot index length)
  look (·.checkAttach owner slot child)
  if let .list children ← look (·.slotContent owner slot) then
    write (·.setSlot owner slot (.list (children.insertIdx index child)))
  writeParent child (some ⟨owner, slot⟩)

/-- Appends a child to a sequence. -/
def pushChild (owner : NodeId) (slot : Slot) (child : NodeId) : InPlace Unit := do
  let length ← lengthOf owner slot
  insertChild owner slot length child

/-- Removes the child at a position of a sequence. -/
def removeChild (owner : NodeId) (slot : Slot) (index : Nat) : InPlace NodeId := do
  let children ← look (·.sequenceIn owner slot)
  match children[index]? with
  | none => throw (.indexOutOfRange slot index children.length)
  | some removed =>
    write (·.setSlot owner slot (.list (children.eraseIdx index)))
    writeParent removed none
    return removed

/-- Takes a node out of the slot that holds it. -/
def detach (id : NodeId) : InPlace (Option ParentLink) := do
  let n ← look (·.node id)
  match n.parent with
  | none => return none
  | some link =>
    match ← look (·.slotContent link.owner link.slot) with
    | .link _ => write (·.setSlot link.owner link.slot (.link none))
    | .list children =>
      write (·.setSlot link.owner link.slot (.list (children.filter (· ≠ id))))
    writeParent id none
    return some link

/-- Puts a node in the place of another. -/
def replace (old new : NodeId) : InPlace Unit := do
  let n ← look (·.node old)
  match n.parent with
  | none => throw (.notAttached old)
  | some link =>
    if old = new then
      return
    look (·.checkAttach link.owner link.slot new)
    match ← look (·.slotContent link.owner link.slot) with
    | .link _ => write (·.setSlot link.owner link.slot (.link (some new)))
    | .list children =>
      write (·.setSlot link.owner link.slot
        (.list (children.map fun c => if c = old then new else c)))
    writeParent old none
    writeParent new (some link)

/-- Lets `f` write over the payload of a node.  If the kind is another one afterwards, the original
payload is written back; otherwise its slots are. -/
def update (id : NodeId) (f : Payload → α × Payload) : InPlace α := do
  let original ← look (·.node id)
  let (answer, written) := f original.payload
  write (·.setPayload id written)
  let edited ← look (·.node id)
  if original.payload.kind ≠ edited.payload.kind then
    write (·.setPayload id original.payload)
    throw (.kindChanged id original.payload.kind edited.payload.kind)
  write (·.setPayload id (edited.payload.withSlotsOf original.payload))
  return answer

end InPlace

end DeclTree
