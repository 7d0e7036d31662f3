import DeclTree.Store.Lookup

/-!
# Changing payloads

An update changes the scalar fields of a node and nothing else of the tree.
-/

namespace DeclTree.Store

/-- Changes the scalar fields of a node.  `f` sees the payload and writes a new one; the slots
of the node stay as they are whatever `f` wrote there, and a payload of another kind is
refused. -/
def update {α : Type} (σ : Store) (id : NodeId) (f : Payload → α × Payload) : Reply α :=
  σ.commit do
    let n ← σ.node id
    let (answer, written) := f n.payload
    if n.payload.kind ≠ written.kind then
      throw (.kindChanged id n.payload.kind written.kind)
    return (answer, σ.setPayload id (written.withSlotsOf n.payload))

/-- Writes a payload as it stands, slots and kind included, with no check and with no parent
link adjusted.  This is no edit: the store may come to disagree with itself. -/
def overwrite (σ : Store) (id : NodeId) (payload : Payload) : Reply Unit :=
  σ.commit do
    let _ ← σ.node id
    return ((), σ.setPayload id payload)

end DeclTree.Store
