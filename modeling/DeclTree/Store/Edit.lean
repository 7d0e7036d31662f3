import DeclTree.Store.Copy
import DeclTree.Store.Update

/-!
# Edits as data

`Edit` lists all that a client may do to a store.  A run of a client on a store is a list of
edits, whatever the client decided them on, so what holds of every run can be stated and shown
by going through the edits once.
-/

namespace DeclTree

/-- The edits that a client may make. -/
inductive Edit
  | alloc (payload : Payload) (span : Span)
  | update (id : NodeId) (f : Payload → Payload)
  | setChild (owner : NodeId) (slot : Slot) (child : Option NodeId)
  | pushChild (owner : NodeId) (slot : Slot) (child : NodeId)
  | insertChild (owner : NodeId) (slot : Slot) (index : Nat) (child : NodeId)
  | removeChild (owner : NodeId) (slot : Slot) (index : Nat)
  | detach (id : NodeId)
  | replace (old new : NodeId)
  | copySubtree (id : NodeId)
  | importSubtree (source : Store) (id : NodeId)
  | copyFrom (owner : NodeId) (slot : Slot) (source : Store) (sources : List NodeId)

/-- What an edit answers when it is carried out. -/
inductive Answer
  /-- Nothing to report. -/
  | done
  /-- A node: the new one, or the one removed. -/
  | node (id : NodeId)
  /-- The previous occupant of a slot. -/
  | occupant (previous : Option NodeId)
  /-- Where the node was attached. -/
  | link (previous : Option ParentLink)
deriving DecidableEq

/-- Carries out an edit.  No reply means that a copy descends without end. -/
def Edit.apply : Edit → Store → Option (Reply Answer)
  | alloc payload span, σ => some (Reply.map .node (σ.alloc payload span))
  | update id f, σ => some (Reply.map (fun () => .done) (σ.update id fun p => ((), f p)))
  | setChild owner slot child, σ => some (Reply.map .occupant (σ.setChild owner slot child))
  | pushChild owner slot child, σ =>
    some (Reply.map (fun () => .done) (σ.pushChild owner slot child))
  | insertChild owner slot index child, σ =>
    some (Reply.map (fun () => .done) (σ.insertChild owner slot index child))
  | removeChild owner slot index, σ => some (Reply.map .node (σ.removeChild owner slot index))
  | detach id, σ => some (Reply.map .link (σ.detach id))
  | replace old new, σ => some (Reply.map (fun () => .done) (σ.replace old new))
  | copySubtree id, σ => (σ.copySubtree id).map (Reply.map .node)
  | importSubtree source id, σ => (σ.importSubtree source id).map (Reply.map .node)
  | copyFrom owner slot source sources, σ =>
    (σ.copyFrom owner slot source sources).map (Reply.map fun () => .done)

/-- The stores that an edit reads beside the one that it changes. -/
def Edit.readsFrom : Edit → List Store
  | importSubtree source _ => [source]
  | copyFrom _ _ source _ => [source]
  | _ => []

end DeclTree
