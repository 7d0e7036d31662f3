import DeclTree.Store.Alloc
import DeclTree.Store.Attachment

/-!
# Deep copies

A subtree is copied child by child, each child before its owner, so the copies get consecutive
identifiers in post-order.  A copy that meets an unknown node, or for which the identifiers do not
last, fails there and leaves the copies made so far, unattached.

Copying follows child identifiers and never ends on a store whose slots run in a circle.  So
each function takes a bound on the depth and answers `none` when the bound is exceeded; the
bounds chosen by `copySubtree` and `importSubtree` are exceeded by endless descents only.
-/

namespace DeclTree

/-- A computation that grows a store.  It may fail, and it may exceed its bound (`none`). -/
abbrev Growth := ExceptT TreeError (StateT Store Option)

/-- The store whose nodes are copied. -/
inductive CopySource
  /-- The growing store itself. -/
  | within
  /-- Another store, or an earlier state of the growing one. -/
  | across (source : Store)

/-- The store to read from while `σ` grows. -/
def CopySource.store : CopySource → Store → Store
  | within, σ => σ
  | across source, _ => source

namespace Growth

/-- Creates the owner of freshly copied children. -/
def adopt (payload : Payload) (span : Span) : Growth NodeId :=
  fun σ => some (σ.adopt payload span)

/-- The node to copy. -/
def source (src : CopySource) (id : NodeId) : Growth Node :=
  fun σ => some ((src.store σ).node id, σ)

/-- Exceeds the bound. -/
def exhausted {α : Type} : Growth α := fun _ => none

end Growth

/-- Copies the subtree of a node, following children at most `depth` levels down. -/
def copyNode (src : CopySource) : Nat → NodeId → Growth NodeId
  | 0, _ => Growth.exhausted
  | depth + 1, id => do
    let n ← Growth.source src id
    let copied ← n.payload.mapChildrenM (copyNode src depth)
    Growth.adopt copied n.span

namespace Store

/-- The number of child identifiers stored in slots. -/
def edgeCount (σ : Store) : Nat :=
  σ.nodes.toList.foldr (fun n total => n.payload.children.length + total) 0

/-- How deep a copy within a store can go.  Between two child identifiers that were unknown when
the copy began, it meets each node at most once; and it meets each such identifier at most once,
for it then stands for one copy. -/
def copyDepth (σ : Store) : Nat := (σ.edgeCount + 1) * (σ.size + 1)

/-- Deep copy of a subtree within the store.  The copy is not attached. -/
def copySubtree (σ : Store) (id : NodeId) : Option (Reply NodeId) :=
  copyNode .within σ.copyDepth id σ

/-- Deep copy of a subtree of another store into this one.  The copy is not attached. -/
def importSubtree (σ source : Store) (id : NodeId) : Option (Reply NodeId) :=
  copyNode (.across source) (source.size + 1) id σ

/-- Copies nodes of another store one after the other and appends each copy to a sequence;
stops at the first that is refused. -/
def appendCopies (σ : Store) (owner : NodeId) (slot : Slot) (source : Store) :
    List NodeId → Option (Reply Unit)
  | [] => some (.ok (), σ)
  | id :: rest => do
    match ← σ.importSubtree source id with
    | (.error e, grown) => some (.error e, grown)
    | (.ok copy, grown) =>
      match grown.pushChild owner slot copy with
      | (.error e, after) => some (.error e, after)
      | (.ok (), after) => after.appendCopies owner slot source rest

/-- The first of the identifiers that no node of the store has. -/
def firstUnknown? (σ : Store) (ids : List NodeId) : Option NodeId :=
  ids.find? fun id => !decide (σ.Allocated id)

/-- Deep copies of nodes of another store into a slot.  All nodes have to be known there; a
sequence gets the copies appended, a slot for at most one child takes at most one. -/
def copyFrom (σ : Store) (owner : NodeId) (slot : Slot) (source : Store)
    (sources : List NodeId) : Option (Reply Unit) :=
  match source.firstUnknown? sources with
  | some id => some (.error (.unknownNode id), σ)
  | none =>
    if slot.isList then σ.appendCopies owner slot source sources
    else
      match sources with
      | [] =>
        let (answer, after) := σ.setChild owner slot none
        some (answer.map fun _ => (), after)
      | [id] => do
        match ← σ.importSubtree source id with
        | (.error e, grown) => some (.error e, grown)
        | (.ok copy, grown) =>
          let (answer, after) := grown.setChild owner slot (some copy)
          some (answer.map fun _ => (), after)
      | _ => some (.error (.tooManyForLink slot sources.length), σ)

end Store

end DeclTree
