import DeclTree.Store.Error

/-!
# Creating nodes

A node is put behind those that are there and gets the next identifier.  When all identifiers are
issued no more nodes are created: the request is refused and the store stays as it is.
-/

namespace DeclTree.Store

/-- Puts a node behind the others, if there is an identifier left for it. -/
def add (σ : Store) (n : Node) : Reply NodeId :=
  match h : NodeId.ofIndex? σ.size with
  | some id => (.ok id, σ.push n (NodeId.ofIndex?_eq_some_iff.1 h).1)
  | none => (.error .arenaFull, σ)

/-- Creates an unattached node.  The slots of the payload are emptied: children are attached
by edits of their own. -/
def alloc (σ : Store) (payload : Payload) (span : Span) : Reply NodeId :=
  σ.add ⟨payload.withoutChildren, span, none⟩

/-- The store with the parent links of the children of one owner set. -/
def setLinks (σ : Store) (owner : NodeId) (links : List (Slot × NodeId)) : Store :=
  links.foldl (fun τ (slot, child) => τ.setParent child (some ⟨owner, slot⟩)) σ

/-- Creates a node whose slots hold children already, and attaches these children to it. -/
def adopt (σ : Store) (payload : Payload) (span : Span) : Reply NodeId :=
  match σ.add ⟨payload, span, none⟩ with
  | (.ok id, grown) => (.ok id, grown.setLinks id payload.slotChildren)
  | (.error e, same) => (.error e, same)

variable {σ : Store}

/-! ## With an identifier left, and without -/

theorem add_of_room (n : Node) (room : σ.HasRoom 1) : σ.add n = (.ok σ.nextId, σ.push n room) := by
  have hnext : NodeId.ofIndex? σ.size = some σ.nextId := NodeId.ofIndex?_of_lt room
  unfold add
  split
  · next id h =>
    rw [hnext] at h
    obtain rfl := Option.some.inj h
    rfl
  · next h =>
    rw [hnext] at h
    cases h

theorem add_of_full (n : Node) (full : ¬ σ.HasRoom 1) : σ.add n = (.error .arenaFull, σ) := by
  have hnone : NodeId.ofIndex? σ.size = none := NodeId.ofIndex?_of_le (Nat.le_of_not_lt full)
  unfold add
  split
  · next id h =>
    rw [hnone] at h
    cases h
  · rfl

theorem alloc_of_room (payload : Payload) (span : Span) (room : σ.HasRoom 1) :
    σ.alloc payload span = (.ok σ.nextId, σ.push ⟨payload.withoutChildren, span, none⟩ room) :=
  add_of_room _ room

theorem alloc_of_full (payload : Payload) (span : Span) (full : ¬ σ.HasRoom 1) :
    σ.alloc payload span = (.error .arenaFull, σ) :=
  add_of_full _ full

/-- A store without room has issued all identifiers. -/
theorem size_of_full (full : ¬ σ.HasRoom 1) : σ.size = NodeId.bound :=
  Nat.le_antisymm σ.size_le_bound (Nat.le_of_not_lt full)

end DeclTree.Store
