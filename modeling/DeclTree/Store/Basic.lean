import DeclTree.Payload
import DeclTree.Span

/-!
# Stores of nodes

All nodes of a tree live in one store.  The tree structure is kept twice: the slots of a node
name its children, and the parent link of a node names the owner and the slot that hold it.
The edits of a store keep the two in step; a store as such may hold anything,
and every function here answers for every store.

Two views suffice to speak about the structure: `childrenIn σ owner slot` and `parent? σ id`.
-/

namespace DeclTree

/-- Where a node is attached. -/
structure ParentLink where
  /-- The node whose slot holds the child. -/
  owner : NodeId
  /-- The slot that holds it. -/
  slot : Slot
deriving DecidableEq

/-- The written form of a parent link. -/
def ParentLink.text (link : ParentLink) : String :=
  "ParentLink \x7b owner: " ++ link.owner.text ++ ", slot: " ++ link.slot.label ++ " \x7d"

/-- The written form of a parent link that may be missing. -/
def ParentLink.optionText : Option ParentLink → String
  | none => "None"
  | some link => "Some(" ++ link.text ++ ")"

/-- A node: its payload, its place in the source text and where it is attached. -/
structure Node where
  /-- The kind, scalar fields and slots of the node. -/
  payload : Payload
  /-- The source text that the node stands for. -/
  span : Span
  /-- Where the node is attached, if it is. -/
  parent : Option ParentLink
deriving DecidableEq

/-- The kind of a node is that of its payload. -/
def Node.kind (n : Node) : Kind := n.payload.kind

/-- The nodes of one tree, in order of creation. -/
structure Store where
  /-- The nodes; the identifier of a node is its index. -/
  nodes : Array Node
  /-- Every node has an identifier. -/
  numbered : nodes.size ≤ NodeId.bound
deriving DecidableEq

namespace Store

/-- The store without nodes. -/
def empty : Store := ⟨#[], Nat.zero_le _⟩

/-- The number of nodes, attached or not. -/
def size (σ : Store) : Nat := σ.nodes.size

/-- The identifiers of all nodes, in order of creation. -/
def ids (σ : Store) : List NodeId :=
  (List.range σ.size).map NodeId.mk

/-- The node with a given identifier. -/
def node? (σ : Store) (id : NodeId) : Option Node := σ.nodes[id.index]?

/-- Whether a node has the given identifier. -/
def Allocated (σ : Store) (id : NodeId) : Prop := id.index < σ.size

instance (σ : Store) (id : NodeId) : Decidable (σ.Allocated id) :=
  inferInstanceAs (Decidable (id.index < σ.size))

/-- The payload of a node. -/
def payload? (σ : Store) (id : NodeId) : Option Payload := (σ.node? id).map Node.payload

/-- The kind of a node. -/
def kind? (σ : Store) (id : NodeId) : Option Kind := (σ.node? id).map Node.kind

/-- The span of a node. -/
def span? (σ : Store) (id : NodeId) : Option Span := (σ.node? id).map Node.span

/-- Where a node is attached; nothing for unattached and for unknown nodes. -/
def parent? (σ : Store) (id : NodeId) : Option ParentLink := (σ.node? id).bind Node.parent

/-- Whether a node is attached. -/
def isAttached (σ : Store) (id : NodeId) : Bool := (σ.parent? id).isSome

/-- The children in one slot of a node; none if there is no such node or slot. -/
def childrenIn (σ : Store) (owner : NodeId) (slot : Slot) : List NodeId :=
  match σ.payload? owner with
  | some payload => payload.childrenIn slot
  | none => []

/-- All children of a node in traversal order; none if there is no such node. -/
def children (σ : Store) (owner : NodeId) : List NodeId :=
  match σ.payload? owner with
  | some payload => payload.children
  | none => []

/-- At most `steps` owners above a node, nearest first. -/
def ownersAbove (σ : Store) : Nat → NodeId → List NodeId
  | 0, _ => []
  | steps + 1, id =>
    match σ.parent? id with
    | some link => link.owner :: σ.ownersAbove steps link.owner
    | none => []

/-- The owners above a node, nearest first.  A chain of parent links that does not run in a
circle visits each node at most once, so it is never longer than the store. -/
def ancestors (σ : Store) (id : NodeId) : List NodeId := σ.ownersAbove σ.size id

/-- The identifier that the next node gets, if there is one left. -/
def nextId (σ : Store) : NodeId := ⟨σ.size⟩

/-- Whether so many more nodes could be created. -/
def HasRoom (σ : Store) (count : Nat) : Prop := σ.size + count ≤ NodeId.bound

instance (σ : Store) (count : Nat) : Decidable (σ.HasRoom count) :=
  inferInstanceAs (Decidable (σ.size + count ≤ NodeId.bound))

/-- The store with one more node, for which there is an identifier. -/
def push (σ : Store) (n : Node) (room : σ.HasRoom 1) : Store where
  nodes := σ.nodes.push n
  numbered := by
    rw [Array.size_push]
    exact room

/-- The store with one node changed; unknown identifiers change nothing. -/
def modify (σ : Store) (id : NodeId) (f : Node → Node) : Store where
  nodes := σ.nodes.modify id.index f
  numbered := by
    rw [Array.size_modify]
    exact σ.numbered

/-- The store with the parent link of one node replaced. -/
def setParent (σ : Store) (id : NodeId) (link : Option ParentLink) : Store :=
  σ.modify id fun n => { n with parent := link }

/-- The store with the parent links of several nodes replaced. -/
def setParents (σ : Store) (ids : List NodeId) (link : Option ParentLink) : Store :=
  ids.foldl (fun τ id => τ.setParent id link) σ

/-- The store with the payload of one node replaced. -/
def setPayload (σ : Store) (id : NodeId) (payload : Payload) : Store :=
  σ.modify id fun n => { n with payload := payload }

/-- The store with one slot of one node replaced. -/
def setSlot (σ : Store) (owner : NodeId) (slot : Slot) (content : SlotContent) : Store :=
  σ.modify owner fun n => { n with payload := n.payload.setSlot slot content }

/-! ## How the operations show in the views -/

theorem node?_eq_none_iff {σ : Store} {id : NodeId} : σ.node? id = none ↔ ¬ σ.Allocated id := by
  simp [node?, Allocated, size]

theorem allocated_of_node? {σ : Store} {id : NodeId} {n : Node} (h : σ.node? id = some n) :
    σ.Allocated id := by
  by_cases known : σ.Allocated id
  · exact known
  · rw [node?_eq_none_iff.2 known] at h
    cases h

theorem size_le_bound (σ : Store) : σ.size ≤ NodeId.bound := σ.numbered

@[simp] theorem size_push (σ : Store) (n : Node) (room : σ.HasRoom 1) :
    (σ.push n room).size = σ.size + 1 := by
  simp [push, size]

@[simp] theorem size_modify (σ : Store) (id : NodeId) (f : Node → Node) :
    (σ.modify id f).size = σ.size := by
  simp [modify, size]

theorem node?_modify (σ : Store) (id other : NodeId) (f : Node → Node) :
    (σ.modify id f).node? other =
      if id = other then (σ.node? other).map f else σ.node? other := by
  have key : id.index = other.index ↔ id = other :=
    ⟨NodeId.ext_index, fun h => congrArg NodeId.index h⟩
  simp [modify, node?, Array.getElem?_modify, key]

theorem node?_push (σ : Store) (n : Node) (room : σ.HasRoom 1) (id : NodeId) :
    (σ.push n room).node? id = if id = σ.nextId then some n else σ.node? id := by
  have key : id.index = σ.nodes.size ↔ id = σ.nextId :=
    ⟨fun h => NodeId.ext_index h, fun h => congrArg NodeId.index h⟩
  simp [push, node?, Array.getElem?_push, key]

end Store

end DeclTree
