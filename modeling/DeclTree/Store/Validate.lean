import DeclTree.Store.Descendants

/-!
# Structural validation

Validation looks at everything that can be reached from a root and reports the first fault.  It
runs between passes and on any store whatever: a fault means that a pass broke the tree, never
that the user's source is wrong.

The nodes are taken from a stack, as in `DeclTree.Store.Descendants`, but an identifier that is
taken a second time is a fault.  Each node is checked before its children are stacked; the
children in the last slot are taken first.
-/

namespace DeclTree

/-- What validation may find. -/
inductive ValidationError
  /-- The unit names no main type. -/
  | emptyMainTypeName
  /-- The unit has no package declaration. -/
  | missingPackage (path : String)
  /-- A required field of a node is empty. -/
  | missingField (node : NodeId) (kind : Kind) (field : RequiredField)
  /-- A slot names a node that does not exist. -/
  | danglingChild (holder : ParentLink) (child : NodeId)
  /-- A slot holds a node whose parent link does not name that slot. -/
  | brokenParentLink (holder : ParentLink) (child : NodeId) (found : Option ParentLink)
  /-- A slot holds a node of a kind that it does not admit. -/
  | kindMismatch (holder : ParentLink) (found : Kind)
  /-- A node is met a second time. -/
  | sharedChild (id : NodeId)
  /-- The parent link of a node names a slot that does not hold the node. -/
  | orphanedChild (claimed : ParentLink) (child : NodeId)
deriving DecidableEq

namespace ValidationError

/-- What the user reads. -/
def message : ValidationError → String
  | emptyMainTypeName => "compilation unit has an empty main type name"
  | missingPackage path => s!"compilation unit `{path}` has no package declaration"
  | missingField node kind field => s!"{kind} node {node} is missing its {field.text}"
  | danglingChild holder child =>
    s!"`{holder.slot}` of {holder.owner} refers to unknown node {child}"
  | brokenParentLink holder child found =>
    s!"`{holder.slot}` of {holder.owner} holds {child}, whose parent link is " ++
      ParentLink.optionText found
  | kindMismatch holder found => s!"`{holder.slot}` of {holder.owner} cannot hold a {found} node"
  | sharedChild id => s!"node {id} is reachable through more than one slot"
  | orphanedChild claimed child =>
    s!"node {child} claims `{claimed.slot}` of {claimed.owner} but is not held there"

end ValidationError

namespace Store

/-- Checks that a slot holds a node of the given store with a matching parent link and an
admitted kind. -/
def checkHeld (σ : Store) (holder : ParentLink) (child : NodeId) :
    Except ValidationError Unit :=
  match σ.node? child with
  | none => .error (.danglingChild holder child)
  | some n =>
    if n.parent ≠ some holder then .error (.brokenParentLink holder child n.parent)
    else if holder.slot.admits n.kind then .ok ()
    else .error (.kindMismatch holder n.kind)

/-- Checks the required fields of a node, then every child in traversal order. -/
def checkNode (σ : Store) (id : NodeId) (n : Node) : Except ValidationError Unit :=
  match n.payload.missingField? with
  | some field => .error (.missingField id n.kind field)
  | none => n.payload.slotChildren.forM fun (slot, child) => σ.checkHeld ⟨id, slot⟩ child

/-- The children of a payload in the order in which validation takes them from its stack: the
last slot first, and each slot from its first child on. -/
def stacked (payload : Payload) : List NodeId :=
  payload.kind.slots.reverse.flatMap payload.childrenIn

/-- Checks all nodes that can be reached from a stack of identifiers and answers with all
identifiers taken; `seen` holds those taken so far. -/
def checkReachable (σ : Store) :
    (stack : List NodeId) → (seen : List NodeId) → Except ValidationError (List NodeId)
  | [], seen => .ok seen
  | id :: stack, seen =>
    if id ∈ seen then .error (.sharedChild id)
    else
      match _ : σ.node? id with
      | none => σ.checkReachable stack (id :: seen)
      | some n =>
        match σ.checkNode id n with
        | .error e => .error e
        | .ok () => σ.checkReachable (stacked n.payload ++ stack) (id :: seen)
termination_by stack seen => (σ.unseenCount seen, stack.length)
decreasing_by
  · rcases Nat.lt_or_eq_of_le (σ.unseenCount_cons_le id seen) with h | h
    · exact Prod.Lex.left _ _ h
    · rw [h]
      exact Prod.Lex.right _ (by simp)
  · rename_i fresh known
    exact Prod.Lex.left _ _ (unseenCount_cons_lt (allocated_of_node? known) fresh)

/-- The fault of a node whose parent link names an owner among `seen` without being held there,
if it has that fault. -/
def orphanFault? (σ : Store) (seen : List NodeId) (id : NodeId) : Option ValidationError :=
  match σ.parent? id with
  | none => none
  | some link =>
    if link.owner ∈ seen ∧ id ∉ σ.childrenIn link.owner link.slot then
      some (.orphanedChild link id)
    else none

/-- Validates the subtree of `root`: all that can be reached from it, and then the parent links
of all nodes of the store that claim to belong to what was reached. -/
def validateSubtree (σ : Store) (root : NodeId) : Except ValidationError Unit :=
  match σ.checkReachable [root] [] with
  | .error e => .error e
  | .ok seen =>
    match σ.ids.findSome? (σ.orphanFault? seen) with
    | some e => .error e
    | none => .ok ()

end Store

end DeclTree
