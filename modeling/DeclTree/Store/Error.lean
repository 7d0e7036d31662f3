import DeclTree.Store.Basic

/-!
# Refused edits

Every edit of a store that is refused says why.  The values that an error carries are those of
the store at the time of the edit.

An edit is first planned, then committed: the plan reads the store and either fails or gives
the answer and the new store, and `commit` keeps the store as it was when the plan fails.
-/

namespace DeclTree

/-- Why an edit of a store is refused. -/
inductive TreeError
  /-- No node has the identifier. -/
  | unknownNode (id : NodeId)
  /-- Nodes of this kind do not have the slot. -/
  | noSuchSlot (node : NodeId) (kind : Kind) (slot : Slot)
  /-- The slot does not admit nodes of this kind. -/
  | kindMismatch (slot : Slot) (found : Kind)
  /-- The child is held by a slot already. -/
  | alreadyAttached (child : NodeId) (holder : ParentLink)
  /-- The child is the owner itself or one of its ancestors. -/
  | cycle (owner child : NodeId)
  /-- The slot has no such position. -/
  | indexOutOfRange (slot : Slot) (index length : Nat)
  /-- The slot has the other shape than the edit needs. -/
  | notAList (slot : Slot)
  /-- The slot takes at most one child. -/
  | tooManyForLink (slot : Slot) (count : Nat)
  /-- No slot holds the node. -/
  | notAttached (id : NodeId)
  /-- The new payload is of another kind. -/
  | kindChanged (node : NodeId) (expected found : Kind)
  /-- No identifier is left for another node. -/
  | arenaFull
deriving DecidableEq

namespace TreeError

/-- What the user reads. -/
def message : TreeError → String
  | unknownNode id => s!"unknown node {id}"
  | noSuchSlot node kind slot => s!"{kind} node {node} has no `{slot}` slot"
  | kindMismatch slot found => s!"`{slot}` slot does not accept a {found} node"
  | alreadyAttached child holder =>
    s!"node {child} is already attached to `{holder.slot}` of {holder.owner}"
  | cycle owner child => s!"attaching {child} under {owner} would make it its own ancestor"
  | indexOutOfRange slot index length =>
    s!"index {index} out of range for `{slot}` slot of length {length}"
  | notAList slot => s!"`{slot}` slot holds a single child"
  | tooManyForLink slot count => s!"`{slot}` slot cannot take {count} nodes"
  | notAttached id => s!"node {id} is not attached"
  | kindChanged node expected found =>
    s!"payload edit would turn {node} from a {expected} into a {found}"
  | arenaFull => "node arena is out of ids"

end TreeError

/-- The answer to an edit, or the reason for refusing it, and the store afterwards. -/
abbrev Reply (α : Type) := Except TreeError α × Store

/-- The reply with its answer put into another form. -/
def Reply.map {α β : Type} (f : α → β) (reply : Reply α) : Reply β :=
  (reply.1.map f, reply.2)

/-- Carries out a plan; a plan that fails leaves the store as it is. -/
def Store.commit {α : Type} (σ : Store) (plan : Except TreeError (α × Store)) : Reply α :=
  match plan with
  | .ok (answer, after) => (.ok answer, after)
  | .error e => (.error e, σ)

end DeclTree
