import DeclTree.CompilationUnit.Script

/-!
# Walking a tree

A walk goes depth first through a tree.  It visits a node, then its children slot by slot in
traversal order, and then leaves the node.

* A visit that answers `false` keeps the walk from the children; the node is left all the same.
* The hooks may change the tree.  The children to walk are those that the node has just before
  it is visited, and each is skipped if it no longer belongs to the node when its turn comes.
* The kind that a node has when the walk reaches it decides about the hooks of both ends.

Hooks may walk on by themselves, so a walk need not end; walks are bounded by their depth and
answer `none` beyond it.
-/

namespace DeclTree

/-- The two ends of a node's part of a walk. -/
inductive Phase
  /-- Before the children. -/
  | visit
  /-- After the children. -/
  | leave
deriving DecidableEq

/-- The name of a hook: for nodes of one kind, or for all nodes. -/
structure HookName where
  /-- The end at which the hook is called. -/
  phase : Phase
  /-- The kind of nodes for which it is called; all kinds if missing. -/
  kind? : Option Kind
deriving DecidableEq

/-- How a hook's name is written. -/
def HookName.text (name : HookName) : String :=
  let subject :=
    match name.kind? with
    | none => "node"
    | some kind => String.ofList (kind.name.toList.map fun c => if c = ' ' then '_' else c)
  match name.phase with
  | .visit => "visit_" ++ subject
  | .leave => "end_visit_" ++ subject

/-- What a pass does before the children of a node: the answer says whether to walk them. -/
abbrev VisitHook (S : Type) := NodeId → S → Script S (Bool × S)

/-- What a pass does after the children of a node. -/
abbrev LeaveHook (S : Type) := NodeId → S → Script S S

/-- A pass with its hooks for each kind of node. -/
structure Visitor (S : Type) where
  /-- The hook before the children. -/
  visit : Kind → VisitHook S
  /-- The hook after the children. -/
  leave : Kind → LeaveHook S

/-- The hooks that a pass defines.  A hook for one kind comes before the hook for all nodes. -/
structure Hooks (S : Type) where
  /-- The hook before the children of any node. -/
  visitAny : Option (VisitHook S)
  /-- The hook after the children of any node. -/
  leaveAny : Option (LeaveHook S)
  /-- The hooks before the children of nodes of one kind. -/
  visitKind : Kind → Option (VisitHook S)
  /-- The hooks after the children of nodes of one kind. -/
  leaveKind : Kind → Option (LeaveHook S)

namespace Hooks

variable {S : Type}

/-- No hook is defined. -/
def none : Hooks S := ⟨.none, .none, fun _ => .none, fun _ => .none⟩

/-- The pass with these hooks.  Without a hook a visit goes on to the children and does nothing
else. -/
def toVisitor (hooks : Hooks S) : Visitor S where
  visit kind :=
    ((hooks.visitKind kind).or hooks.visitAny).getD fun _ state => .done (true, state)
  leave kind :=
    ((hooks.leaveKind kind).or hooks.leaveAny).getD fun _ state => .done state

end Hooks

namespace Visitor

variable {S : Type}

/-- Walks those of the given nodes that belong to `owner` when their turn comes. -/
def walkChildren (walk : NodeId → S → CompilationUnit → Option (S × CompilationUnit))
    (owner : NodeId) : List NodeId → S → CompilationUnit → Option (S × CompilationUnit)
  | [], state, u => some (state, u)
  | child :: rest, state, u =>
    if (u.tree.parent? child).map ParentLink.owner = some owner then
      match walk child state u with
      | none => none
      | some (state', u') => walkChildren walk owner rest state' u'
    else walkChildren walk owner rest state u

/-- Walks the subtree of a node, at most `depth` walks inside each other.  Unknown nodes are
ignored. -/
def walk (v : Visitor S) : (depth : Nat) → NodeId → S → CompilationUnit →
    Option (S × CompilationUnit)
  | 0, _, _, _ => none
  | depth + 1, id, state, u =>
    match u.tree.kind? id with
    | none => some (state, u)
    | some kind =>
      match (v.visit kind id state).run (v.walk depth) u with
      | none => none
      | some ((descend, visited), u₁) =>
        let below :=
          if descend then walkChildren (v.walk depth) id (u.tree.children id) visited u₁
          else some (visited, u₁)
        match below with
        | none => none
        | some (walked, u₂) => (v.leave kind id walked).run (v.walk depth) u₂

end Visitor

namespace CompilationUnit

variable {S : Type}

/-- Walks the subtree of a node with a pass. -/
def acceptNode (u : CompilationUnit) (v : Visitor S) (depth : Nat) (id : NodeId) (state : S) :
    Option (S × CompilationUnit) :=
  v.walk depth id state u

/-- Walks the whole tree with a pass. -/
def accept (u : CompilationUnit) (v : Visitor S) (depth : Nat) (state : S) :
    Option (S × CompilationUnit) :=
  u.acceptNode v depth root state

end CompilationUnit

end DeclTree
