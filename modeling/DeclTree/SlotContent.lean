import DeclTree.NodeId

/-!
# Slot contents

A slot either links to at most one child or holds a sequence of children.  `toList` shows both
shapes as the list of children in order; traversals see a slot through it only.
-/

namespace DeclTree

/-- What one slot of a node holds. -/
inductive SlotContent
  /-- At most one child. -/
  | link (child : Option NodeId)
  /-- A sequence of children. -/
  | list (children : List NodeId)
deriving DecidableEq

namespace SlotContent

/-- The children in order. -/
def toList : SlotContent → List NodeId
  | link child => child.toList
  | list children => children

/-- The content of the same shape that holds no child. -/
def emptied : SlotContent → SlotContent
  | link _ => link none
  | list _ => list []

/-- Whether the two contents are both links or both sequences. -/
def sameShape : SlotContent → SlotContent → Bool
  | link _, link _ => true
  | list _, list _ => true
  | _, _ => false

/-- The written form of a slot's content. -/
def text : SlotContent → String
  | link none => "ChildLink(None)"
  | link (some child) => "ChildLink(Some(" ++ child.text ++ "))"
  | list children => "[" ++ ", ".intercalate (children.map NodeId.text) ++ "]"

@[simp] theorem toList_emptied (c : SlotContent) : c.emptied.toList = [] := by
  cases c <;> rfl

@[simp] theorem toList_link (child : Option NodeId) : (link child).toList = child.toList := rfl

@[simp] theorem toList_list (children : List NodeId) : (list children).toList = children := rfl

end SlotContent

end DeclTree
