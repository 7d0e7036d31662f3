/-!
# Node identifiers

A store numbers its nodes in the order in which it creates them, and nodes refer to each
other by these numbers only.  An identifier means nothing outside the store that issued it.

Identifiers are exchanged as 32-bit words, so there are `NodeId.bound` of them to issue.
-/

namespace DeclTree

/-- The name of a node within one store: its place in the order of creation, from 0. -/
structure NodeId where
  /-- The place in the order of creation. -/
  index : Nat
deriving DecidableEq, Hashable

namespace NodeId

/-- How many identifiers a store can issue. -/
def bound : Nat := UInt32.size

/-- The identifier with a given index, if it fits a 32-bit word. -/
def ofIndex? (index : Nat) : Option NodeId :=
  if index < bound then some ⟨index⟩ else none

/-- The written form of an identifier, as messages show it. -/
def text (id : NodeId) : String :=
  "NodeId(" ++ toString id.index ++ ")"

instance : ToString NodeId := ⟨text⟩

theorem ext_index {a b : NodeId} (h : a.index = b.index) : a = b := by
  cases a; cases b; exact congrArg NodeId.mk h

theorem ofIndex?_eq_some_iff {index : Nat} {id : NodeId} :
    ofIndex? index = some id ↔ index < bound ∧ id = ⟨index⟩ := by
  unfold ofIndex?
  split
  · rename_i h
    simp [h, eq_comm]
  · rename_i h
    simp [h]

theorem ofIndex?_of_lt {index : Nat} (h : index < bound) : ofIndex? index = some ⟨index⟩ :=
  ofIndex?_eq_some_iff.2 ⟨h, rfl⟩

theorem ofIndex?_of_le {index : Nat} (h : bound ≤ index) : ofIndex? index = none := by
  rw [ofIndex?, if_neg (Nat.not_lt_of_le h)]

end NodeId

end DeclTree
