import DeclTree.Store.Basic

/-!
# Equality of subtrees

Two subtrees are equal when they agree in shape, scalar fields and spans; identifiers and
parent links play no role.  The comparison goes down both subtrees together and stops at the
first difference.  Where it meets no difference on slots that run in circles it never ends, and
the answer is then `none`.
-/

namespace DeclTree

/-- Whether `f` holds of every pair, asking in order and stopping at the first that fails. -/
def allPairs (f : NodeId → NodeId → Option Bool) : List NodeId → List NodeId → Option Bool
  | a :: as, b :: bs =>
    match f a b with
    | some true => allPairs f as bs
    | other => other
  | _, _ => some true

/-- Whether `f` holds of every slot, asking in order and stopping at the first that fails. -/
def allSlots (f : Slot → Option Bool) : List Slot → Option Bool
  | [] => some true
  | slot :: rest =>
    match f slot with
    | some true => allSlots f rest
    | other => other

namespace Store

/-- Compares two subtrees at most `depth` levels down. -/
def equalTo (σ τ : Store) : Nat → NodeId → NodeId → Option Bool
  | 0, _, _ => none
  | depth + 1, x, y =>
    match σ.node? x, τ.node? y with
    | some a, some b =>
      if a.span ≠ b.span ∨ a.payload.sameScalars b.payload = false then some false
      else
        a.kind.slots |> allSlots fun slot =>
          let left := a.payload.childrenIn slot
          let right := b.payload.childrenIn slot
          if left.length = right.length then allPairs (equalTo σ τ depth) left right
          else some false
    | _, _ => some false

/-- Whether the subtree of `x` in `σ` equals the subtree of `y` in `τ`.  A descent that meets a
pair of nodes twice repeats for ever, so the number of pairs bounds its depth. -/
def structurallyEqual (σ : Store) (x : NodeId) (τ : Store) (y : NodeId) : Option Bool :=
  equalTo σ τ (σ.size * τ.size + 1) x y

end Store

end DeclTree
