import DeclTree.Proofs.Store.Descendants

/-!
# Pre-orders of a tree

A loop that takes nodes from a stack and puts their children in front of the rest goes through a
tree in pre-order: a node, then what its children list, one after the other.  The order in which
it stacks the children is its own, so `Store.preOrder` takes that order as a parameter.  Every such
list is the post-order rearranged.

`Store.Pending` is what such a loop keeps on a tree: what is stacked are trees that do not meet, and
nothing of them was taken.  For `descendants` it gives the equation of the recursive listing,
`TreeAt.descendants_eq`.
-/

namespace DeclTree.Store

variable {σ : Store} {order : NodeId → List NodeId} {x y id : NodeId} {stack seen : List NodeId}
  {depth : Nat}

/-- The order lists the children of each node. -/
def Arranges (σ : Store) (order : NodeId → List NodeId) : Prop :=
  ∀ id, (order id).Perm (σ.children id)

/-- A node and what lies below it, at most so many levels down, owners before their children. -/
def preOrderWithin (order : NodeId → List NodeId) : (depth : Nat) → (id : NodeId) → List NodeId
  | 0, _ => []
  | depth + 1, id => id :: (order id).flatMap (preOrderWithin order depth)

/-- The nodes of a subtree, owners before their children. -/
def preOrder (σ : Store) (order : NodeId → List NodeId) (id : NodeId) : List NodeId :=
  preOrderWithin order σ.size id

lemma arranges_children (σ : Store) : σ.Arranges σ.children := fun _ => List.Perm.refl _

/-- Both orders list the same nodes. -/
lemma preOrderWithin_perm (horder : σ.Arranges order) (depth : Nat) (x : NodeId) :
    (preOrderWithin order depth x).Perm (σ.postOrderWithin depth x) := by
  induction depth generalizing x with
  | zero => exact List.Perm.refl []
  | succ depth ih =>
    have hbelow : ((order x).flatMap (preOrderWithin order depth)).Perm
        ((σ.children x).flatMap (σ.postOrderWithin depth)) :=
      calc ((order x).flatMap (preOrderWithin order depth)).Perm
            ((order x).flatMap (σ.postOrderWithin depth)) :=
            List.Perm.flatMap_left _ fun child _ => ih child
        _ |>.Perm ((σ.children x).flatMap (σ.postOrderWithin depth)) :=
            (horder x).flatMap_right _
    exact (hbelow.cons x).trans (List.perm_append_singleton x _).symm

/-- Looking deeper than a subtree goes shows the same list. -/
lemma UnfoldsWithin.preOrderWithin_eq {deeper : Nat} (horder : σ.Arranges order)
    (h : σ.UnfoldsWithin depth x) (hle : depth ≤ deeper) :
    preOrderWithin order deeper x = preOrderWithin order depth x := by
  induction depth generalizing x deeper with
  | zero => exact h.elim
  | succ depth ih =>
    obtain ⟨deeper, rfl⟩ : ∃ k, deeper = k + 1 := ⟨deeper - 1, by omega⟩
    unfold preOrderWithin
    congr 1
    exact List.flatMap_congr fun child hchild =>
      ih (h.2 child ((horder x).mem_iff.mp hchild)) (Nat.le_of_succ_le_succ hle)

/-- Orders that agree below a node list the same. -/
lemma preOrderWithin_congr {order' : NodeId → List NodeId}
    (h : ∀ y, σ.Reaches x y → order y = order' y) (horder : σ.Arranges order) :
    preOrderWithin order depth x = preOrderWithin order' depth x := by
  induction depth generalizing x with
  | zero => rfl
  | succ depth ih =>
    rw [preOrderWithin, preOrderWithin, ← h x .refl]
    congr 1
    refine List.flatMap_congr fun child hchild => ih fun y hy => h y ?_
    exact .head ((horder x).mem_iff.mp hchild) hy

namespace TreeAt

section

variable (horder : σ.Arranges order)
include horder

lemma preOrder_perm (x : NodeId) : (σ.preOrder order x).Perm (σ.postOrder x) :=
  preOrderWithin_perm horder σ.size x

lemma nodup_preOrder (ht : σ.TreeAt x) : (σ.preOrder order x).Nodup :=
  (preOrder_perm horder x).nodup_iff.mpr ht.nodup_postOrder

lemma preOrderWithin_eq (ht : σ.TreeAt x) (h : σ.UnfoldsWithin depth x) :
    preOrderWithin order depth x = σ.preOrder order x := by
  rcases Nat.le_total depth σ.size with hle | hle
  · exact (h.preOrderWithin_eq horder hle).symm
  · exact ht.unfoldsWithin.preOrderWithin_eq horder hle

/-- **Pre-order: the node, and then what its children list.** -/
theorem preOrder_eq (ht : σ.TreeAt x) :
    σ.preOrder order x = x :: (order x).flatMap (σ.preOrder order) := by
  have hunfolds := ht.unfoldsWithin
  obtain ⟨depth, hdepth⟩ : ∃ k, σ.size = k + 1 := by
    have hpos : x.index < σ.size := ht.allocated
    exact ⟨σ.size - 1, by omega⟩
  rw [hdepth] at hunfolds
  rw [← ht.preOrderWithin_eq horder hunfolds, preOrderWithin]
  congr 1
  refine List.flatMap_congr fun child hchild => ?_
  have hchild' := (horder x).mem_iff.mp hchild
  exact (ht.sub (.single hchild')).preOrderWithin_eq horder (hunfolds.2 child hchild')

end

end TreeAt

/-! ## Loops that go through a tree -/

/-- What is stacked are trees that do not meet, and nothing of them was taken. -/
structure Pending (σ : Store) (order : NodeId → List NodeId) (stack seen : List NodeId) : Prop where
  treeAt : ∀ id ∈ stack, σ.TreeAt id
  nodup : (stack.flatMap (σ.preOrder order)).Nodup
  fresh : ∀ id ∈ stack.flatMap (σ.preOrder order), id ∉ seen

namespace Pending

variable (horder : σ.Arranges order)
include horder

lemma start (ht : σ.TreeAt x) : σ.Pending order [x] [] where
  treeAt := by
    intro id hid
    obtain rfl := List.mem_singleton.mp hid
    exact ht
  nodup := by
    rw [List.flatMap_singleton]
    exact ht.nodup_preOrder horder
  fresh := fun _ _ => List.not_mem_nil

lemma flatMap_cons (h : σ.Pending order (id :: stack) seen) :
    (id :: stack).flatMap (σ.preOrder order) =
      id :: (order id ++ stack).flatMap (σ.preOrder order) := by
  rw [List.flatMap_cons, (h.treeAt id List.mem_cons_self).preOrder_eq horder, List.flatMap_append,
    List.cons_append]

lemma head_fresh (h : σ.Pending order (id :: stack) seen) : id ∉ seen := by
  refine h.fresh id ?_
  rw [h.flatMap_cons horder]
  exact List.mem_cons_self

/-- Taking a node and stacking its children. -/
lemma take (h : σ.Pending order (id :: stack) seen) :
    σ.Pending order (order id ++ stack) (id :: seen) := by
  have hlist := h.flatMap_cons horder
  have hnodup := h.nodup
  rw [hlist, List.nodup_cons] at hnodup
  refine ⟨fun other hother => ?_, hnodup.2, fun other hother hmem => ?_⟩
  · rcases List.mem_append.mp hother with hchild | hstack
    · exact (h.treeAt id List.mem_cons_self).sub (.single ((horder id).mem_iff.mp hchild))
    · exact h.treeAt other (List.mem_cons_of_mem id hstack)
  · rcases List.mem_cons.mp hmem with rfl | hseen
    · exact hnodup.1 hother
    · exact h.fresh other (hlist ▸ List.mem_cons_of_mem id hother) hseen

end Pending

/-- The collection lists what is stacked in pre-order. -/
lemma collect_eq_preOrder (h : σ.Pending σ.children stack seen) :
    σ.collect stack seen = seen.reverse ++ stack.flatMap (σ.preOrder σ.children) := by
  have horder := σ.arranges_children
  induction stack, seen using collect.induct σ with
  | case1 seen => rw [collect, List.flatMap_nil, List.append_nil]
  | case2 id stack seen hid ih =>
    rw [collect_cons_of_fresh hid, ih (h.take horder), h.flatMap_cons horder, List.reverse_cons,
      List.append_assoc, List.singleton_append]
  | case3 id stack seen hid =>
    exact absurd ⟨(h.treeAt id List.mem_cons_self).allocated, h.head_fresh horder⟩ hid

namespace TreeAt

lemma descendants_eq_preOrder (ht : σ.TreeAt x) :
    σ.descendants x = σ.preOrder σ.children x := by
  rw [descendants, collect_eq_preOrder (.start σ.arranges_children ht), List.flatMap_singleton]
  rfl

/-- **The descendants of a node: the node, and then those of its children, slot by slot.** -/
theorem descendants_eq (ht : σ.TreeAt x) :
    σ.descendants x = x :: (σ.children x).flatMap σ.descendants := by
  rw [ht.descendants_eq_preOrder, ht.preOrder_eq σ.arranges_children]
  congr 1
  exact List.flatMap_congr fun child hchild =>
    (ht.sub (.single hchild)).descendants_eq_preOrder.symm

end TreeAt

end DeclTree.Store
