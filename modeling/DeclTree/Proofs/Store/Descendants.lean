import DeclTree.Proofs.Store.Subtrees

/-!
# What collecting finds

The collection of `DeclTree.Store.Descendants` ends on every store, and there is one invariant for
all stores, `Store.Collected`: what was collected are different nodes that can be reached, and
whatever node they hold was collected or is still stacked.  So `Store.mem_descendants_iff` and
`Store.nodup_descendants` need no tree.  In a tree the collection lists the same nodes as the
post-order.
-/

namespace DeclTree.Store

variable {σ : Store} {root id y : NodeId} {stack seen : List NodeId}

/-- The nodes in `seen` are collected, the identifiers in `stack` are still to look at. -/
structure Collected (σ : Store) (root : NodeId) (stack seen : List NodeId) : Prop where
  /-- No node was collected twice. -/
  nodup : seen.Nodup
  /-- Only nodes were collected. -/
  allocated : ∀ id ∈ seen, σ.Allocated id
  /-- Only reachable identifiers are stacked. -/
  reaches : ∀ id ∈ seen ++ stack, σ.Reaches root id
  /-- The root was stacked. -/
  root_mem : σ.Allocated root → root ∈ seen ++ stack
  /-- So were the children of what was collected. -/
  child_mem : ∀ id ∈ seen, ∀ child ∈ σ.children id, σ.Allocated child → child ∈ seen ++ stack

namespace Collected

lemma start (σ : Store) (root : NodeId) : Collected σ root [root] [] where
  nodup := List.nodup_nil
  allocated := nofun
  reaches := by
    intro id hid
    obtain rfl := List.mem_singleton.mp hid
    exact .refl
  root_mem := fun _ => List.mem_singleton.mpr rfl
  child_mem := nofun

/-- Collecting a node and stacking its children. -/
lemma take (h : Collected σ root (id :: stack) seen) (hid : σ.Allocated id) (hfresh : id ∉ seen) :
    Collected σ root (σ.children id ++ stack) (id :: seen) where
  nodup := List.nodup_cons.mpr ⟨hfresh, h.nodup⟩
  allocated := by
    intro other hother
    rcases List.mem_cons.mp hother with rfl | hseen
    · exact hid
    · exact h.allocated other hseen
  reaches := by
    intro other hother
    rw [List.mem_append, List.mem_cons, List.mem_append] at hother
    rcases hother with (rfl | hseen) | hchild | hstack
    · exact h.reaches other (by simp)
    · exact h.reaches other (List.mem_append_left _ hseen)
    · exact Relation.ReflTransGen.tail (h.reaches id (by simp)) hchild
    · exact h.reaches other (List.mem_append_right _ (List.mem_cons_of_mem id hstack))
  root_mem := by
    intro hroot
    have hmem := h.root_mem hroot
    simp only [List.mem_append, List.mem_cons] at hmem ⊢
    tauto
  child_mem := by
    intro other hother child hchild hallocated
    rcases List.mem_cons.mp hother with rfl | hseen
    · exact List.mem_append_right _ (List.mem_append_left _ hchild)
    · have hmem := h.child_mem other hseen child hchild hallocated
      simp only [List.mem_append, List.mem_cons] at hmem ⊢
      tauto

/-- Leaving out an identifier that is unknown or was collected. -/
lemma skip (h : Collected σ root (id :: stack) seen) (hid : σ.Allocated id → id ∈ seen) :
    Collected σ root stack seen where
  nodup := h.nodup
  allocated := h.allocated
  reaches := by
    intro other hother
    refine h.reaches other ?_
    rw [List.mem_append, List.mem_cons]
    exact (List.mem_append.mp hother).imp_right Or.inr
  root_mem := by
    intro hroot
    have hmem := h.root_mem hroot
    rw [List.mem_append, List.mem_cons] at hmem
    rw [List.mem_append]
    rcases hmem with hseen | rfl | hstack
    · exact Or.inl hseen
    · exact Or.inl (hid hroot)
    · exact Or.inr hstack
  child_mem := by
    intro other hother child hchild hallocated
    have hmem := h.child_mem other hother child hchild hallocated
    rw [List.mem_append, List.mem_cons] at hmem
    rw [List.mem_append]
    rcases hmem with hseen | rfl | hstack
    · exact Or.inl hseen
    · exact Or.inl (hid hallocated)
    · exact Or.inr hstack

/-- When nothing is left to look at, the reachable nodes are collected. -/
lemma mem_iff (h : Collected σ root [] seen) : y ∈ seen ↔ σ.Reaches root y ∧ σ.Allocated y := by
  constructor
  · intro hy
    exact ⟨h.reaches y (List.mem_append_left _ hy), h.allocated y hy⟩
  · rintro ⟨hreach, hallocated⟩
    induction hreach with
    | refl => simpa using h.root_mem hallocated
    | @tail owner child _ hchild ih =>
      -- what has a child is a node
      have howner : σ.Allocated owner := by
        obtain ⟨slot, hslot⟩ := mem_children.mp hchild
        obtain ⟨n, hn, -⟩ := exists_node_of_mem_childrenIn hslot
        exact allocated_of_node? hn
      simpa using h.child_mem owner (ih howner) child hchild hallocated

end Collected

lemma collect_cons_of_fresh (hid : σ.Allocated id ∧ id ∉ seen) :
    σ.collect (id :: stack) seen = σ.collect (σ.children id ++ stack) (id :: seen) := by
  rw [collect, if_pos hid]

lemma collect_cons_of_not_fresh (hid : ¬ (σ.Allocated id ∧ id ∉ seen)) :
    σ.collect (id :: stack) seen = σ.collect stack seen := by
  rw [collect, if_neg hid]

/-- The collection goes on until nothing is left to look at. -/
lemma collect_collected (h : Collected σ root stack seen) :
    Collected σ root [] (σ.collect stack seen).reverse := by
  induction stack, seen using collect.induct σ with
  | case1 seen =>
    rw [collect, List.reverse_reverse]
    exact h
  | case2 id stack seen hid ih =>
    rw [collect_cons_of_fresh hid]
    exact ih (h.take hid.1 hid.2)
  | case3 id stack seen hid ih =>
    rw [collect_cons_of_not_fresh hid]
    exact ih (h.skip fun hallocated => by_contra fun hfresh => hid ⟨hallocated, hfresh⟩)

/-- **The descendants of a node are the nodes that can be reached from it.** -/
theorem mem_descendants_iff :
    y ∈ σ.descendants root ↔ σ.Reaches root y ∧ σ.Allocated y := by
  rw [← (collect_collected (.start σ root)).mem_iff, List.mem_reverse, descendants]

/-- **No descendant is listed twice.** -/
theorem nodup_descendants (σ : Store) (root : NodeId) : (σ.descendants root).Nodup :=
  List.nodup_reverse.mp (collect_collected (.start σ root)).nodup

namespace TreeAt

lemma mem_descendants (ht : σ.TreeAt root) : y ∈ σ.descendants root ↔ σ.Reaches root y := by
  rw [mem_descendants_iff]
  exact and_iff_left_of_imp ht.allocated_of_reaches

/-- Pre-order and post-order list the same nodes. -/
lemma descendants_perm_postOrder (ht : σ.TreeAt root) :
    (σ.descendants root).Perm (σ.postOrder root) := by
  rw [List.perm_ext_iff_of_nodup (nodup_descendants σ root) ht.nodup_postOrder]
  intro y
  rw [ht.mem_descendants, ht.mem_postOrder]

end TreeAt

end DeclTree.Store
