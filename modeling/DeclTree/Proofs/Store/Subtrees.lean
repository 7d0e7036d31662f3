import Mathlib.Data.List.Flatten
import DeclTree.Proofs.Store.Forest

/-!
# Subtrees and their post-order

What hangs at a node is a tree when all that can be reached from the node through slots is held
once, with the matching parent link, and the node itself is held by none of it.  This says
nothing about the rest of the store.  `Store.TreeAt` is that condition; every node of a forest
has it.

Such a subtree unfolds within as many levels as the store has nodes, so `Store.postOrder`, which
goes down that far, lists all of it: `TreeAt.postOrder_eq` is the equation that defines
post-orders, `TreeAt.mem_postOrder` and `TreeAt.nodup_postOrder` say that the list has each
node of the subtree once.
-/

namespace DeclTree.Store

variable {σ : Store} {root x y : NodeId}

/-- The node can be reached by going down slots. -/
def Reaches (σ : Store) : (root id : NodeId) → Prop :=
  Relation.ReflTransGen fun owner child => child ∈ σ.children owner

/-- The node can be reached by going down at least one slot. -/
def ReachesBelow (σ : Store) : (root id : NodeId) → Prop :=
  Relation.TransGen fun owner child => child ∈ σ.children owner

/-- What can be reached from a node is a tree. -/
structure TreeAt (σ : Store) (root : NodeId) : Prop where
  /-- The root is a node. -/
  allocated : σ.Allocated root
  /-- What a slot below the root holds is a node with the matching parent link. -/
  linked : ∀ {owner slot child}, σ.Reaches root owner → child ∈ σ.childrenIn owner slot →
    σ.parent? child = some ⟨owner, slot⟩
  /-- A slot below the root holds a child once. -/
  nodup : ∀ {owner} slot, σ.Reaches root owner → (σ.childrenIn owner slot).Nodup
  /-- No slot below the root holds the root. -/
  root_not_held : ∀ {owner slot}, σ.Reaches root owner → root ∉ σ.childrenIn owner slot

/-! ## Subtrees of a forest -/

lemma Reaches.tail {owner slot child} (h : σ.Reaches root owner)
    (hchild : child ∈ σ.childrenIn owner slot) : σ.Reaches root child :=
  Relation.ReflTransGen.tail h (mem_children.mpr ⟨slot, hchild⟩)

lemma Reaches.trans (h₁ : σ.Reaches root x) (h₂ : σ.Reaches x y) : σ.Reaches root y :=
  Relation.ReflTransGen.trans h₁ h₂

namespace Forest

/-- In a forest what is reached downwards leads back upwards. -/
lemma climbs_of_reaches (hf : σ.Forest) (h : σ.Reaches x y) :
    Relation.ReflTransGen σ.OwnedBy y x := by
  induction h with
  | refl => exact .refl
  | tail _ hchild ih =>
    obtain ⟨slot, hslot⟩ := mem_children.mp hchild
    exact .head ⟨slot, hf.linked hslot⟩ ih

/-- In a forest the nodes from which a node is reached are the node and its ancestors. -/
lemma reaches_iff (hf : σ.Forest) : σ.Reaches x y ↔ y = x ∨ x ∈ σ.ancestors y := by
  rw [hf.mem_ancestors_iff]
  constructor
  · intro h
    exact (Relation.reflTransGen_iff_eq_or_transGen.mp (hf.climbs_of_reaches h)).imp_left Eq.symm
  · rintro (rfl | hunder)
    · exact .refl
    · induction hunder with
      | single hstep =>
        obtain ⟨s, hs⟩ := hstep
        exact .single (mem_children.mpr ⟨s, hf.held hs⟩)
      | tail _ hstep ih =>
        obtain ⟨s, hs⟩ := hstep
        exact .head (mem_children.mpr ⟨s, hf.held hs⟩) ih

/-- **Every node of a forest is the root of a tree.** -/
theorem treeAt (hf : σ.Forest) (hx : σ.Allocated x) : σ.TreeAt x where
  allocated := hx
  linked := fun _ hchild => hf.linked hchild
  nodup := fun slot _ => hf.nodup _ slot
  root_not_held := fun howner hheld =>
    hf.acyclic x (.head' ⟨_, hf.linked hheld⟩ (hf.climbs_of_reaches howner))

end Forest

/-! ## How deep a subtree goes -/

/-- Every way down from the node ends within so many levels, and meets nodes only. -/
def UnfoldsWithin (σ : Store) : (depth : Nat) → (id : NodeId) → Prop
  | 0, _ => False
  | depth + 1, id => σ.Allocated id ∧ ∀ child ∈ σ.children id, σ.UnfoldsWithin depth child

/-- A way down from the root, given by the nodes above its end, the nearest first. -/
inductive Trail (σ : Store) (root : NodeId) : (id : NodeId) → (above : List NodeId) → Prop
  | root : Trail σ root root []
  | child {owner child above slot} (h : Trail σ root owner above)
    (hchild : child ∈ σ.childrenIn owner slot) : Trail σ root child (owner :: above)

lemma Trail.reaches {above : List NodeId} (h : σ.Trail root x above) : σ.Reaches root x := by
  induction h with
  | root => exact .refl
  | child _ hchild ih => exact ih.tail hchild

lemma Trail.reaches_of_mem {above : List NodeId} (h : σ.Trail root x above)
    (hy : y ∈ x :: above) : σ.Reaches root y := by
  induction h with
  | root =>
    obtain rfl := List.mem_singleton.mp hy
    exact .refl
  | child htrail hchild ih =>
    rcases List.mem_cons.mp hy with rfl | hy
    · exact htrail.reaches.tail hchild
    · exact ih hy

lemma Trail.allocated_above {above : List NodeId} (h : σ.Trail root x above) :
    ∀ y ∈ above, σ.Allocated y := by
  induction h with
  | root => exact nofun
  | child _ hchild ih =>
    refine List.forall_mem_cons.mpr ⟨?_, ih⟩
    obtain ⟨n, hn, -⟩ := exists_node_of_mem_childrenIn hchild
    exact allocated_of_node? hn

namespace TreeAt

lemma allocated_child (ht : σ.TreeAt root) {owner slot child} (howner : σ.Reaches root owner)
    (hchild : child ∈ σ.childrenIn owner slot) : σ.Allocated child := by
  obtain ⟨n, hn, -⟩ := exists_node_of_parent? (ht.linked howner hchild)
  exact allocated_of_node? hn

lemma allocated_of_reaches (ht : σ.TreeAt root) (h : σ.Reaches root x) : σ.Allocated x := by
  rcases Relation.ReflTransGen.cases_tail_iff .. |>.mp h with rfl | ⟨owner, howner, hchild⟩
  · exact ht.allocated
  · obtain ⟨slot, hslot⟩ := mem_children.mp hchild
    exact ht.allocated_child howner hslot

/-- Each node of a way down, the root apart, has its owner further up on it. -/
lemma owner_mem_trail (ht : σ.TreeAt root) {above : List NodeId} (h : σ.Trail root x above)
    (hy : y ∈ x :: above) (hne : y ≠ root) {link : ParentLink} (hlink : σ.parent? y = some link) :
    link.owner ∈ above := by
  induction h with
  | root => exact absurd (List.mem_singleton.mp hy) hne
  | child htrail hchild ih =>
    rcases List.mem_cons.mp hy with rfl | hy
    · rw [ht.linked htrail.reaches hchild] at hlink
      obtain rfl := Option.some.inj hlink
      exact List.mem_cons_self
    · exact List.mem_cons_of_mem _ (ih hy)

/-- A way down meets no node twice. -/
lemma nodup_trail (ht : σ.TreeAt root) {above : List NodeId} (h : σ.Trail root x above) :
    (x :: above).Nodup := by
  induction h with
  | root => exact List.nodup_singleton root
  | @child owner child above slot htrail hchild ih =>
    refine List.nodup_cons.mpr ⟨fun hmem => ?_, ih⟩
    have hne : child ≠ root := by
      rintro rfl
      exact ht.root_not_held htrail.reaches hchild
    have hup := ht.owner_mem_trail htrail hmem hne (ht.linked htrail.reaches hchild)
    exact (List.nodup_cons.mp ih).1 hup

end TreeAt

/-- If no way down from the root meets a node twice, each is shorter than the store. -/
lemma unfoldsWithin_of_trail (hallocated : ∀ {y}, σ.Reaches root y → σ.Allocated y)
    (hnodup : ∀ {y above}, σ.Trail root y above → (y :: above).Nodup) {above : List NodeId}
    (h : σ.Trail root x above) {depth : Nat} (hdepth : σ.size ≤ depth + above.length) :
    σ.UnfoldsWithin depth x := by
  induction depth generalizing x above with
  | zero =>
    -- the way down would have one node more than the store
    have hbound := length_le_size_of_nodup (hnodup h) fun id hid =>
      hallocated (h.reaches_of_mem hid)
    rw [List.length_cons] at hbound
    omega
  | succ depth ih =>
    refine ⟨hallocated h.reaches, fun child hchild => ?_⟩
    obtain ⟨slot, hslot⟩ := mem_children.mp hchild
    refine ih (.child h hslot) ?_
    rw [List.length_cons]
    omega

/-- **A tree unfolds within as many levels as the store has nodes.** -/
theorem TreeAt.unfoldsWithin (ht : σ.TreeAt root) : σ.UnfoldsWithin σ.size root :=
  unfoldsWithin_of_trail ht.allocated_of_reaches ht.nodup_trail .root (Nat.le_add_right _ _)

lemma UnfoldsWithin.mono {depth deeper : Nat} (h : σ.UnfoldsWithin depth x)
    (hle : depth ≤ deeper) : σ.UnfoldsWithin deeper x := by
  induction depth generalizing x deeper with
  | zero => exact h.elim
  | succ depth ih =>
    obtain ⟨deeper, rfl⟩ : ∃ k, deeper = k + 1 := ⟨deeper - 1, by omega⟩
    exact ⟨h.1, fun child hchild => ih (h.2 child hchild) (Nat.le_of_succ_le_succ hle)⟩

/-- Going down uses up levels. -/
lemma UnfoldsWithin.below {depth : Nat} (h : σ.UnfoldsWithin depth x) (hxy : σ.ReachesBelow x y) :
    ∃ less, less < depth ∧ σ.UnfoldsWithin less y := by
  induction hxy with
  | single hchild =>
    cases depth with
    | zero => exact h.elim
    | succ depth => exact ⟨depth, Nat.lt_succ_self depth, h.2 _ hchild⟩
  | tail _ hchild ih =>
    obtain ⟨less, hlt, hunfolds⟩ := ih
    cases less with
    | zero => exact hunfolds.elim
    | succ less => exact ⟨less, by omega, hunfolds.2 _ hchild⟩

/-- What unfolds does not come back to where it started. -/
lemma UnfoldsWithin.not_reachesBelow_self {depth : Nat} (h : σ.UnfoldsWithin depth x) :
    ¬ σ.ReachesBelow x x := by
  intro hcycle
  induction depth using Nat.strongRecOn with
  | ind depth ih =>
    obtain ⟨less, hlt, hless⟩ := h.below hcycle
    exact ih less hlt hless

namespace TreeAt

lemma unfolds_of_reaches (ht : σ.TreeAt root) (h : σ.Reaches root x) :
    ∃ depth, σ.UnfoldsWithin depth x := by
  rcases Relation.reflTransGen_iff_eq_or_transGen.mp h with rfl | hbelow
  · exact ⟨_, ht.unfoldsWithin⟩
  · obtain ⟨depth, -, hdepth⟩ := ht.unfoldsWithin.below hbelow
    exact ⟨depth, hdepth⟩

lemma not_reachesBelow_self (ht : σ.TreeAt root) (h : σ.Reaches root x) :
    ¬ σ.ReachesBelow x x := by
  obtain ⟨depth, hdepth⟩ := ht.unfolds_of_reaches h
  exact hdepth.not_reachesBelow_self

/-- Every node of a tree is the root of a tree. -/
lemma sub (ht : σ.TreeAt root) (h : σ.Reaches root x) : σ.TreeAt x where
  allocated := ht.allocated_of_reaches h
  linked := fun howner => ht.linked (h.trans howner)
  nodup := fun slot howner => ht.nodup slot (h.trans howner)
  root_not_held := fun howner hheld =>
    ht.not_reachesBelow_self h (.tail' howner (mem_children.mpr ⟨_, hheld⟩))

/-- No child of the root reaches the root. -/
lemma child_not_reaches_root (ht : σ.TreeAt root) {child : NodeId}
    (hchild : child ∈ σ.children root) : ¬ σ.Reaches child root := fun h =>
  ht.not_reachesBelow_self .refl (.head' hchild h)

/-- A node is reached through one child of the root only. -/
lemma child_unique (ht : σ.TreeAt root) {c d : NodeId} (hc : c ∈ σ.children root)
    (hd : d ∈ σ.children root) (hcy : σ.Reaches c y) (hdy : σ.Reaches d y) : c = d := by
  obtain ⟨slot, hslot⟩ := mem_children.mp hc
  obtain ⟨slot', hslot'⟩ := mem_children.mp hd
  have hlinkc := ht.linked .refl hslot
  have hlinkd := ht.linked .refl hslot'
  -- both ways end with the step from the owner of `y`, until one is at its start
  induction hcy with
  | refl =>
    rcases Relation.ReflTransGen.cases_tail_iff .. |>.mp hdy with heq | ⟨owner, howner, hchild⟩
    · exact heq
    · obtain ⟨s, hs⟩ := mem_children.mp hchild
      have hlink := ht.linked (((Reaches.tail .refl hslot').trans howner)) hs
      rw [hlinkc] at hlink
      obtain ⟨rfl, -⟩ := ParentLink.mk.inj (Option.some.inj hlink)
      exact absurd howner (ht.child_not_reaches_root hd)
  | @tail owner y hcowner hchild ih =>
    obtain ⟨s, hs⟩ := mem_children.mp hchild
    have hlink := ht.linked ((Reaches.tail .refl hslot).trans hcowner) hs
    rcases Relation.ReflTransGen.cases_tail_iff .. |>.mp hdy with rfl | ⟨owner', howner', hchild'⟩
    · rw [hlinkd] at hlink
      obtain ⟨rfl, -⟩ := ParentLink.mk.inj (Option.some.inj hlink)
      exact absurd hcowner (ht.child_not_reaches_root hc)
    · obtain ⟨s', hs'⟩ := mem_children.mp hchild'
      have hlink' := ht.linked ((Reaches.tail .refl hslot').trans howner') hs'
      rw [hlink] at hlink'
      obtain ⟨rfl, -⟩ := ParentLink.mk.inj (Option.some.inj hlink')
      exact ih howner'

/-- A node of a tree has no child twice. -/
lemma nodup_children (ht : σ.TreeAt root) (h : σ.Reaches root x) : (σ.children x).Nodup := by
  obtain ⟨n, hn⟩ := exists_node_iff.mpr (ht.allocated_of_reaches h)
  have hlist : σ.children x = n.payload.kind.slots.flatMap (σ.childrenIn x) := by
    rw [children_of_node? hn, Payload.children_eq_flatMap]
    exact List.flatMap_congr fun slot _ => (childrenIn_of_node? hn slot).symm
  rw [hlist, List.nodup_flatMap]
  refine ⟨fun slot _ => ht.nodup slot h, (Kind.slots_nodup _).imp ?_⟩
  intro slot slot' hne c hc hc'
  have heq := (ht.linked h hc).symm.trans (ht.linked h hc')
  exact hne (congrArg ParentLink.slot (Option.some.inj heq))

end TreeAt

/-! ## Post-order -/

/-- The nodes below a node and the node, children before their owner, at most so many levels
down. -/
def postOrderWithin (σ : Store) : (depth : Nat) → (id : NodeId) → List NodeId
  | 0, _ => []
  | depth + 1, id => (σ.children id).flatMap (σ.postOrderWithin depth) ++ [id]

/-- The nodes of a subtree, children before their owner and slots in traversal order.  No way
down a tree is longer than the store. -/
def postOrder (σ : Store) (id : NodeId) : List NodeId := σ.postOrderWithin σ.size id

/-- Looking deeper than a subtree goes shows the same list. -/
lemma UnfoldsWithin.postOrderWithin_eq {depth deeper : Nat} (h : σ.UnfoldsWithin depth x)
    (hle : depth ≤ deeper) : σ.postOrderWithin deeper x = σ.postOrderWithin depth x := by
  induction depth generalizing x deeper with
  | zero => exact h.elim
  | succ depth ih =>
    obtain ⟨deeper, rfl⟩ : ∃ k, deeper = k + 1 := ⟨deeper - 1, by omega⟩
    unfold postOrderWithin
    congr 1
    exact List.flatMap_congr fun child hchild =>
      ih (h.2 child hchild) (Nat.le_of_succ_le_succ hle)

lemma UnfoldsWithin.mem_postOrderWithin {depth : Nat} (h : σ.UnfoldsWithin depth x) :
    y ∈ σ.postOrderWithin depth x ↔ σ.Reaches x y := by
  induction depth generalizing x with
  | zero => exact h.elim
  | succ depth ih =>
    simp only [postOrderWithin, List.mem_append, List.mem_flatMap, List.mem_singleton]
    constructor
    · rintro (⟨child, hchild, hy⟩ | rfl)
      · exact .head hchild ((ih (h.2 child hchild)).mp hy)
      · exact .refl
    · intro hxy
      rcases Relation.ReflTransGen.cases_head hxy with rfl | ⟨child, hchild, hy⟩
      · exact Or.inr rfl
      · exact Or.inl ⟨child, hchild, (ih (h.2 child hchild)).mpr hy⟩

namespace TreeAt

lemma postOrderWithin_eq (ht : σ.TreeAt x) {depth : Nat} (h : σ.UnfoldsWithin depth x) :
    σ.postOrderWithin depth x = σ.postOrder x := by
  rcases Nat.le_total depth σ.size with hle | hle
  · exact (h.postOrderWithin_eq hle).symm
  · exact ht.unfoldsWithin.postOrderWithin_eq hle

/-- **Post-order: what the children list, slot by slot, and then the node.** -/
theorem postOrder_eq (ht : σ.TreeAt x) :
    σ.postOrder x = (σ.children x).flatMap σ.postOrder ++ [x] := by
  have hunfolds := ht.unfoldsWithin
  obtain ⟨depth, hdepth⟩ : ∃ k, σ.size = k + 1 := by
    have hpos : x.index < σ.size := ht.allocated
    exact ⟨σ.size - 1, by omega⟩
  rw [hdepth] at hunfolds
  rw [← ht.postOrderWithin_eq hunfolds, postOrderWithin]
  congr 1
  refine List.flatMap_congr fun child hchild => ?_
  exact (ht.sub (.single hchild)).postOrderWithin_eq (hunfolds.2 child hchild)

/-- The post-order has the nodes of the subtree. -/
theorem mem_postOrder (ht : σ.TreeAt x) : y ∈ σ.postOrder x ↔ σ.Reaches x y :=
  ht.unfoldsWithin.mem_postOrderWithin

/-- The post-order has no node twice. -/
theorem nodup_postOrder (ht : σ.TreeAt x) : (σ.postOrder x).Nodup := by
  obtain ⟨depth, hdepth⟩ : ∃ depth, σ.UnfoldsWithin depth x := ⟨_, ht.unfoldsWithin⟩
  induction depth generalizing x with
  | zero => exact hdepth.elim
  | succ depth ih =>
    have hsub : ∀ child ∈ σ.children x, σ.TreeAt child := fun child hchild =>
      ht.sub (.single hchild)
    rw [ht.postOrder_eq, List.nodup_append]
    refine ⟨?_, List.nodup_singleton x, ?_⟩
    · rw [List.nodup_flatMap]
      refine ⟨fun child hchild => ih (hsub child hchild) (hdepth.2 child hchild), ?_⟩
      refine (ht.nodup_children .refl).imp_of_mem ?_
      intro c d hc hd hne z hz hz'
      exact hne (ht.child_unique hc hd ((hsub c hc).mem_postOrder.mp hz)
        ((hsub d hd).mem_postOrder.mp hz'))
    · rintro z hz w hw rfl
      obtain rfl := List.mem_singleton.mp hw
      obtain ⟨child, hchild, hz⟩ := List.mem_flatMap.mp hz
      exact ht.child_not_reaches_root hchild ((hsub child hchild).mem_postOrder.mp hz)

/-- A subtree is no larger than its store. -/
lemma length_postOrder_le (ht : σ.TreeAt x) : (σ.postOrder x).length ≤ σ.size :=
  length_le_size_of_nodup ht.nodup_postOrder fun _ hy =>
    ht.allocated_of_reaches (ht.mem_postOrder.mp hy)

end TreeAt

/-! ## Trees in a store that grows -/

namespace TreeAt

variable {τ : Store} (hkept : ∀ id n, σ.node? id = some n → τ.node? id = some n)
include hkept

lemma node?_of_kept (ht : σ.TreeAt root) (hy : σ.Reaches root y) : τ.node? y = σ.node? y := by
  obtain ⟨n, hn⟩ := exists_node_iff.mpr (ht.allocated_of_reaches hy)
  rw [hn, hkept y n hn]

lemma childrenIn_of_kept (ht : σ.TreeAt root) (hy : σ.Reaches root y) (s : Slot) :
    τ.childrenIn y s = σ.childrenIn y s := by
  rw [childrenIn, payload?, ht.node?_of_kept hkept hy, childrenIn, payload?]

/-- Nothing more can be reached from the root of a tree when the store has grown. -/
lemma reaches_of_kept (ht : σ.TreeAt root) (hy : τ.Reaches root y) : σ.Reaches root y := by
  induction hy with
  | refl => exact .refl
  | tail _ hchild ih =>
    obtain ⟨slot, hslot⟩ := mem_children.mp hchild
    rw [ht.childrenIn_of_kept hkept ih] at hslot
    exact ih.tail hslot

lemma of_kept (ht : σ.TreeAt root) : τ.TreeAt root where
  allocated := by
    obtain ⟨n, hn⟩ := exists_node_iff.mpr ht.allocated
    exact allocated_of_node? (hkept root n hn)
  linked := by
    intro owner slot child howner hchild
    have hreach := ht.reaches_of_kept hkept howner
    rw [ht.childrenIn_of_kept hkept hreach] at hchild
    rw [parent?, ht.node?_of_kept hkept (hreach.tail hchild)]
    exact ht.linked hreach hchild
  nodup := by
    intro owner slot howner
    have hreach := ht.reaches_of_kept hkept howner
    rw [ht.childrenIn_of_kept hkept hreach]
    exact ht.nodup slot hreach
  root_not_held := by
    intro owner slot howner
    have hreach := ht.reaches_of_kept hkept howner
    rw [ht.childrenIn_of_kept hkept hreach]
    exact ht.root_not_held hreach

end TreeAt

end DeclTree.Store
