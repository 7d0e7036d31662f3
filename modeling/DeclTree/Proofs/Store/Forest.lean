import Mathlib.Data.List.Nodup
import Mathlib.Data.List.Perm.Subperm
import Mathlib.Logic.Relation
import DeclTree.Proofs.Store.Views
import DeclTree.Store.Descendants

/-!
# Well-formed forests

A store is a forest when its two records of the structure, slots and parent links, tell the same
story and the story has no circle in it.  `Store.Forest` is the invariant that all edits keep.

The main statement about a forest alone is `Forest.mem_ancestors_iff`: looking at as many owners
as there are nodes finds every owner above a node, because a chain of parent links meets no node
twice.
-/

namespace DeclTree.Store

/-- The parent link of the child names the owner. -/
def OwnedBy (σ : Store) (child owner : NodeId) : Prop :=
  ∃ slot, σ.parent? child = some ⟨owner, slot⟩

/-- The node lies under the ancestor: a chain of parent links leads up to it. -/
def Under (σ : Store) : (id ancestor : NodeId) → Prop := Relation.TransGen σ.OwnedBy

/-- Slots and parent links describe one forest. -/
structure Forest (σ : Store) : Prop where
  /-- What a slot holds is a node of a kind that the slot admits. -/
  admitted : ∀ {owner slot child}, child ∈ σ.childrenIn owner slot →
    ∃ n, σ.node? child = some n ∧ slot.admits n.kind = true
  /-- The parent link of a child names the slot that holds it. -/
  linked : ∀ {owner slot child}, child ∈ σ.childrenIn owner slot →
    σ.parent? child = some ⟨owner, slot⟩
  /-- A slot holds a child once. -/
  nodup : ∀ owner slot, (σ.childrenIn owner slot).Nodup
  /-- A node with a parent link is held by the slot that the link names. -/
  held : ∀ {child link}, σ.parent? child = some link → child ∈ σ.childrenIn link.owner link.slot
  /-- No node lies under itself. -/
  acyclic : ∀ id, ¬ σ.Under id id

variable {σ : Store} {x y : NodeId}

lemma forest_empty : Store.empty.Forest where
  admitted := fun h => absurd h List.not_mem_nil
  linked := fun h => absurd h List.not_mem_nil
  nodup := fun _ _ => List.nodup_nil
  held := fun h => nomatch h
  acyclic := by
    intro id h
    obtain ⟨owner, ⟨slot, hslot⟩, -⟩ := Relation.TransGen.head'_iff.mp h
    exact nomatch hslot

/-- A linked node stands at one position at most. -/
lemma position_unique_of_linked {o₁ o₂ : NodeId} {s₁ s₂ : Slot} {k₁ k₂ : Nat}
    (hlink₁ : σ.parent? x = some ⟨o₁, s₁⟩) (hlink₂ : σ.parent? x = some ⟨o₂, s₂⟩)
    (hnodup : (σ.childrenIn o₁ s₁).Nodup) (h₁ : (σ.childrenIn o₁ s₁)[k₁]? = some x)
    (h₂ : (σ.childrenIn o₂ s₂)[k₂]? = some x) : o₁ = o₂ ∧ s₁ = s₂ ∧ k₁ = k₂ := by
  rw [hlink₁] at hlink₂
  obtain ⟨rfl, rfl⟩ := ParentLink.mk.inj (Option.some.inj hlink₂)
  obtain ⟨hlt₁, hget₁⟩ := List.getElem?_eq_some_iff.mp h₁
  obtain ⟨hlt₂, hget₂⟩ := List.getElem?_eq_some_iff.mp h₂
  exact ⟨rfl, rfl, (List.Nodup.getElem_inj_iff hnodup).mp (hget₁.trans hget₂.symm)⟩

namespace Forest

/-- An identifier stands at one position of one slot of the whole store at most. -/
lemma position_unique (hf : σ.Forest) {o₁ o₂ : NodeId} {s₁ s₂ : Slot} {k₁ k₂ : Nat}
    (h₁ : (σ.childrenIn o₁ s₁)[k₁]? = some x) (h₂ : (σ.childrenIn o₂ s₂)[k₂]? = some x) :
    o₁ = o₂ ∧ s₁ = s₂ ∧ k₁ = k₂ :=
  position_unique_of_linked (hf.linked (List.mem_of_getElem? h₁))
    (hf.linked (List.mem_of_getElem? h₂)) (hf.nodup o₁ s₁) h₁ h₂

/-- The owner that a parent link names is a node. -/
lemma allocated_owner (hf : σ.Forest) {link : ParentLink} (h : σ.parent? x = some link) :
    σ.Allocated link.owner := by
  obtain ⟨n, hn, -⟩ := exists_node_of_mem_childrenIn (hf.held h)
  exact allocated_of_node? hn

/-- What a slot holds is a node. -/
lemma allocated_held (hf : σ.Forest) {slot : Slot} (h : y ∈ σ.childrenIn x slot) :
    σ.Allocated y := by
  obtain ⟨n, hn, -⟩ := hf.admitted h
  exact allocated_of_node? hn

lemma allocated_of_mem_children (hf : σ.Forest) (h : y ∈ σ.children x) : σ.Allocated y := by
  obtain ⟨slot, hslot⟩ := mem_children.mp h
  exact hf.allocated_held hslot

/-- A compilation unit is never attached: no slot admits it. -/
lemma unattached_of_compilationUnit (hf : σ.Forest) (h : σ.kind? x = some .compilationUnit) :
    σ.parent? x = none := by
  cases hp : σ.parent? x with
  | none => rfl
  | some link =>
    obtain ⟨n, hn, hadmits⟩ := hf.admitted (hf.held hp)
    have hkind : n.kind = .compilationUnit := by simpa [kind?, hn] using h
    rw [hkind, Slot.not_admits_compilationUnit] at hadmits
    exact absurd hadmits (by decide)

end Forest

/-! ## Chains of owners -/

/-- Different nodes of a store are no more than its size. -/
lemma length_le_size_of_nodup {ids : List NodeId} (hnodup : ids.Nodup)
    (halloc : ∀ id ∈ ids, σ.Allocated id) : ids.length ≤ σ.size := by
  have hsub : ids ⊆ σ.ids := fun id hid => mem_ids.mpr (halloc id hid)
  calc ids.length ≤ σ.ids.length := (List.Nodup.subperm hnodup hsub).length_le
    _ = σ.size := by simp [Store.ids]

lemma under_of_mem_ownersAbove {k : Nat} (h : y ∈ σ.ownersAbove k x) : σ.Under x y := by
  induction k generalizing x with
  | zero => simp [ownersAbove] at h
  | succ k ih =>
    cases hp : σ.parent? x with
    | none => simp [ownersAbove, hp] at h
    | some link =>
      have hstep : σ.OwnedBy x link.owner := ⟨link.slot, hp⟩
      simp only [ownersAbove, hp, List.mem_cons] at h
      rcases h with rfl | h
      · exact .single hstep
      · exact .head hstep (ih h)

/-- A chain that is looked at for `k` steps either shows the ancestor or is `k` owners long. -/
lemma mem_ownersAbove_or_length {k : Nat} (h : σ.Under x y) :
    y ∈ σ.ownersAbove k x ∨ (σ.ownersAbove k x).length = k := by
  induction k generalizing x with
  | zero => exact Or.inr rfl
  | succ k ih =>
    obtain ⟨owner, ⟨slot, hslot⟩, hrest⟩ := Relation.TransGen.head'_iff.mp h
    -- the ancestor is the next owner, or the search goes on from that
    simp only [ownersAbove, hslot, List.mem_cons, List.length_cons, Nat.add_right_cancel_iff]
    rcases Relation.reflTransGen_iff_eq_or_transGen.mp hrest with rfl | habove
    · exact Or.inl (Or.inl rfl)
    · rcases ih habove with hmem | hlen
      · exact Or.inl (Or.inr hmem)
      · exact Or.inr hlen

/-- What lies above an unattached node is nothing. -/
lemma ancestors_eq_nil (h : σ.parent? x = none) : σ.ancestors x = [] := by
  unfold ancestors
  cases σ.size with
  | zero => rfl
  | succ steps => rw [ownersAbove, h]

/-- Owners are the same where the parent links on the way up are. -/
lemma ownersAbove_congr {τ : Store} {k : Nat}
    (h : ∀ y, Relation.ReflTransGen σ.OwnedBy x y → τ.parent? y = σ.parent? y) :
    τ.ownersAbove k x = σ.ownersAbove k x := by
  induction k generalizing x with
  | zero => rfl
  | succ k ih =>
    rw [ownersAbove, ownersAbove, h x .refl]
    cases hp : σ.parent? x with
    | none => rfl
    | some link =>
      have hstep : σ.OwnedBy x link.owner := ⟨link.slot, hp⟩
      exact congrArg _ (ih fun y hy => h y (.head hstep hy))

namespace Forest

lemma nodup_ownersAbove (hf : σ.Forest) (k : Nat) (x : NodeId) :
    (x :: σ.ownersAbove k x).Nodup := by
  induction k generalizing x with
  | zero => simp [ownersAbove]
  | succ k ih =>
    refine List.nodup_cons.mpr ⟨fun hmem => hf.acyclic x (under_of_mem_ownersAbove hmem), ?_⟩
    cases hp : σ.parent? x with
    | none => simp [ownersAbove, hp]
    | some link => simpa [ownersAbove, hp] using ih link.owner

/-- What lies above a node is a node. -/
lemma allocated_of_under (hf : σ.Forest) (h : σ.Under x y) : σ.Allocated y := by
  obtain ⟨c, -, slot, hslot⟩ := Relation.TransGen.tail'_iff.mp h
  exact hf.allocated_owner hslot

/-- **The owners above a node are all found within as many steps as there are nodes.** -/
theorem mem_ancestors_iff (hf : σ.Forest) : y ∈ σ.ancestors x ↔ σ.Under x y := by
  refine ⟨under_of_mem_ownersAbove, fun h => ?_⟩
  rcases mem_ownersAbove_or_length (k := σ.size) h with hmem | hlen
  · exact hmem
  · -- a chain as long as the store and the node below it would be one node too many
    exfalso
    obtain ⟨owner, ⟨slot, hslot⟩, -⟩ := Relation.TransGen.head'_iff.mp h
    obtain ⟨n, hn, -⟩ := exists_node_of_parent? hslot
    have hbound := length_le_size_of_nodup (σ := σ) (hf.nodup_ownersAbove σ.size x) (by
      intro id hid
      rcases List.mem_cons.mp hid with rfl | hid
      · exact allocated_of_node? hn
      · exact hf.allocated_of_under (under_of_mem_ownersAbove hid))
    rw [List.length_cons, hlen] at hbound
    omega

end Forest

end DeclTree.Store
