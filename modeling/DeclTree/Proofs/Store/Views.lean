import Mathlib.Tactic.Lemma
import DeclTree.Proofs.Slots
import DeclTree.Store.Lookup

/-!
# Stores seen through slots and parent links

What the primitive writes of a store do to the three views in which everything else is said:
the children in a slot, the parent link of a node, and the scalar fields and the span of a node.

`Store.Extends` is the frame that all changes of a store keep: no node is lost, and none changes
its kind or span.  `Store.Retains` is the closer frame of the changes that move children only.
-/

namespace DeclTree.Store

variable {σ τ : Store} {id o c : NodeId} {s : Slot} {n : Node}

/-! ## The views of one node -/

lemma exists_node_iff : (∃ n, σ.node? id = some n) ↔ σ.Allocated id := by
  constructor
  · rintro ⟨n, hn⟩
    exact allocated_of_node? hn
  · intro h
    cases hn : σ.node? id with
    | none => exact absurd h (node?_eq_none_iff.mp hn)
    | some n => exact ⟨n, rfl⟩

lemma childrenIn_of_node? (h : σ.node? o = some n) (s : Slot) :
    σ.childrenIn o s = n.payload.childrenIn s := by
  simp [childrenIn, payload?, h]

lemma children_of_node? (h : σ.node? o = some n) : σ.children o = n.payload.children := by
  simp [children, payload?, h]

lemma parent?_of_node? (h : σ.node? c = some n) : σ.parent? c = n.parent := by
  simp [parent?, h]

lemma exists_node_of_mem_childrenIn (h : c ∈ σ.childrenIn o s) :
    ∃ n, σ.node? o = some n ∧ c ∈ n.payload.childrenIn s := by
  cases hn : σ.node? o with
  | none => simp [childrenIn, payload?, hn] at h
  | some n => exact ⟨n, rfl, by rwa [childrenIn_of_node? hn] at h⟩

lemma exists_node_of_parent? {link : ParentLink} (h : σ.parent? c = some link) :
    ∃ n, σ.node? c = some n ∧ n.parent = some link := by
  cases hn : σ.node? c with
  | none => simp [parent?, hn] at h
  | some n => exact ⟨n, rfl, by rwa [parent?_of_node? hn] at h⟩

lemma mem_children : c ∈ σ.children o ↔ ∃ s, c ∈ σ.childrenIn o s := by
  cases hn : σ.node? o with
  | none => simp [children, childrenIn, payload?, hn]
  | some n =>
    rw [children_of_node? hn, Payload.mem_children]
    simp only [childrenIn_of_node? hn]

lemma slotContent_eq_ok_iff {content : SlotContent} :
    σ.slotContent o s = .ok content ↔
      ∃ n, σ.node? o = some n ∧ n.payload.slot? s = some content := by
  unfold slotContent node
  cases hn : σ.node? o with
  | none => simp [bind, Except.bind]
  | some n => cases hs : n.payload.slot? s <;> simp [bind, Except.bind, hs]

lemma childrenIn_of_slotContent {content : SlotContent} (h : σ.slotContent o s = .ok content) :
    σ.childrenIn o s = content.toList := by
  obtain ⟨n, hn, hs⟩ := slotContent_eq_ok_iff.mp h
  rw [childrenIn_of_node? hn, Payload.childrenIn_of_slot? hs]

lemma sequenceIn_of_slotContent {children : List NodeId}
    (h : σ.slotContent o s = .ok (.list children)) : σ.sequenceIn o s = .ok children := by
  rw [sequenceIn, h]
  rfl

lemma occupantOf_of_slotContent {child : Option NodeId}
    (h : σ.slotContent o s = .ok (.link child)) : σ.occupantOf o s = .ok child := by
  rw [occupantOf, h]
  rfl

lemma ext_node? (h : ∀ id, σ.node? id = τ.node? id) : σ = τ := by
  obtain ⟨nodes, _⟩ := σ
  obtain ⟨nodes', _⟩ := τ
  obtain rfl : nodes = nodes' := Array.ext_getElem? fun i => h ⟨i⟩
  rfl

/-! ## Frames -/

/-- No node is lost, and none changes its kind or span. -/
def Extends (σ τ : Store) : Prop :=
  ∀ id n, σ.node? id = some n → ∃ m, τ.node? id = some m ∧ m.kind = n.kind ∧ m.span = n.span

/-- No node is lost, and none changes its scalar fields or span. -/
def Retains (σ τ : Store) : Prop :=
  ∀ id n, σ.node? id = some n →
    ∃ m, τ.node? id = some m ∧ n.payload.sameScalars m.payload = true ∧ m.span = n.span

lemma Extends.refl (σ : Store) : σ.Extends σ :=
  fun _ n hn => ⟨n, hn, rfl, rfl⟩

lemma Extends.trans {υ : Store} (h₁ : σ.Extends τ) (h₂ : τ.Extends υ) : σ.Extends υ := by
  intro id n hn
  obtain ⟨m, hm, hkind, hspan⟩ := h₁ id n hn
  obtain ⟨k, hk, hkind', hspan'⟩ := h₂ id m hm
  exact ⟨k, hk, hkind'.trans hkind, hspan'.trans hspan⟩

lemma Retains.refl (σ : Store) : σ.Retains σ :=
  fun _ n hn => ⟨n, hn, Payload.sameScalars_refl _, rfl⟩

lemma Retains.trans {υ : Store} (h₁ : σ.Retains τ) (h₂ : τ.Retains υ) : σ.Retains υ := by
  intro id n hn
  obtain ⟨m, hm, hsame, hspan⟩ := h₁ id n hn
  obtain ⟨k, hk, hsame', hspan'⟩ := h₂ id m hm
  exact ⟨k, hk, Payload.sameScalars_trans hsame hsame', hspan'.trans hspan⟩

lemma retains_of_kept (h : ∀ id n, σ.node? id = some n → τ.node? id = some n) : σ.Retains τ :=
  fun id n hn => ⟨n, h id n hn, Payload.sameScalars_refl _, rfl⟩

lemma Retains.extends (h : σ.Retains τ) : σ.Extends τ := by
  intro id n hn
  obtain ⟨m, hm, hsame, hspan⟩ := h id n hn
  exact ⟨m, hm, Payload.kind_eq_of_sameScalars hsame, hspan⟩

/-! ## Changing one node -/

section Modify

variable {f : Node → Node}

/-- A change of one node that keeps its scalar fields and span keeps those of all. -/
lemma retains_modify
    (hf : ∀ n, n.payload.sameScalars (f n).payload = true ∧ (f n).span = n.span) (id : NodeId) :
    σ.Retains (σ.modify id f) := by
  intro other n hn
  rw [node?_modify]
  by_cases h : id = other
  · exact ⟨f n, by simp [h, hn], hf n⟩
  · exact ⟨n, by simp [h, hn], Payload.sameScalars_refl _, rfl⟩

/-- A change of one node that keeps its parent link keeps all of them. -/
lemma parent?_modify (hf : ∀ n, (f n).parent = n.parent) (id other : NodeId) :
    (σ.modify id f).parent? other = σ.parent? other := by
  rw [parent?, node?_modify, parent?]
  by_cases h : id = other
  · cases σ.node? other <;> simp [h, hf]
  · simp [h]

/-- A change of one node that keeps its slots keeps all of them. -/
lemma childrenIn_modify {id : NodeId}
    (hf : ∀ n, σ.node? id = some n → ∀ s, (f n).payload.childrenIn s = n.payload.childrenIn s)
    (o : NodeId) (s : Slot) : (σ.modify id f).childrenIn o s = σ.childrenIn o s := by
  rw [childrenIn, payload?, node?_modify, childrenIn, payload?]
  by_cases h : id = o
  · subst h
    cases hn : σ.node? id with
    | none => simp
    | some n => simp [hf n hn]
  · simp [h]

end Modify

/-! ## Writing parent links -/

section SetParent

variable (σ : Store) (id : NodeId) (link : Option ParentLink)

lemma node?_setParent (other : NodeId) :
    (σ.setParent id link).node? other =
      if id = other then (σ.node? other).map fun n => { n with parent := link }
      else σ.node? other :=
  node?_modify σ id other _

@[simp] lemma size_setParent : (σ.setParent id link).size = σ.size :=
  size_modify σ id _

@[simp] lemma childrenIn_setParent (o : NodeId) (s : Slot) :
    (σ.setParent id link).childrenIn o s = σ.childrenIn o s := by
  refine childrenIn_modify (fun n _ t => ?_) o s
  rfl

lemma parent?_setParent (other : NodeId) :
    (σ.setParent id link).parent? other =
      if id = other ∧ σ.Allocated other then link else σ.parent? other := by
  rw [parent?, node?_setParent, parent?]
  by_cases h : id = other
  · cases hn : σ.node? other with
    | none => simp [node?_eq_none_iff.mp hn]
    | some n => simp [h, allocated_of_node? hn]
  · simp [h]

lemma retains_setParent : σ.Retains (σ.setParent id link) := by
  refine retains_modify (fun n => ?_) id
  exact ⟨Payload.sameScalars_refl n.payload, rfl⟩

variable (ids : List NodeId)

@[simp] lemma size_setParents : (σ.setParents ids link).size = σ.size := by
  induction ids generalizing σ with
  | nil => rfl
  | cons id ids ih => exact (ih (σ.setParent id link)).trans (size_setParent σ id link)

@[simp] lemma childrenIn_setParents (o : NodeId) (s : Slot) :
    (σ.setParents ids link).childrenIn o s = σ.childrenIn o s := by
  induction ids generalizing σ with
  | nil => rfl
  | cons id ids ih => exact (ih (σ.setParent id link)).trans (childrenIn_setParent σ id link o s)

lemma parent?_setParents (other : NodeId) :
    (σ.setParents ids link).parent? other =
      if other ∈ ids ∧ σ.Allocated other then link else σ.parent? other := by
  induction ids generalizing σ with
  | nil => simp [setParents]
  | cons id ids ih =>
    have hstep : (σ.setParents (id :: ids) link).parent? other =
        ((σ.setParent id link).setParents ids link).parent? other := rfl
    have halloc : (σ.setParent id link).Allocated other ↔ σ.Allocated other := by
      simp [Allocated]
    -- the first write shows exactly where no later one covers it
    rw [hstep, ih, parent?_setParent]
    simp only [halloc, List.mem_cons]
    by_cases hmem : other ∈ ids
    · by_cases ha : σ.Allocated other <;> simp [hmem, ha]
    · by_cases ha : σ.Allocated other <;> simp [hmem, ha, eq_comm]

lemma retains_setParents : σ.Retains (σ.setParents ids link) := by
  induction ids generalizing σ with
  | nil => exact Retains.refl σ
  | cons id ids ih => exact (retains_setParent σ id link).trans (ih (σ.setParent id link))

end SetParent

/-! ## Writing slots -/

section SetSlot

variable (σ : Store) (o : NodeId) (s : Slot) (content : SlotContent)

@[simp] lemma size_setSlot : (σ.setSlot o s content).size = σ.size :=
  size_modify σ o _

@[simp] lemma parent?_setSlot (other : NodeId) :
    (σ.setSlot o s content).parent? other = σ.parent? other := by
  refine parent?_modify (fun n => ?_) o other
  rfl

lemma retains_setSlot : σ.Retains (σ.setSlot o s content) := by
  refine retains_modify (fun n => ?_) o
  exact ⟨Payload.sameScalars_setSlot n.payload s content, rfl⟩

/-- A slot that is written with a content of its shape is read back; other slots stay. -/
lemma childrenIn_setSlot {before : SlotContent} (h : σ.slotContent o s = .ok before)
    (shape : before.sameShape content = true) (o' : NodeId) (s' : Slot) :
    (σ.setSlot o s content).childrenIn o' s' =
      if o' = o ∧ s' = s then content.toList else σ.childrenIn o' s' := by
  obtain ⟨n, hn, hs⟩ := slotContent_eq_ok_iff.mp h
  by_cases ho : o = o'
  · subst ho
    have hnode : (σ.setSlot o s content).node? o =
        some { n with payload := n.payload.setSlot s content } := by
      simp [setSlot, node?_modify, hn]
    rw [childrenIn_of_node? hnode, Payload.childrenIn_setSlot hs shape, childrenIn_of_node? hn]
    simp
  · have hnode : (σ.setSlot o s content).node? o' = σ.node? o' := by
      simp [setSlot, node?_modify, ho]
    have hne : ¬ (o' = o ∧ s' = s) := fun hc => ho hc.1.symm
    rw [if_neg hne]
    unfold childrenIn payload?
    rw [hnode]

end SetSlot

/-- Writing what a slot holds already changes nothing. -/
lemma setSlot_self {σ : Store} {o : NodeId} {s : Slot} {content : SlotContent}
    (h : σ.slotContent o s = .ok content) : σ.setSlot o s content = σ := by
  obtain ⟨n, hn, hslot⟩ := slotContent_eq_ok_iff.mp h
  refine ext_node? fun id => ?_
  rw [setSlot, node?_modify]
  split_ifs with hid
  · subst hid
    rw [hn, Option.map_some, Payload.setSlot_self hslot]
  · rfl

/-! ## What the writes leave alone -/

@[simp] lemma kind?_setParent (σ : Store) (c : NodeId) (link : Option ParentLink) (id : NodeId) :
    (σ.setParent c link).kind? id = σ.kind? id := by
  rw [kind?, node?_setParent, kind?]
  split_ifs
  · rw [Option.map_map]
    rfl
  · rfl

@[simp] lemma kind?_setSlot (σ : Store) (o : NodeId) (s : Slot) (content : SlotContent)
    (id : NodeId) : (σ.setSlot o s content).kind? id = σ.kind? id := by
  rw [kind?, setSlot, node?_modify, kind?]
  split_ifs
  · rw [Option.map_map]
    refine Option.map_congr fun n _ => ?_
    exact Payload.kind_eq_of_sameScalars (Payload.sameScalars_setSlot n.payload s content)
  · rfl

@[simp] lemma slotContent_setParent (σ : Store) (c : NodeId) (link : Option ParentLink)
    (o : NodeId) (s : Slot) : (σ.setParent c link).slotContent o s = σ.slotContent o s := by
  unfold slotContent node
  rw [node?_setParent]
  split_ifs
  · cases σ.node? o <;> rfl
  · rfl

lemma slotContent_setSlot {before content : SlotContent} (h : σ.slotContent o s = .ok before)
    (shape : before.sameShape content = true) :
    (σ.setSlot o s content).slotContent o s = .ok content := by
  obtain ⟨n, hn, hslot⟩ := slotContent_eq_ok_iff.mp h
  refine slotContent_eq_ok_iff.mpr ⟨{ n with payload := n.payload.setSlot s content }, ?_, ?_⟩
  · rw [setSlot, node?_modify, if_pos rfl, hn]
    rfl
  · rw [Payload.slot?_setSlot hslot shape, if_pos rfl]

/-! ## Writes that follow each other -/

section Writes

variable (σ : Store) (o c : NodeId) (s : Slot) (link link' : Option ParentLink)

/-- Slots and parent links are written independently. -/
lemma setSlot_setParent (content : SlotContent) :
    (σ.setParent c link).setSlot o s content = (σ.setSlot o s content).setParent c link := by
  refine ext_node? fun id => ?_
  simp only [setSlot, setParent, node?_modify]
  by_cases ho : o = id <;> by_cases hc : c = id <;> simp [ho, hc, Option.map_map,
    Function.comp_def]

/-- Of two contents of one shape that are written one after the other, the second stays. -/
lemma setSlot_setSlot {first second : SlotContent} (shape : first.sameShape second = true) :
    (σ.setSlot o s first).setSlot o s second = σ.setSlot o s second := by
  refine ext_node? fun id => ?_
  simp only [setSlot, node?_modify]
  by_cases ho : o = id <;> simp [ho, Option.map_map, Function.comp_def,
    Payload.setSlot_setSlot shape]

/-- Of two parent links that are written one after the other, the second stays. -/
lemma setParent_setParent : (σ.setParent c link).setParent c link' = σ.setParent c link' := by
  refine ext_node? fun id => ?_
  simp only [setParent, node?_modify]
  by_cases hc : c = id <;> simp [hc, Option.map_map, Function.comp_def]

/-- Writing the parent link that a node has already changes nothing. -/
lemma setParent_self : σ.setParent c (σ.parent? c) = σ := by
  refine ext_node? fun id => ?_
  rw [node?_setParent]
  split_ifs with hc
  · subst hc
    cases hn : σ.node? c with
    | none => rfl
    | some n => rw [parent?_of_node? hn]; rfl
  · rfl

end Writes

/-! ## New nodes -/

lemma node?_nextId (σ : Store) : σ.node? σ.nextId = none :=
  node?_eq_none_iff.mpr (Nat.lt_irrefl _)

/-- A new node leaves the others as they are. -/
lemma node?_push_of_node? {id : NodeId} {m : Node} (n : Node) (room : σ.HasRoom 1)
    (hm : σ.node? id = some m) : (σ.push n room).node? id = some m := by
  have hne : id ≠ σ.nextId := by
    rintro rfl
    exact absurd (allocated_of_node? hm) (Nat.lt_irrefl _)
  rw [node?_push, if_neg hne, hm]

lemma retains_push (σ : Store) (n : Node) (room : σ.HasRoom 1) : σ.Retains (σ.push n room) :=
  retains_of_kept fun _ _ hm => node?_push_of_node? n room hm

lemma childrenIn_push (σ : Store) (n : Node) (room : σ.HasRoom 1) (o : NodeId) (s : Slot) :
    (σ.push n room).childrenIn o s = if o = σ.nextId then n.payload.childrenIn s
      else σ.childrenIn o s := by
  rw [childrenIn, payload?, node?_push]
  split_ifs <;> rfl

end DeclTree.Store
