import DeclTree.Proofs.Store.Mirrors
import DeclTree.CompilationUnit.Copy

/-!
# A tree rebuilt under a new root

A unit is copied by copying the children of its root, one after the other, and attaching each copy
to a new root.  `CompilationUnit.Grafted` is what holds after some of the children: their subtrees
stand behind the new root in the order in which they were copied, and they are complete, links to
the root included.  `Copiable.copySlots` is the run over all slots, and `Grafted.mirrors` says of
its result that the new tree mirrors the old one from the root down.

What a tree needs for this is little, `CompilationUnit.Copiable`: nothing is asked of the nodes that
are not below the root.
-/

namespace DeclTree.CompilationUnit

open Store

variable {ρ τ : Store} {s : Slot} {c y z : NodeId}

/-! ## The tree to copy -/

/-- The tree below the root can be copied under another root. -/
structure Copiable (ρ : Store) : Prop where
  treeAt : ρ.TreeAt root
  kind_eq : ρ.kind? root = some .compilationUnit
  /-- The slots of the root admit what they hold. -/
  admitted : ∀ {s c}, c ∈ ρ.childrenIn root s →
    ∃ n, ρ.node? c = some n ∧ s.admits n.kind = true

/-- The children in the given slots of the root, each with its slot. -/
def childrenBySlot (ρ : Store) (slots : List Slot) : List (Slot × NodeId) :=
  slots.flatMap fun s => (ρ.childrenIn root s).map fun c => (s, c)

/-- The children of the root, in the order in which they are copied. -/
def rootChildren (ρ : Store) : List (Slot × NodeId) :=
  childrenBySlot ρ Kind.compilationUnit.slots

/-- The nodes of the new tree when the given children are copied: the root, and then the subtrees
of the children. -/
def copyOrder (ρ : Store) (done : List (Slot × NodeId)) : List NodeId :=
  root :: done.flatMap fun entry => ρ.postOrder entry.2

/-- The identifier of the copy of a node in the new tree. -/
def twin (ρ : Store) : NodeId → NodeId := copyId 0 (copyOrder ρ (rootChildren ρ))

/-- Those of the children that stand in the slot. -/
def heldIn (s : Slot) (done : List (Slot × NodeId)) : List NodeId :=
  (done.filter fun entry => entry.1 = s).map Prod.snd

@[simp] lemma twin_root (ρ : Store) : twin ρ root = root := by
  simp [twin, copyOrder, copyId, root]

lemma heldIn_append (s : Slot) (done done' : List (Slot × NodeId)) :
    heldIn s (done ++ done') = heldIn s done ++ heldIn s done' := by
  simp [heldIn]

/-- Each slot gets the children that it has. -/
lemma heldIn_rootChildren (ρ : Store) (hs : s ∈ Kind.compilationUnit.slots) :
    heldIn s (rootChildren ρ) = ρ.childrenIn root s := by
  simp only [rootChildren, childrenBySlot, Kind.slots, List.flatMap_cons, List.flatMap_nil,
    heldIn_append]
  cases s <;> simp_all [Kind.slots, heldIn, List.filter_map, Function.comp_def]

lemma heldIn_childrenBySlot_of_not_mem {slots : List Slot} (hs : s ∉ slots) :
    heldIn s (childrenBySlot ρ slots) = [] := by
  rw [heldIn, List.map_eq_nil_iff, List.filter_eq_nil_iff]
  intro entry hentry
  obtain ⟨t, ht, hc⟩ := List.mem_flatMap.mp hentry
  obtain ⟨c, -, rfl⟩ := List.mem_map.mp hc
  have hne : t ≠ s := fun heq => hs (heq ▸ ht)
  simpa using hne

namespace Copiable

variable (h : Copiable ρ)
include h

lemma exists_root : ∃ n, ρ.node? root = some n ∧ n.payload.kind = .compilationUnit := by
  have hkind := h.kind_eq
  rw [kind?] at hkind
  exact Option.map_eq_some_iff.mp hkind

lemma slotChildren_root (hs : s ∈ Kind.compilationUnit.slots) :
    ρ.slotChildren root s = .ok (ρ.childrenIn root s) := by
  obtain ⟨n, hn, hkind⟩ := h.exists_root
  obtain ⟨content, hcontent⟩ := Option.isSome_iff_exists.mp
    (Payload.slot?_isSome_iff.mpr (hkind ▸ hs : s ∈ n.payload.kind.slots))
  have hslot := slotContent_eq_ok_iff.mpr ⟨n, hn, hcontent⟩
  rw [slotChildren, hslot, childrenIn_of_slotContent hslot]
  rfl

lemma mem_slots (hc : c ∈ ρ.childrenIn root s) : s ∈ Kind.compilationUnit.slots := by
  obtain ⟨n, hn, hkind⟩ := h.exists_root
  rw [childrenIn_of_node? hn] at hc
  rw [← hkind]
  exact Payload.mem_slots_of_mem_childrenIn hc

lemma rootChildren_map_snd : (rootChildren ρ).map Prod.snd = ρ.children root := by
  obtain ⟨n, hn, hkind⟩ := h.exists_root
  have hslots : Kind.compilationUnit.slots = n.payload.kind.slots := by rw [hkind]
  rw [children_of_node? hn, Payload.children, Payload.slotChildren, rootChildren,
    childrenBySlot, hslots]
  congr 1
  exact List.flatMap_congr fun s _ => by rw [childrenIn_of_node? hn]

/-- The new tree gets the nodes of the old one. -/
lemma copyOrder_perm : (copyOrder ρ (rootChildren ρ)).Perm (ρ.postOrder root) := by
  have hbelow : (rootChildren ρ).flatMap (fun entry => ρ.postOrder entry.2) =
      (ρ.children root).flatMap ρ.postOrder := by
    rw [← h.rootChildren_map_snd, List.flatMap_map]
  rw [copyOrder, hbelow, h.treeAt.postOrder_eq]
  exact (List.perm_append_singleton root _).symm

lemma nodup_copyOrder : (copyOrder ρ (rootChildren ρ)).Nodup :=
  h.copyOrder_perm.nodup_iff.mpr h.treeAt.nodup_postOrder

lemma mem_copyOrder : y ∈ copyOrder ρ (rootChildren ρ) ↔ ρ.Reaches root y := by
  rw [h.copyOrder_perm.mem_iff, h.treeAt.mem_postOrder]

lemma twin_inj (hy : ρ.Reaches root y) (heq : twin ρ y = twin ρ z) : y = z :=
  copyId_inj (h.mem_copyOrder.mpr hy) heq

lemma twin_ne_root (hy : ρ.Reaches root y) (hne : y ≠ root) : twin ρ y ≠ root := fun heq =>
  hne (h.twin_inj hy (heq.trans (twin_root ρ).symm))

end Copiable

/-! ## Some of the children copied -/

/-- `τ` is the new tree when the given children are copied. -/
structure Grafted (ρ : Store) (done : List (Slot × NodeId)) (τ : Store) : Prop where
  size_eq : τ.size = (copyOrder ρ done).length
  /-- The slots of the new root hold the copies. -/
  root_eq : ∃ p, τ.node? root = some ⟨p, .dummy, none⟩ ∧ p.kind = .compilationUnit ∧
    ∀ s, p.childrenIn s = (heldIn s done).map (twin ρ)
  /-- All other nodes are complete copies. -/
  copied : ∀ y ∈ copyOrder ρ done, y ≠ root →
    ∃ n, ρ.node? y = some n ∧ τ.node? (twin ρ y) = some (n.mapIds (twin ρ))

lemma grafted_emptyTree (ρ : Store) : Grafted ρ [] emptyTree where
  size_eq := rfl
  root_eq := ⟨.compilationUnit .empty, rfl, rfl, fun s => by cases s <;> rfl⟩
  copied := fun _ hy hne => absurd (List.mem_singleton.mp hy) hne

/-- An empty slot for one child. -/
lemma Grafted.slotContent_of_empty {done : List (Slot × NodeId)} (hτ : Grafted ρ done τ)
    (hs : s ∈ Kind.compilationUnit.slots) (hlink : ¬ s.isList = true)
    (hempty : heldIn s done = []) : τ.slotContent root s = .ok (.link none) := by
  obtain ⟨p, hp, hkind, hheld⟩ := hτ.root_eq
  obtain ⟨child, hslot, hchild⟩ := Payload.slot?_of_not_isList (hkind ▸ hs : s ∈ p.kind.slots) hlink
  rw [hheld, hempty] at hchild
  obtain rfl : child = none := by simpa using hchild.symm
  exact slotContent_eq_ok_iff.mpr ⟨_, hp, hslot⟩

section Step

variable {done rest : List (Slot × NodeId)} {grown : Store}
  (hrest : rootChildren ρ = done ++ (s, c) :: rest)
include hrest

lemma copyOrder_eq : copyOrder ρ (rootChildren ρ) =
    copyOrder ρ done ++ (ρ.postOrder c ++ rest.flatMap fun entry => ρ.postOrder entry.2) := by
  rw [hrest]
  simp [copyOrder]

lemma mem_childrenIn_of_rootChildren : c ∈ ρ.childrenIn root s := by
  have hmem : (s, c) ∈ rootChildren ρ := by
    rw [hrest]
    simp
  obtain ⟨t, -, ht⟩ := List.mem_flatMap.mp hmem
  obtain ⟨d, hd, heq⟩ := List.mem_map.mp ht
  obtain ⟨rfl, rfl⟩ := Prod.mk.inj heq
  exact hd

variable (h : Copiable ρ)
include h

/-- The next child is copied to where its twin is. -/
lemma copyId_eq_twin (hτ : Grafted ρ done τ) (hy : y ∈ ρ.postOrder c) :
    copyId τ.size (ρ.postOrder c) y = twin ρ y := by
  have hnodup := h.nodup_copyOrder
  rw [copyOrder_eq hrest] at hnodup
  have hfresh : y ∉ copyOrder ρ done := fun hmem =>
    (List.nodup_append.mp hnodup).2.2 y hmem y (List.mem_append_left _ hy) rfl
  rw [twin, copyOrder_eq hrest, copyId_append_right hfresh, copyId_append_left hy, ← hτ.size_eq,
    Nat.zero_add]

/-- The copy of the next child may be attached to the new root. -/
lemma attachable_copy (hτ : Grafted ρ done τ)
    (hcopies : ρ.Copies [c] (ρ.postOrder c) τ grown) :
    grown.Attachable root s (twin ρ c) := by
  have hc := mem_childrenIn_of_rootChildren hrest
  have htree := h.treeAt.sub (.single (mem_children.mpr ⟨s, hc⟩))
  have hself : c ∈ ρ.postOrder c := htree.mem_postOrder.mpr .refl
  have htwin := copyId_eq_twin hrest h hτ hself
  obtain ⟨p, hp, hkind, -⟩ := hτ.root_eq
  have hroot := hcopies.kept root _ hp
  have hrootParent : grown.parent? root = none := by rw [parent?_of_node? hroot]
  constructor
  · obtain ⟨content, hcontent⟩ := Option.isSome_iff_exists.mp
      (Payload.slot?_isSome_iff.mpr (hkind ▸ h.mem_slots hc : s ∈ p.kind.slots))
    exact ⟨content, slotContent_eq_ok_iff.mpr ⟨_, hroot, hcontent⟩⟩
  · rw [← htwin, hcopies.parent?_copy hself, if_pos (List.mem_singleton.mpr rfl)]
  · obtain ⟨n, hn, hadmits⟩ := h.admitted hc
    obtain ⟨n', m, hn', hm, hsame, -⟩ := hcopies.scalars_copy hself
    obtain rfl := Option.some.inj (hn.symm.trans hn')
    have hkind' : m.kind = n.kind := Payload.kind_eq_of_sameScalars hsame
    exact ⟨m, htwin ▸ hm, by rw [hkind']; exact hadmits⟩
  · rw [← htwin]
    intro heq
    have hlt : root.index < τ.size := allocated_of_node? hp
    rw [heq] at hlt
    exact absurd hlt (Nat.not_lt.mpr le_copyId_index)
  · rw [ancestors_eq_nil hrootParent]
    exact List.not_mem_nil

/-- **Attaching the copy of the next child completes it.** -/
lemma Grafted.attach (hτ : Grafted ρ done τ) (hcopies : ρ.Copies [c] (ρ.postOrder c) τ grown)
    {before after : SlotContent} (hbefore : grown.slotContent root s = .ok before)
    (shape : before.sameShape after = true)
    (hafter : after.toList = before.toList ++ [twin ρ c]) :
    Grafted ρ (done ++ [(s, c)]) (grown.attach root s after (twin ρ c)) := by
  have hc := mem_childrenIn_of_rootChildren hrest
  have htree := h.treeAt.sub (.single (mem_children.mpr ⟨s, hc⟩))
  have htwin : ∀ {y}, y ∈ ρ.postOrder c → copyId τ.size (ρ.postOrder c) y = twin ρ y :=
    fun hy => copyId_eq_twin hrest h hτ hy
  have hself : c ∈ ρ.postOrder c := htree.mem_postOrder.mpr .refl
  have hne := (attachable_copy hrest h hτ hcopies).ne_owner
  have horder : copyOrder ρ (done ++ [(s, c)]) = copyOrder ρ done ++ ρ.postOrder c := by
    simp [copyOrder]
  have hreach : ∀ y ∈ copyOrder ρ done ++ ρ.postOrder c, ρ.Reaches root y := by
    intro y hy
    rw [← h.mem_copyOrder, copyOrder_eq hrest, ← List.append_assoc]
    exact List.mem_append_left _ hy
  obtain ⟨p, hp, hkind, hheld⟩ := hτ.root_eq
  have hroot := hcopies.kept root _ hp
  refine ⟨?_, ?_, ?_⟩
  · rw [size_attach, hcopies.size_eq, hτ.size_eq, horder, List.length_append]
  · obtain ⟨n, hn, hslot⟩ := slotContent_eq_ok_iff.mp hbefore
    rw [hroot] at hn
    obtain rfl := Option.some.inj hn
    refine ⟨p.setSlot s after, node?_attach_owner hne hroot, ?_, fun t => ?_⟩
    · rw [Payload.kind_eq_of_sameScalars (Payload.sameScalars_setSlot p s after), hkind]
    · rw [Payload.childrenIn_setSlot hslot shape, heldIn_append, List.map_append]
      split_ifs with hts
      · subst hts
        rw [hafter, ← Payload.childrenIn_of_slot? hslot, hheld]
        simp [heldIn]
      · rw [hheld]
        simp [heldIn, Ne.symm hts]
  · intro y hy hyroot
    rw [horder] at hy
    have hyroot' := h.twin_ne_root (hreach y hy) hyroot
    rcases List.mem_append.mp hy with hy | hy
    · -- complete copies are neither the root nor the copy to attach
      obtain ⟨n, hn, hcopy⟩ := hτ.copied y hy hyroot
      have hlt : (twin ρ y).index < τ.size := allocated_of_node? hcopy
      have hyc : twin ρ y ≠ twin ρ c := by
        intro heq
        rw [heq, ← htwin hself] at hlt
        exact absurd hlt (Nat.not_lt.mpr le_copyId_index)
      refine ⟨n, hn, ?_⟩
      rw [node?_attach_of_ne hyroot' hyc, hcopies.kept _ _ hcopy]
    · obtain ⟨n, hn, hcopy⟩ := hcopies.copied y hy
      rw [htree.region.copy_congr (fun z hz => htwin hz) hy hn, htwin hy] at hcopy
      refine ⟨n, hn, ?_⟩
      by_cases hyc : y = c
      · subst hyc
        have hparent : n.parent = some ⟨root, s⟩ := by
          rw [← parent?_of_node? hn]
          exact h.treeAt.linked .refl hc
        rw [if_pos (List.mem_singleton.mpr rfl)] at hcopy
        rw [node?_attach_child hne hcopy]
        simp [Node.loose, Node.mapIds, hparent, ParentLink.mapOwner]
      · rw [if_neg fun hmem => hyc (List.mem_singleton.mp hmem)] at hcopy
        have htwins : twin ρ y ≠ twin ρ c := fun heq =>
          hyc (h.twin_inj (hreach y (List.mem_append_right _ hy)) heq)
        rw [node?_attach_of_ne hyroot' htwins, hcopy]

/-- The next child is copied to where its twin is, and nothing else changes. -/
lemma Grafted.import (hτ : Grafted ρ done τ) :
    ∃ grown, τ.importSubtree ρ c = some (.ok (twin ρ c), grown) ∧
      ρ.Copies [c] (ρ.postOrder c) τ grown := by
  have hc := mem_childrenIn_of_rootChildren hrest
  have htree := h.treeAt.sub (.single (mem_children.mpr ⟨s, hc⟩))
  -- the new tree gets no more nodes than the old one has
  have room : τ.HasRoom (ρ.postOrder c).length := by
    have horder := congrArg List.length (copyOrder_eq hrest)
    rw [h.copyOrder_perm.length_eq, List.length_append, List.length_append, ← hτ.size_eq] at horder
    have hle := h.treeAt.length_postOrder_le
    have hbound := ρ.size_le_bound
    rw [HasRoom]
    omega
  obtain ⟨grown, himport, hcopies⟩ := importSubtree_copies htree room
  rw [copyId_eq_twin hrest h hτ (htree.mem_postOrder.mpr .refl)] at himport
  exact ⟨grown, himport, hcopies⟩

/-- Its copy is appended to a slot that holds a sequence. -/
lemma Grafted.push (hτ : Grafted ρ done τ) (hcopies : ρ.Copies [c] (ρ.postOrder c) τ grown)
    (hlist : s.isList = true) :
    ∃ after, grown.pushChild root s (twin ρ c) = (.ok (), after) ∧
      Grafted ρ (done ++ [(s, c)]) after := by
  obtain ⟨p, hp, hkind, -⟩ := hτ.root_eq
  have hslot : s ∈ p.kind.slots := hkind ▸ h.mem_slots (mem_childrenIn_of_rootChildren hrest)
  have hcontent : grown.slotContent root s = .ok (.list (p.childrenIn s)) :=
    slotContent_eq_ok_iff.mpr ⟨_, hcopies.kept root _ hp, Payload.slot?_of_isList hslot hlist⟩
  have hpush := pushChild_of_attachable hcontent (attachable_copy hrest h hτ hcopies)
  exact ⟨_, hpush, hτ.attach hrest h hcopies hcontent rfl rfl⟩

/-- Or it is put into an empty slot for one child. -/
lemma Grafted.set (hτ : Grafted ρ done τ) (hcopies : ρ.Copies [c] (ρ.postOrder c) τ grown)
    (hlink : ¬ s.isList = true) (hempty : heldIn s done = []) :
    ∃ after, grown.setChild root s (some (twin ρ c)) = (.ok none, after) ∧
      Grafted ρ (done ++ [(s, c)]) after := by
  have hslot := h.mem_slots (mem_childrenIn_of_rootChildren hrest)
  obtain ⟨n, hn, hcontent⟩ :=
    slotContent_eq_ok_iff.mp (hτ.slotContent_of_empty hslot hlink hempty)
  have hcontent' : grown.slotContent root s = .ok (.link none) :=
    slotContent_eq_ok_iff.mpr ⟨n, hcopies.kept root n hn, hcontent⟩
  have hset := setChild_of_attachable hcontent' (attachable_copy hrest h hτ hcopies)
  exact ⟨_, hset, hτ.attach hrest h hcopies hcontent' rfl rfl⟩

end Step

/-! ## All children copied -/

namespace Copiable

variable (h : Copiable ρ) {done rest : List (Slot × NodeId)}
include h

/-- Appending copies of the next children to a slot. -/
lemma appendCopies (hlist : s.isList = true) {cs : List NodeId} (hτ : Grafted ρ done τ)
    (hrest : rootChildren ρ = done ++ (cs.map (fun c => (s, c)) ++ rest)) :
    ∃ υ, τ.appendCopies root s ρ cs = some (.ok (), υ) ∧
      Grafted ρ (done ++ cs.map fun c => (s, c)) υ := by
  induction cs generalizing τ done with
  | nil => exact ⟨τ, rfl, by simpa using hτ⟩
  | cons c cs ih =>
    obtain ⟨grown, himport, hcopies⟩ := hτ.import hrest h
    obtain ⟨after, hpush, hafter⟩ := hτ.push hrest h hcopies hlist
    obtain ⟨υ, happend, hυ⟩ := ih hafter (by simp [hrest])
    refine ⟨υ, ?_, by simpa using hυ⟩
    simp only [Store.appendCopies, himport, Option.bind_eq_bind, Option.bind_some, hpush, happend]

/-- Copying one slot of the root. -/
lemma copyFrom (hs : s ∈ Kind.compilationUnit.slots) (hτ : Grafted ρ done τ)
    (hempty : heldIn s done = [])
    (hrest : rootChildren ρ = done ++ ((ρ.childrenIn root s).map (fun c => (s, c)) ++ rest)) :
    ∃ υ, τ.copyFrom root s ρ (ρ.childrenIn root s) = some (.ok (), υ) ∧
      Grafted ρ (done ++ (ρ.childrenIn root s).map fun c => (s, c)) υ := by
  have hknown : ρ.firstUnknown? (ρ.childrenIn root s) = none :=
    firstUnknown?_eq_none fun c hc => h.treeAt.allocated_child .refl hc
  simp only [Store.copyFrom, hknown]
  split_ifs with hlist
  · exact h.appendCopies hlist hτ hrest
  · obtain ⟨n, hn, hkind⟩ := h.exists_root
    have hslot : s ∈ n.payload.kind.slots := hkind ▸ hs
    obtain ⟨child, -, hchild⟩ := Payload.slot?_of_not_isList hslot hlist
    rw [← childrenIn_of_node? hn] at hchild
    rw [hchild] at hrest ⊢
    cases child with
    | none =>
      have hclear := setChild_none_of_empty (hτ.slotContent_of_empty hs hlist hempty)
      exact ⟨τ, by simp [hclear, Except.map], by simpa using hτ⟩
    | some c =>
      obtain ⟨grown, himport, hcopies⟩ := hτ.import hrest h
      obtain ⟨after, hset, hafter⟩ := hτ.set hrest h hcopies hlist hempty
      exact ⟨after, by simp [himport, hset, Except.map], hafter⟩

/-- **Copying slot by slot grafts all children of the root.** -/
theorem copySlots {before slots : List Slot} (hslots : Kind.compilationUnit.slots = before ++ slots)
    (hτ : Grafted ρ (childrenBySlot ρ before) τ) :
    ∃ υ, copySlots ρ slots τ = some (.ok (), υ) ∧ Grafted ρ (rootChildren ρ) υ := by
  induction slots generalizing before τ with
  | nil =>
    rw [List.append_nil] at hslots
    exact ⟨τ, rfl, by rwa [rootChildren, hslots]⟩
  | cons s slots ih =>
    have hs : s ∈ Kind.compilationUnit.slots := by simp [hslots]
    have hnodup := hslots ▸ Kind.slots_nodup .compilationUnit
    have hfresh : s ∉ before := fun hmem =>
      (List.nodup_append.mp hnodup).2.2 s hmem s List.mem_cons_self rfl
    have hrest : rootChildren ρ = childrenBySlot ρ before ++
        ((ρ.childrenIn root s).map (fun c => (s, c)) ++ childrenBySlot ρ slots) := by
      simp [rootChildren, hslots, childrenBySlot]
    obtain ⟨υ, hcopy, hυ⟩ :=
      h.copyFrom hs hτ (heldIn_childrenBySlot_of_not_mem hfresh) hrest
    have hdone : Grafted ρ (childrenBySlot ρ (before ++ [s])) υ := by
      simpa [childrenBySlot] using hυ
    obtain ⟨after, hrest, hafter⟩ := ih (by simp [hslots]) hdone
    refine ⟨after, ?_, hafter⟩
    simp only [CompilationUnit.copySlots, h.slotChildren_root hs, hcopy, hrest]

end Copiable

end DeclTree.CompilationUnit
