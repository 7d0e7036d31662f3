import Mathlib.Data.List.Flatten
import DeclTree.Proofs.Store.Runs

/-!
# Edits that attach nothing

New nodes are loose, updates leave the slots alone, and the other edits that attach nothing take
children out of a slot.  So every slot keeps some of the children that it had, in the order in which
it had them: the tree is pruned.  `Store.Prunes` says this of two stores, and
`Forest.prunes_apply` shows it for one edit.
-/

namespace DeclTree

/-- The edit attaches nothing: it creates a loose node, writes scalar fields, or takes a child out
of its slot. -/
def Edit.Pruning : Edit → Prop
  | alloc _ _ | update _ _ | removeChild _ _ _ | detach _ => True
  | setChild _ _ child => child = none
  | _ => False

namespace Store

variable {σ τ υ : Store} {owner child : NodeId} {slot : Slot}

/-- What is left in the slots was there before, in this order. -/
structure Prunes (σ τ : Store) : Prop where
  forest : τ.Forest
  extended : σ.Extends τ
  sublist : ∀ o s, (τ.childrenIn o s).Sublist (σ.childrenIn o s)

namespace Prunes

lemma refl (hf : σ.Forest) : σ.Prunes σ := ⟨hf, .refl σ, fun _ _ => .refl _⟩

lemma trans (h : σ.Prunes τ) (h' : τ.Prunes υ) : σ.Prunes υ where
  forest := h'.forest
  extended := h.extended.trans h'.extended
  sublist := fun o s => (h'.sublist o s).trans (h.sublist o s)

/-- No parent link is new. -/
lemma parent?_eq (h : σ.Prunes τ) (hf : σ.Forest) {link : ParentLink}
    (hlink : τ.parent? child = some link) : σ.parent? child = some link :=
  hf.linked ((h.sublist link.owner link.slot).subset (h.forest.held hlink))

lemma children_sublist (h : σ.Prunes τ) (howner : σ.Allocated owner) :
    (τ.children owner).Sublist (σ.children owner) := by
  obtain ⟨n, hn⟩ := exists_node_iff.mpr howner
  obtain ⟨m, hm, hkind, -⟩ := h.extended owner n hn
  rw [children_of_node? hn, children_of_node? hm, Payload.children_eq_flatMap,
    Payload.children_eq_flatMap, show m.payload.kind = n.payload.kind from hkind]
  refine List.Sublist.flatMap_right _ fun s _ => ?_
  rw [← childrenIn_of_node? hn, ← childrenIn_of_node? hm]
  exact h.sublist owner s

end Prunes

/-! ## One edit -/

/-- Writing a slot with part of what it held. -/
lemma childrenIn_setSlot_sublist {before : SlotContent} (after : SlotContent)
    (hcontent : σ.slotContent owner slot = .ok before) (shape : before.sameShape after = true)
    (hpart : after.toList.Sublist before.toList) (o : NodeId) (s : Slot) :
    ((σ.setSlot owner slot after).childrenIn o s).Sublist (σ.childrenIn o s) := by
  rw [childrenIn_setSlot σ owner slot after hcontent shape]
  split_ifs with hslot
  · obtain ⟨rfl, rfl⟩ := hslot
    rw [childrenIn_of_slotContent hcontent]
    exact hpart
  · exact .refl _

lemma clearChild_sublist (σ : Store) (owner : NodeId) (slot : Slot) (o : NodeId) (s : Slot) :
    ((σ.setChild owner slot none).2.childrenIn o s).Sublist (σ.childrenIn o s) := by
  rcases σ.setChild_cases owner slot none with
    ⟨e, heq⟩ | ⟨previous, hcontent, ⟨-, -, heq⟩ | ⟨-, -, heq⟩⟩
  · rw [heq]
  · rw [heq]
  · rw [heq]
    simp only [childrenIn_setParents]
    exact childrenIn_setSlot_sublist (.link none) hcontent rfl (List.nil_sublist _) o s

lemma removeChild_sublist (σ : Store) (owner : NodeId) (slot : Slot) (index : Nat) (o : NodeId)
    (s : Slot) :
    ((σ.removeChild owner slot index).2.childrenIn o s).Sublist (σ.childrenIn o s) := by
  rcases σ.removeChild_cases owner slot index with
    ⟨e, heq⟩ | ⟨present, removed, hcontent, -, heq⟩
  · rw [heq]
  · rw [heq]
    simp only [childrenIn_setParent]
    exact childrenIn_setSlot_sublist (.list _) hcontent rfl
      (List.eraseIdx_sublist present index) o s

lemma detach_sublist (σ : Store) (id : NodeId) (o : NodeId) (s : Slot) :
    ((σ.detach id).2.childrenIn o s).Sublist (σ.childrenIn o s) := by
  rcases σ.detach_cases id with ⟨answer, heq⟩ | ⟨link, content, -, hcontent, heq⟩
  · rw [heq]
  · rw [heq]
    simp only [childrenIn_setParent]
    refine childrenIn_setSlot_sublist _ hcontent (SlotContent.sameShape_without id content) ?_ o s
    cases content with
    | link occupant => exact List.nil_sublist _
    | list children => exact List.filter_sublist

/-- **An edit that attaches nothing ends, carried out or refused, and prunes the tree.** -/
theorem Forest.prunes_apply (hf : σ.Forest) {edit : Edit} (h : edit.Pruning) :
    ∃ answer τ, edit.apply σ = some (answer, τ) ∧ σ.Prunes τ := by
  have hreads : edit.readsFrom = [] := by
    cases edit <;> first | rfl | exact h.elim
  obtain ⟨answer, τ, happly, hforest, hextends⟩ :=
    hf.keepsForest_apply edit fun ρ hρ => absurd (hreads ▸ hρ) List.not_mem_nil
  refine ⟨answer, τ, happly, hforest, hextends, fun o s => ?_⟩
  cases edit with
  | alloc p span =>
    obtain ⟨-, rfl⟩ := Prod.mk.inj (Option.some.inj happly)
    exact childrenIn_alloc σ p span o s ▸ .refl _
  | update id f =>
    obtain ⟨-, rfl⟩ := Prod.mk.inj (Option.some.inj happly)
    exact childrenIn_update (fun p => ((), f p)) σ id o s ▸ .refl _
  | setChild owner slot child =>
    obtain rfl : child = none := h
    obtain ⟨-, rfl⟩ := Prod.mk.inj (Option.some.inj happly)
    exact clearChild_sublist σ owner slot o s
  | removeChild owner slot index =>
    obtain ⟨-, rfl⟩ := Prod.mk.inj (Option.some.inj happly)
    exact removeChild_sublist σ owner slot index o s
  | detach id =>
    obtain ⟨-, rfl⟩ := Prod.mk.inj (Option.some.inj happly)
    exact detach_sublist σ id o s
  | _ => exact h.elim

end Store

end DeclTree
