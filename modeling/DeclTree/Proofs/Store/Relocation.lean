import Mathlib.Data.List.InsertIdx
import DeclTree.Proofs.Store.Legality

/-!
# The ways to move a node agree

A child can be taken out by naming it or by naming its place, and it can be exchanged for another
node in one edit or in two.  By name, `detach` and `replace` search a sequence for the child; by
place, `removeChild` and `insertChild` go to a position.  In a forest the child stands at one
position, so both find the same one.

The two edits that make up an exchange check the newcomer in a store that the child has left
already, where `replace` checks it while the child is there.  The checks read kinds, the parent link
of the newcomer and the owners above the slot (`checkAttach_eq`), and none of these is touched when
the child leaves: it is neither the owner nor one of its ancestors.  Only the child itself is
attachable in the one store and not in the other, and that is the exchange that changes nothing.
-/

namespace DeclTree.Store

variable {σ τ : Store} {owner child x : NodeId} {slot : Slot}

/-! ## The edits on a slot with a known content -/

/-- The store after a child has left the slot, which holds the content now. -/
def vacate (σ : Store) (owner : NodeId) (slot : Slot) (content : SlotContent) (child : NodeId) :
    Store :=
  (σ.setSlot owner slot content).setParent child none

lemma removeChild_of_content {present : List NodeId} {index : Nat}
    (hcontent : σ.slotContent owner slot = .ok (.list present))
    (hchild : present[index]? = some child) :
    σ.removeChild owner slot index =
      (.ok child, σ.vacate owner slot (.list (present.eraseIdx index)) child) := by
  have hsequence := sequenceIn_of_slotContent hcontent
  simp only [removeChild, hsequence, bind, Except.bind, hchild]
  rfl

lemma insertChild_of_content (child : NodeId) {present : List NodeId} {index : Nat}
    (hcontent : σ.slotContent owner slot = .ok (.list present)) (hindex : index ≤ present.length) :
    σ.insertChild owner slot index child = σ.commit (do
      σ.checkAttach owner slot child
      return ((), σ.attach owner slot (.list (present.insertIdx index child)) child)) := by
  have hsequence := sequenceIn_of_slotContent hcontent
  simp only [insertChild, hsequence, bind, Except.bind, if_neg (Nat.not_lt_of_le hindex)]
  rfl

/-- The occupant makes way for another node. -/
lemma setChild_of_occupant {new : NodeId}
    (hcontent : σ.slotContent owner slot = .ok (.link (some child))) (hne : child ≠ new) :
    σ.setChild owner slot (some new) = σ.commit (do
      σ.checkAttach owner slot new
      return (some child, (σ.vacate owner slot (.link (some new)) child).setParent new
        (some ⟨owner, slot⟩))) := by
  have hoccupant := occupantOf_of_slotContent hcontent
  have hother : some new ≠ some child := fun h => hne (Option.some.inj h).symm
  simp only [setChild, hoccupant, bind, Except.bind, hother, and_false, if_false]
  rfl

/-- The slot is cleared. -/
lemma setChild_none_of_occupant (hcontent : σ.slotContent owner slot = .ok (.link (some child))) :
    σ.setChild owner slot none = (.ok (some child), σ.vacate owner slot (.link none) child) := by
  have hoccupant := occupantOf_of_slotContent hcontent
  simp only [setChild, hoccupant, bind, Except.bind, Option.isSome_none, Bool.false_eq_true,
    false_and, if_false]
  rfl

/-- Setting the present occupant again changes nothing. -/
lemma setChild_self (hcontent : σ.slotContent owner slot = .ok (.link (some child))) :
    σ.setChild owner slot (some child) = (.ok (some child), σ) := by
  have hoccupant := occupantOf_of_slotContent hcontent
  simp only [setChild, hoccupant, bind, Except.bind, Option.isSome_some, and_self, if_true]
  rfl

lemma detach_of_content {link : ParentLink} {content : SlotContent}
    (hlink : σ.parent? child = some link)
    (hcontent : σ.slotContent link.owner link.slot = .ok content) :
    σ.detach child =
      (.ok (some link), σ.vacate link.owner link.slot (content.without child) child) := by
  obtain ⟨n, hn, hparent⟩ := exists_node_of_parent? hlink
  simp only [detach, node, hn, bind, Except.bind, hparent, hcontent]
  cases content <;> rfl

/-- A node in its own place. -/
lemma replace_self {link : ParentLink} (hlink : σ.parent? child = some link) :
    σ.replace child child = (.ok (), σ) := by
  obtain ⟨n, hn, hparent⟩ := exists_node_of_parent? hlink
  simp only [replace, node, hn, bind, Except.bind, hparent, if_true]
  rfl

lemma replace_of_content {new : NodeId} {link : ParentLink} {content : SlotContent}
    (hlink : σ.parent? child = some link)
    (hcontent : σ.slotContent link.owner link.slot = .ok content) (hne : child ≠ new) :
    σ.replace child new = σ.commit (do
      σ.checkAttach link.owner link.slot new
      return ((), (σ.vacate link.owner link.slot (content.exchange child new) child).setParent new
        (some link))) := by
  obtain ⟨n, hn, hparent⟩ := exists_node_of_parent? hlink
  simp only [replace, node, hn, bind, Except.bind, hparent, hcontent, if_neg hne]
  cases content <;> rfl

/-! ## A child leaves its place -/

section Vacated

variable {before content : SlotContent} {new : NodeId}

lemma kind?_vacate (id : NodeId) : (σ.vacate owner slot content child).kind? id = σ.kind? id := by
  rw [vacate, kind?_setParent, kind?_setSlot]

lemma parent?_vacate_of_ne (hne : x ≠ child) :
    (σ.vacate owner slot content child).parent? x = σ.parent? x := by
  rw [vacate, parent?_setParent, if_neg fun h => hne h.1.symm, parent?_setSlot]

lemma slotContent_vacate (hcontent : σ.slotContent owner slot = .ok before)
    (shape : before.sameShape content = true) :
    (σ.vacate owner slot content child).slotContent owner slot = .ok content := by
  rw [vacate, slotContent_setParent, slotContent_setSlot hcontent shape]

/-- What is attached in the place of the child goes there at once. -/
lemma attach_vacate {after : SlotContent} (shape : content.sameShape after = true) :
    (σ.vacate owner slot content child).attach owner slot after new =
      (σ.vacate owner slot after child).setParent new (some ⟨owner, slot⟩) := by
  rw [attach, vacate, setSlot_setParent, setSlot_setSlot _ _ _ shape, vacate]

/-- The child is put back to its place. -/
lemma attach_vacate_self (hcontent : σ.slotContent owner slot = .ok before)
    (hlink : σ.parent? child = some ⟨owner, slot⟩) (shape : content.sameShape before = true) :
    (σ.vacate owner slot content child).attach owner slot before child = σ := by
  rw [attach_vacate shape, vacate, setSlot_self hcontent, setParent_setParent, ← hlink,
    setParent_self]

variable (hf : σ.Forest) (hheld : child ∈ σ.childrenIn owner slot)
include hf hheld

/-- The child is not on the way up from its owner. -/
lemma Forest.ancestors_vacate :
    (σ.vacate owner slot content child).ancestors owner = σ.ancestors owner := by
  have hsize : (σ.vacate owner slot content child).size = σ.size := by
    rw [vacate, size_setParent, size_setSlot]
  have hstep : σ.OwnedBy child owner := ⟨slot, hf.linked hheld⟩
  unfold ancestors
  rw [hsize]
  refine ownersAbove_congr fun y hy => parent?_vacate_of_ne ?_
  rintro rfl
  exact hf.acyclic y (Relation.TransGen.head' hstep hy)

/-- Another node is checked for the place as it was before. -/
lemma Forest.checkAttach_vacate (hne : new ≠ child) :
    (σ.vacate owner slot content child).checkAttach owner slot new =
      σ.checkAttach owner slot new :=
  checkAttach_congr (kind?_vacate owner) (kind?_vacate new) (parent?_vacate_of_ne hne)
    (hf.ancestors_vacate hheld)

/-- The child may go back to its place. -/
lemma Forest.checkAttach_vacate_self (hcontent : σ.slotContent owner slot = .ok before)
    (shape : before.sameShape content = true) :
    (σ.vacate owner slot content child).checkAttach owner slot child = .ok () := by
  have hlink := hf.linked hheld
  obtain ⟨n, hn, hadmits⟩ := hf.admitted hheld
  obtain ⟨halloc, hne⟩ := hf.child_ne_owner hheld
  refine checkAttach_eq_ok_iff.mpr ⟨⟨content, slotContent_vacate hcontent shape⟩, ?_, ?_, ?_, ?_⟩
  · have hkept : (σ.setSlot owner slot content).Allocated child := by
      rwa [Allocated, size_setSlot]
    rw [vacate, parent?_setParent, if_pos ⟨rfl, hkept⟩]
  · have hkind : (σ.vacate owner slot content child).kind? child = some n.kind := by
      rw [kind?_vacate, kind?, hn]
      rfl
    obtain ⟨m, hm, hmkind⟩ := Option.map_eq_some_iff.mp hkind
    exact ⟨m, hm, by rwa [hmkind]⟩
  · exact hne.symm
  · rw [hf.ancestors_vacate hheld]
    intro hmem
    have hstep : σ.OwnedBy child owner := ⟨slot, hlink⟩
    exact hf.acyclic child (.head hstep (hf.mem_ancestors_iff.mp hmem))

end Vacated

/-! ## One edit or two -/

/-- Both edits succeed and leave the same store, or both are refused for the same reason, and then
the first leaves the store as it was. -/
def SameOutcome {α β : Type} (σ : Store) (first : Reply α) (second : Reply β) : Prop :=
  (∃ a b τ, first = (.ok a, τ) ∧ second = (.ok b, τ)) ∨
  ∃ e τ, first = (.error e, σ) ∧ second = (.error e, τ)

/-- Two edits that make the same check and write the same store. -/
lemma sameOutcome_of_check {α β : Type} {ρ : Store} {check : Except TreeError Unit} {a : α} {b : β}
    {first : Reply α} {second : Reply β}
    (hfirst : first = σ.commit (do check; return (a, τ)))
    (hsecond : second = ρ.commit (do check; return (b, τ))) : σ.SameOutcome first second := by
  subst hfirst hsecond
  cases check with
  | ok _ => exact Or.inl ⟨a, b, τ, rfl, rfl⟩
  | error e => exact Or.inr ⟨e, ρ, rfl, rfl⟩

/-- To exchange an entry everywhere is to put the new one to its position. -/
lemma map_exchange_eq_insertIdx {old new : NodeId} {xs : List NodeId} {index : Nat}
    (hnodup : xs.Nodup) (h : xs[index]? = some old) :
    (xs.map fun c => if c = old then new else c) = (xs.eraseIdx index).insertIdx index new := by
  obtain ⟨hlt, rfl⟩ := List.getElem?_eq_some_iff.mp h
  rw [List.insertIdx_eraseIdx_self (Nat.ne_of_lt hlt)]
  refine List.ext_getElem (by simp) fun i hi hi' => ?_
  have hi : i < xs.length := by simpa using hi
  have hsame : xs[i] = xs[index] ↔ index = i := hnodup.getElem_inj_iff.trans eq_comm
  simp only [List.getElem_map, List.getElem_set, hsame]

section Agreement

variable (hf : σ.Forest)
include hf

/-- A child of a sequence leaves it in the same way by name and by position, and is exchanged in the
same way in one edit and in two. -/
lemma Forest.moves_agree_sequence {index : Nat} (hlist : slot.isList = true)
    (hchild : (σ.childrenIn owner slot)[index]? = some child) :
    ∃ removed, σ.removeChild owner slot index = (.ok child, removed) ∧
      σ.detach child = (.ok (some ⟨owner, slot⟩), removed) ∧
      ∀ new, σ.SameOutcome (σ.replace child new) (removed.insertChild owner slot index new) := by
  have hheld := List.mem_of_getElem? hchild
  have hlink := hf.linked hheld
  have hnodup := hf.nodup owner slot
  obtain ⟨-, hcontent⟩ | ⟨hnot, -⟩ := slotContent_of_hasSlot (hasSlot_of_mem hheld)
  swap
  · rw [hlist] at hnot
    cases hnot
  generalize hpresent : σ.childrenIn owner slot = present at hchild hcontent hnodup
  obtain ⟨hlt, hget⟩ := List.getElem?_eq_some_iff.mp hchild
  have hroom : index ≤ (present.eraseIdx index).length := by
    rw [List.length_eraseIdx_of_lt hlt]
    omega
  have hvacated : (σ.vacate owner slot (.list (present.eraseIdx index)) child).slotContent owner
      slot = .ok (.list (present.eraseIdx index)) := slotContent_vacate hcontent rfl
  refine ⟨_, removeChild_of_content hcontent hchild, ?_, fun new => ?_⟩
  · rw [detach_of_content hlink hcontent, SlotContent.without, filter_ne_eq_eraseIdx hnodup hchild]
  have hinsert := insertChild_of_content new hvacated hroom
  by_cases hsame : new = child
  · -- the child goes back to where it was
    subst hsame
    have hback : (present.eraseIdx index).insertIdx index new = present := by
      rw [← hget]
      exact List.insertIdx_eraseIdx_getElem hlt
    rw [hf.checkAttach_vacate_self hheld hcontent rfl, hback,
      attach_vacate_self hcontent hlink rfl] at hinsert
    exact Or.inl ⟨(), (), σ, replace_self hlink, hinsert⟩
  · have hreplace := replace_of_content hlink hcontent (Ne.symm hsame)
    rw [SlotContent.exchange, map_exchange_eq_insertIdx hnodup hchild] at hreplace
    rw [hf.checkAttach_vacate hheld hsame, attach_vacate rfl] at hinsert
    exact sameOutcome_of_check hreplace hinsert

/-- The same of the occupant of a slot for at most one child. -/
lemma Forest.moves_agree_link (hlink : slot.isList = false)
    (hchild : child ∈ σ.childrenIn owner slot) :
    ∃ cleared, σ.setChild owner slot none = (.ok (some child), cleared) ∧
      σ.detach child = (.ok (some ⟨owner, slot⟩), cleared) ∧
      ∀ new, σ.SameOutcome (σ.replace child new) (σ.setChild owner slot (some new)) := by
  have hparent := hf.linked hchild
  obtain ⟨hnot, -⟩ | ⟨-, occupant, hchildren, hcontent⟩ :=
    slotContent_of_hasSlot (hasSlot_of_mem hchild)
  · rw [hlink] at hnot
    cases hnot
  obtain rfl : occupant = some child := by
    rw [hchildren] at hchild
    exact Option.mem_toList.mp hchild
  refine ⟨_, setChild_none_of_occupant hcontent, detach_of_content hparent hcontent, fun new => ?_⟩
  by_cases hsame : new = child
  · subst hsame
    exact Or.inl ⟨(), some new, σ, replace_self hparent, setChild_self hcontent⟩
  · exact sameOutcome_of_check (replace_of_content hparent hcontent (Ne.symm hsame))
      (setChild_of_occupant hcontent (Ne.symm hsame))

end Agreement

/-- **The ways to move a node agree**, on every store that clients can build.  The attached nodes
are those that slots hold.  A child of a sequence is taken out by name as it is by position, and
replacing it comes to removing it and inserting the other node at its position.  The occupant of a
slot for at most one is taken out as the slot is cleared, and replacing it comes to setting the
slot. -/
theorem Reachable.moves_agree (h : σ.Reachable) :
    (∀ c link, σ.parent? c = some link ↔ c ∈ σ.childrenIn link.owner link.slot) ∧
    (∀ owner slot index c, slot.isList = true → (σ.childrenIn owner slot)[index]? = some c →
      ∃ removed, σ.removeChild owner slot index = (.ok c, removed) ∧
        σ.detach c = (.ok (some ⟨owner, slot⟩), removed) ∧
        ∀ new, σ.SameOutcome (σ.replace c new) (removed.insertChild owner slot index new)) ∧
    ∀ owner slot c, slot.isList = false → c ∈ σ.childrenIn owner slot →
      ∃ cleared, σ.setChild owner slot none = (.ok (some c), cleared) ∧
        σ.detach c = (.ok (some ⟨owner, slot⟩), cleared) ∧
        ∀ new, σ.SameOutcome (σ.replace c new) (σ.setChild owner slot (some new)) :=
  ⟨fun _ _ => ⟨h.forest.held, h.forest.linked⟩,
    fun _ _ _ _ hlist hc => h.forest.moves_agree_sequence hlist hc,
    fun _ _ _ hlink hc => h.forest.moves_agree_link hlink hc⟩

/-- A unit with a package and two types, and two loose nodes.  The first type is replaced by the
loose one; the loose method is refused in its place, whether the type is still there or not; and the
package may be set again. -/
theorem moves_agree_of_unit : ∃ σ removed τ : Store, σ.Reachable ∧
    σ.childrenIn ⟨0⟩ .types = [⟨2⟩, ⟨3⟩] ∧ σ.childrenIn ⟨0⟩ .package = [⟨1⟩] ∧
    σ.removeChild ⟨0⟩ .types 0 = (.ok ⟨2⟩, removed) ∧
    σ.detach ⟨2⟩ = (.ok (some ⟨⟨0⟩, .types⟩), removed) ∧
    σ.replace ⟨2⟩ ⟨4⟩ = (.ok (), τ) ∧ removed.insertChild ⟨0⟩ .types 0 ⟨4⟩ = (.ok (), τ) ∧
    τ.childrenIn ⟨0⟩ .types = [⟨4⟩, ⟨3⟩] ∧
    σ.replace ⟨2⟩ ⟨5⟩ = (.error (.kindMismatch .types .method), σ) ∧
    removed.insertChild ⟨0⟩ .types 0 ⟨5⟩ = (.error (.kindMismatch .types .method), removed) ∧
    σ.SameOutcome (σ.replace ⟨1⟩ ⟨1⟩) (σ.setChild ⟨0⟩ .package (some ⟨1⟩)) := by
  let unit (package : Option NodeId) (types : List NodeId) : Payload :=
    .compilationUnit ⟨package, [], [], types⟩
  let package : Payload := .package ⟨"p"⟩
  let type (name : String) : Payload := .type ⟨.classForm, name, ⟨name⟩, []⟩
  let method : Payload := .method ⟨"run", [], false⟩
  let σ : Store := ⟨#[⟨unit (some ⟨1⟩) [⟨2⟩, ⟨3⟩], .dummy, none⟩,
    ⟨package, .dummy, some ⟨⟨0⟩, .package⟩⟩, ⟨type "A", .dummy, some ⟨⟨0⟩, .types⟩⟩,
    ⟨type "B", .dummy, some ⟨⟨0⟩, .types⟩⟩, ⟨type "C", .dummy, none⟩, ⟨method, .dummy, none⟩],
    by decide⟩
  have hσ : σ.Reachable := by
    have hσ := Reachable.empty.step (.alloc (unit none []) .dummy) nofun rfl
    have hσ := hσ.step (.alloc package .dummy) nofun rfl
    have hσ := hσ.step (.alloc (type "A") .dummy) nofun rfl
    have hσ := hσ.step (.alloc (type "B") .dummy) nofun rfl
    have hσ := hσ.step (.alloc (type "C") .dummy) nofun rfl
    have hσ := hσ.step (.alloc method .dummy) nofun rfl
    have hσ := hσ.step (.setChild ⟨0⟩ .package (some ⟨1⟩)) nofun rfl
    have hσ := hσ.step (.pushChild ⟨0⟩ .types ⟨2⟩) nofun rfl
    have hσ := hσ.step (.pushChild ⟨0⟩ .types ⟨3⟩) nofun rfl
    obtain ⟨τ, hτ, rfl⟩ : ∃ τ : Store, τ.Reachable ∧ τ = σ := ⟨_, hσ, by decide +kernel⟩
    exact hτ
  obtain ⟨-, hsequence, hlink⟩ := hσ.moves_agree
  obtain ⟨removed, hremove, hdetach, hreplace⟩ :=
    hsequence ⟨0⟩ .types 0 ⟨2⟩ rfl (by decide +kernel)
  obtain ⟨-, -, -, hpackage⟩ := hlink ⟨0⟩ .package ⟨1⟩ rfl (by decide +kernel)
  obtain rfl : _ = removed := congrArg Prod.snd hremove
  refine ⟨σ, _, _, hσ, by decide +kernel, by decide +kernel, hremove, hdetach, rfl, ?_,
    by decide +kernel, by decide +kernel, by decide +kernel, hpackage ⟨1⟩⟩
  rcases hreplace ⟨4⟩ with ⟨_, _, τ, hdone, hinsert⟩ | ⟨e, τ, hrefused, -⟩
  · obtain rfl : _ = τ := congrArg Prod.snd hdone
    exact hinsert
  · cases congrArg Prod.fst hrefused

end DeclTree.Store
