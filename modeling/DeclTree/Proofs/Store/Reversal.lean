import DeclTree.Proofs.Store.Relocation

/-!
# Edits are undone by edits

Each edit that moves children has another that takes it back: inserting undoes removing and the
other way round, a slot for at most one child is set to what it held before, and a replacement is
replaced by what it replaced.  The store is then the same record for record.

The second edit is checked in the store that the first one left.  For the edits by position this is
what `DeclTree.Proofs.Store.Relocation` says of a child that goes back to its place.  The others
come down to these: an exchange is two moves, the old node out and the new one in, and undoing it is
the same two moves backwards, with the same store in between.
-/

namespace DeclTree.Store

variable {σ τ : Store} {owner child new : NodeId} {slot : Slot}

/-! ## A loose node enters a place and leaves it -/

section Entering

variable {before content : SlotContent}

lemma slotContent_attach (hcontent : σ.slotContent owner slot = .ok before)
    (shape : before.sameShape content = true) :
    (σ.attach owner slot content child).slotContent owner slot = .ok content := by
  rw [attach, slotContent_setParent, slotContent_setSlot hcontent shape]

lemma vacate_attach (hcontent : σ.slotContent owner slot = .ok before)
    (hloose : σ.parent? child = none) (shape : content.sameShape before = true) :
    (σ.attach owner slot content child).vacate owner slot before child = σ := by
  rw [vacate, attach, setSlot_setParent, setSlot_setSlot _ _ _ shape, setSlot_self hcontent,
    setParent_setParent, ← hloose, setParent_self]

end Entering

/-! ## What a carried out edit says of the store before it -/

lemma getElem?_of_removeChild {index : Nat}
    (h : σ.removeChild owner slot index = (.ok child, τ)) :
    slot.isList = true ∧ (σ.childrenIn owner slot)[index]? = some child := by
  rcases σ.removeChild_cases owner slot index with
    ⟨e, hrefused⟩ | ⟨present, removed, hcontent, hindex, heq⟩
  · cases hrefused.symm.trans h
  · obtain rfl : removed = child := Except.ok.inj (congrArg Prod.fst (heq.symm.trans h))
    rw [childrenIn_of_slotContent hcontent]
    exact ⟨isList_of_slotContent hcontent, hindex⟩

/-- The answer is the occupant of before. -/
lemma slotContent_of_setChild {x previous : Option NodeId}
    (h : σ.setChild owner slot x = (.ok previous, τ)) :
    σ.slotContent owner slot = .ok (.link previous) := by
  rcases σ.setChild_cases owner slot x with
    ⟨e, hrefused⟩ | ⟨occupant, hcontent, ⟨-, -, heq⟩ | ⟨-, -, heq⟩⟩
  · cases hrefused.symm.trans h
  all_goals
    obtain rfl : occupant = previous := Except.ok.inj (congrArg Prod.fst (heq.symm.trans h))
    exact hcontent

lemma answer_of_setChild {x occupant previous : Option NodeId}
    (hcontent : σ.slotContent owner slot = .ok (.link occupant))
    (h : σ.setChild owner slot x = (.ok previous, τ)) : previous = occupant :=
  SlotContent.link.inj (Except.ok.inj ((slotContent_of_setChild h).symm.trans hcontent))

lemma exists_link_of_replace (h : σ.replace child new = (.ok (), τ)) :
    ∃ link, σ.parent? child = some link := by
  unfold replace node at h
  cases hn : σ.node? child with
  | none =>
    rw [hn] at h
    cases h
  | some n =>
    cases hparent : n.parent with
    | none =>
      simp only [hn, bind, Except.bind, hparent] at h
      cases h
    | some link => exact ⟨link, by rw [parent?_of_node? hn, hparent]⟩

section SameOutcome

variable {α β : Type} {first : Reply α} {second : Reply β}

lemma SameOutcome.exists_second (h : σ.SameOutcome first second) {a : α}
    (hfirst : first = (.ok a, τ)) : ∃ b, second = (.ok b, τ) := by
  rcases h with ⟨_, b, υ, hdone, hsecond⟩ | ⟨e, υ, hrefused, -⟩
  · obtain rfl : υ = τ := congrArg Prod.snd (hdone.symm.trans hfirst)
    exact ⟨b, hsecond⟩
  · cases hrefused.symm.trans hfirst

lemma SameOutcome.exists_first (h : σ.SameOutcome first second) {b : β}
    (hsecond : second = (.ok b, τ)) : ∃ a, first = (.ok a, τ) := by
  rcases h with ⟨a, _, υ, hfirst, hdone⟩ | ⟨e, υ, -, hrefused⟩
  · obtain rfl : υ = τ := congrArg Prod.snd (hdone.symm.trans hsecond)
    exact ⟨a, hfirst⟩
  · cases hrefused.symm.trans hsecond

end SameOutcome

/-! ## Positions of a sequence -/

/-- What has been inserted is removed again, on every store. -/
lemma removeChild_of_insertChild {index : Nat}
    (h : σ.insertChild owner slot index child = (.ok (), τ)) :
    τ.removeChild owner slot index = (.ok child, σ) := by
  rcases σ.insertChild_cases owner slot index child with
    ⟨e, hrefused⟩ | ⟨present, hcontent, hindex, hatt, heq⟩
  · cases hrefused.symm.trans h
  · obtain rfl : σ.attach owner slot (.list (present.insertIdx index child)) child = τ :=
      congrArg Prod.snd (heq.symm.trans h)
    have hfilled : (present.insertIdx index child)[index]? = some child :=
      List.getElem?_insertIdx_self.trans (if_pos hindex)
    rw [removeChild_of_content (slotContent_attach hcontent rfl) hfilled,
      List.eraseIdx_insertIdx_self, vacate_attach hcontent hatt.unattached rfl]

/-- What has been removed is inserted again. -/
lemma Forest.insertChild_of_removeChild (hf : σ.Forest) {index : Nat}
    (h : σ.removeChild owner slot index = (.ok child, τ)) :
    τ.insertChild owner slot index child = (.ok (), σ) := by
  obtain ⟨hlist, hchild⟩ := getElem?_of_removeChild h
  obtain ⟨removed, hremove, -, hsame⟩ := hf.moves_agree_sequence hlist hchild
  obtain rfl : removed = τ := congrArg Prod.snd (hremove.symm.trans h)
  -- inserting it again comes to replacing it by itself
  have hlink := hf.linked (List.mem_of_getElem? hchild)
  obtain ⟨_, hback⟩ := (hsame child).exists_second (replace_self hlink)
  exact hback

/-! ## Slots for at most one child -/

/-- What has entered an empty slot leaves it again, on every store. -/
lemma setChild_entered {answer : Option NodeId}
    (hcontent : σ.slotContent owner slot = .ok (.link none))
    (h : σ.setChild owner slot (some new) = (.ok answer, τ)) :
    τ.setChild owner slot none = (.ok (some new), σ) ∧
      τ.slotContent owner slot = .ok (.link (some new)) := by
  rw [setChild_of_vacant new hcontent] at h
  cases hcheck : σ.checkAttach owner slot new with
  | error e =>
    rw [hcheck] at h
    cases h
  | ok _ =>
    rw [hcheck] at h
    obtain rfl : σ.attach owner slot (.link (some new)) new = τ := congrArg Prod.snd h
    have hfilled : (σ.attach owner slot (.link (some new)) new).slotContent owner slot =
        .ok (.link (some new)) := slotContent_attach hcontent rfl
    have hloose := (checkAttach_eq_ok_iff.mp hcheck).unattached
    refine ⟨?_, hfilled⟩
    rw [setChild_none_of_occupant hfilled, vacate_attach hcontent hloose rfl]

namespace Forest

variable (hf : σ.Forest)
include hf

/-- The occupant leaves the slot and may be set again, and to set another node comes to the same
before and after. -/
lemma setChild_cleared (hcontent : σ.slotContent owner slot = .ok (.link (some child))) :
    ∃ cleared, σ.setChild owner slot none = (.ok (some child), cleared) ∧
      cleared.slotContent owner slot = .ok (.link none) ∧
      cleared.setChild owner slot (some child) = (.ok none, σ) ∧
      ∀ new, child ≠ new →
        σ.SameOutcome (σ.setChild owner slot (some new))
          (cleared.setChild owner slot (some new)) := by
  have hheld : child ∈ σ.childrenIn owner slot := by
    rw [childrenIn_of_slotContent hcontent]
    exact Option.mem_toList.mpr rfl
  have hcleared : (σ.vacate owner slot (.link none) child).slotContent owner slot =
      .ok (.link none) := slotContent_vacate hcontent rfl
  refine ⟨_, setChild_none_of_occupant hcontent, hcleared, ?_, fun new hne => ?_⟩
  · rw [setChild_of_vacant child hcleared, hf.checkAttach_vacate_self hheld hcontent rfl,
      attach_vacate_self hcontent (hf.linked hheld) rfl]
    rfl
  · have hset := setChild_of_vacant new hcleared
    rw [hf.checkAttach_vacate hheld hne.symm, attach_vacate rfl] at hset
    exact sameOutcome_of_check (setChild_of_occupant hcontent hne) hset

/-- One occupant makes way for another and takes the slot back: out goes the one and in the other,
and back again through the store with the slot cleared. -/
lemma setChild_exchanged (hτ : τ.Forest) (hne : child ≠ new)
    (hcontent : σ.slotContent owner slot = .ok (.link (some child)))
    (h : σ.setChild owner slot (some new) = (.ok (some child), τ)) :
    τ.setChild owner slot (some child) = (.ok (some new), σ) := by
  obtain ⟨cleared, hclear, hvacant, hback, hsame⟩ := hf.setChild_cleared hcontent
  obtain ⟨_, henter⟩ := (hsame new hne).exists_second h
  obtain ⟨hleave, hfilled⟩ := setChild_entered hvacant henter
  obtain ⟨cleared', hclear', -, -, hsame'⟩ := hτ.setChild_cleared hfilled
  obtain rfl : cleared' = cleared := congrArg Prod.snd (hclear'.symm.trans hleave)
  obtain ⟨answer, hset⟩ := (hsame' child hne.symm).exists_first hback
  obtain rfl := answer_of_setChild hfilled hset
  exact hset

/-- A slot is set to what it held before. -/
lemma setChild_back {x previous : Option NodeId}
    (h : σ.setChild owner slot x = (.ok previous, τ)) :
    τ.setChild owner slot previous = (.ok x, σ) := by
  have hcontent := slotContent_of_setChild h
  have hτ : τ.Forest := by
    have hmoved := hf.of_moves (moves_setChild σ owner slot x)
    rwa [h] at hmoved
  match previous, x with
  | none, none =>
    rw [setChild_none_of_empty hcontent] at h
    obtain rfl : σ = τ := congrArg Prod.snd h
    exact setChild_none_of_empty hcontent
  | none, some new => exact (setChild_entered hcontent h).1
  | some child, none =>
    obtain ⟨cleared, hclear, -, hback, -⟩ := hf.setChild_cleared hcontent
    obtain rfl : cleared = τ := congrArg Prod.snd (hclear.symm.trans h)
    exact hback
  | some child, some new =>
    by_cases hne : child = new
    · subst hne
      rw [setChild_self hcontent] at h
      obtain rfl : σ = τ := congrArg Prod.snd h
      exact setChild_self hcontent
    · exact hf.setChild_exchanged hτ hne hcontent h

/-! ## Replacements -/

/-- In a sequence a replacement is to remove and to insert, with the same store in between there and
back. -/
lemma replace_back_sequence {old : NodeId} (hτ : τ.Forest) (hlist : slot.isList = true)
    (hheld : old ∈ σ.childrenIn owner slot) (h : σ.replace old new = (.ok (), τ)) :
    τ.replace new old = (.ok (), σ) := by
  obtain ⟨index, hold⟩ := List.mem_iff_getElem?.mp hheld
  obtain ⟨removed, hremove, -, hsame⟩ := hf.moves_agree_sequence hlist hold
  obtain ⟨_, hinsert⟩ := (hsame new).exists_second h
  have hback := removeChild_of_insertChild hinsert
  obtain ⟨removed', hremove', -, hsame'⟩ :=
    hτ.moves_agree_sequence hlist (getElem?_of_removeChild hback).2
  obtain rfl : removed' = removed := congrArg Prod.snd (hremove'.symm.trans hback)
  obtain ⟨_, hreplace⟩ := (hsame' old).exists_first (hf.insertChild_of_removeChild hremove)
  exact hreplace

/-- In a slot for at most one child a replacement is to set the slot. -/
lemma replace_back_link {old : NodeId} (hτ : τ.Forest) (hlink : slot.isList = false)
    (hheld : old ∈ σ.childrenIn owner slot) (h : σ.replace old new = (.ok (), τ)) :
    τ.replace new old = (.ok (), σ) := by
  obtain ⟨_, hclear, -, hsame⟩ := hf.moves_agree_link hlink hheld
  have hcontent := slotContent_of_setChild hclear
  obtain ⟨answer, hset⟩ := (hsame new).exists_second h
  obtain rfl := answer_of_setChild hcontent hset
  have hback := hf.setChild_back hset
  have hfilled : new ∈ τ.childrenIn owner slot := by
    rw [childrenIn_of_slotContent (slotContent_of_setChild hback)]
    exact Option.mem_toList.mpr rfl
  obtain ⟨_, -, -, hsame'⟩ := hτ.moves_agree_link hlink hfilled
  obtain ⟨_, hreplace⟩ := (hsame' old).exists_first hback
  exact hreplace

/-- What has been replaced takes its place again. -/
lemma replace_back {old : NodeId} (h : σ.replace old new = (.ok (), τ)) :
    τ.replace new old = (.ok (), σ) := by
  obtain ⟨⟨owner, slot⟩, hlink⟩ := exists_link_of_replace h
  by_cases hne : old = new
  · subst hne
    rw [replace_self hlink] at h
    obtain rfl : σ = τ := congrArg Prod.snd h
    exact replace_self hlink
  · have hheld := hf.held hlink
    have hτ : τ.Forest := by
      have hmoved := hf.of_moves (moves_replace hf old new)
      rwa [h] at hmoved
    cases hshape : slot.isList with
    | true => exact hf.replace_back_sequence hτ hshape hheld h
    | false => exact hf.replace_back_link hτ hshape hheld h

end Forest

/-- **Every edit that moves children is undone by another**, on every store that clients can build,
and the store is then as it was, record for record. -/
theorem Reachable.edits_undone (h : σ.Reachable) :
    (∀ owner slot index c τ, σ.removeChild owner slot index = (.ok c, τ) →
      τ.insertChild owner slot index c = (.ok (), σ)) ∧
    (∀ owner slot index c τ, σ.insertChild owner slot index c = (.ok (), τ) →
      τ.removeChild owner slot index = (.ok c, σ)) ∧
    (∀ owner slot x previous τ, σ.setChild owner slot x = (.ok previous, τ) →
      τ.setChild owner slot previous = (.ok x, σ)) ∧
    ∀ old new τ, σ.replace old new = (.ok (), τ) → τ.replace new old = (.ok (), σ) :=
  ⟨fun _ _ _ _ _ => h.forest.insertChild_of_removeChild,
    fun _ _ _ _ _ => removeChild_of_insertChild,
    fun _ _ _ _ _ => h.forest.setChild_back,
    fun _ _ _ => h.forest.replace_back⟩

/-- A unit with a package and two types, and two loose nodes.  The first type is removed and comes
back, the loose type is inserted between the two and leaves, the loose package takes the place of
the package and gives it back, and so does the loose type that of the second type. -/
theorem edits_undone_of_unit : ∃ σ removed inserted set replaced : Store, σ.Reachable ∧
    σ.childrenIn ⟨0⟩ .types = [⟨2⟩, ⟨3⟩] ∧ σ.childrenIn ⟨0⟩ .package = [⟨1⟩] ∧
    σ.removeChild ⟨0⟩ .types 0 = (.ok ⟨2⟩, removed) ∧ removed.childrenIn ⟨0⟩ .types = [⟨3⟩] ∧
    removed.insertChild ⟨0⟩ .types 0 ⟨2⟩ = (.ok (), σ) ∧
    σ.insertChild ⟨0⟩ .types 1 ⟨4⟩ = (.ok (), inserted) ∧
    inserted.childrenIn ⟨0⟩ .types = [⟨2⟩, ⟨4⟩, ⟨3⟩] ∧
    inserted.removeChild ⟨0⟩ .types 1 = (.ok ⟨4⟩, σ) ∧
    σ.setChild ⟨0⟩ .package (some ⟨5⟩) = (.ok (some ⟨1⟩), set) ∧
    set.childrenIn ⟨0⟩ .package = [⟨5⟩] ∧
    set.setChild ⟨0⟩ .package (some ⟨1⟩) = (.ok (some ⟨5⟩), σ) ∧
    σ.replace ⟨3⟩ ⟨4⟩ = (.ok (), replaced) ∧
    replaced.childrenIn ⟨0⟩ .types = [⟨2⟩, ⟨4⟩] ∧
    replaced.replace ⟨4⟩ ⟨3⟩ = (.ok (), σ) := by
  let unit (package : Option NodeId) (types : List NodeId) : Payload :=
    .compilationUnit ⟨package, [], [], types⟩
  let package (name : String) : Payload := .package ⟨name⟩
  let type (name : String) : Payload := .type ⟨.classForm, name, ⟨name⟩, []⟩
  let σ : Store := ⟨#[⟨unit (some ⟨1⟩) [⟨2⟩, ⟨3⟩], .dummy, none⟩,
    ⟨package "p", .dummy, some ⟨⟨0⟩, .package⟩⟩, ⟨type "A", .dummy, some ⟨⟨0⟩, .types⟩⟩,
    ⟨type "B", .dummy, some ⟨⟨0⟩, .types⟩⟩, ⟨type "C", .dummy, none⟩, ⟨package "q", .dummy, none⟩],
    by decide⟩
  have hσ : σ.Reachable := by
    have hσ := Reachable.empty.step (.alloc (unit none []) .dummy) nofun rfl
    have hσ := hσ.step (.alloc (package "p") .dummy) nofun rfl
    have hσ := hσ.step (.alloc (type "A") .dummy) nofun rfl
    have hσ := hσ.step (.alloc (type "B") .dummy) nofun rfl
    have hσ := hσ.step (.alloc (type "C") .dummy) nofun rfl
    have hσ := hσ.step (.alloc (package "q") .dummy) nofun rfl
    have hσ := hσ.step (.setChild ⟨0⟩ .package (some ⟨1⟩)) nofun rfl
    have hσ := hσ.step (.pushChild ⟨0⟩ .types ⟨2⟩) nofun rfl
    have hσ := hσ.step (.pushChild ⟨0⟩ .types ⟨3⟩) nofun rfl
    obtain ⟨τ, hτ, rfl⟩ : ∃ τ : Store, τ.Reachable ∧ τ = σ := ⟨_, hσ, by decide +kernel⟩
    exact hτ
  obtain ⟨hremoved, hinserted, hset, hreplaced⟩ := hσ.edits_undone
  exact ⟨σ, _, _, _, _, hσ, rfl, rfl, rfl, rfl, hremoved ⟨0⟩ .types 0 ⟨2⟩ _ rfl, rfl, rfl,
    hinserted ⟨0⟩ .types 1 ⟨4⟩ _ rfl, rfl, rfl, hset ⟨0⟩ .package (some ⟨5⟩) (some ⟨1⟩) _ rfl, rfl,
    rfl, hreplaced ⟨3⟩ ⟨4⟩ _ rfl⟩

end DeclTree.Store
