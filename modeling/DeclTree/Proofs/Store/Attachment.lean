import DeclTree.Proofs.Store.Rewiring

/-!
# Attaching and detaching, case by case

For each edit of `DeclTree.Store.Attachment` a lemma lists all that it can do: it is refused and
the store stays, or it succeeds, and then under which condition and with which store.  Each of
these stores is a rewiring of one slot, so all six edits keep a forest: this is
`Forest.of_moves` with the lemmas `moves_setChild` to `moves_replace`.
-/

namespace DeclTree

namespace SlotContent

/-- The content that is left when a child is taken out. -/
def without (id : NodeId) : SlotContent → SlotContent
  | link _ => link none
  | list children => list (children.filter (· ≠ id))

/-- The content with one child put in the place of another. -/
def exchange (old new : NodeId) : SlotContent → SlotContent
  | link _ => link (some new)
  | list children => list (children.map fun c => if c = old then new else c)

@[simp] lemma sameShape_without (id : NodeId) (content : SlotContent) :
    content.sameShape (content.without id) = true := by
  cases content <;> rfl

@[simp] lemma sameShape_exchange (old new : NodeId) (content : SlotContent) :
    content.sameShape (content.exchange old new) = true := by
  cases content <;> rfl

/-- A link that holds the child holds nothing else. -/
lemma toList_without {id : NodeId} {content : SlotContent} (h : id ∈ content.toList) :
    (content.without id).toList = content.toList.filter (· ≠ id) := by
  cases content with
  | list children => rfl
  | link child =>
    obtain rfl : child = some id := by simpa using h
    simp [without]

lemma toList_exchange {old new : NodeId} {content : SlotContent} (h : old ∈ content.toList) :
    (content.exchange old new).toList =
      content.toList.map fun c => if c = old then new else c := by
  cases content with
  | list children => rfl
  | link child =>
    obtain rfl : child = some old := by simpa using h
    simp [exchange]

end SlotContent

namespace Store

variable {σ τ : Store}

/-! ## What each edit can do -/

section Cases

variable (σ : Store) (owner : NodeId) (slot : Slot)

lemma setChild_cases (child : Option NodeId) :
    (∃ e, σ.setChild owner slot child = (.error e, σ)) ∨
    ∃ previous, σ.slotContent owner slot = .ok (.link previous) ∧
      ((child.isSome ∧ child = previous ∧ σ.setChild owner slot child = (.ok previous, σ)) ∨
       (¬ (child.isSome ∧ child = previous) ∧ (∀ new ∈ child, σ.Attachable owner slot new) ∧
        σ.setChild owner slot child = (.ok previous,
          ((σ.setSlot owner slot (.link child)).setParents previous.toList none).setParents
            child.toList (some ⟨owner, slot⟩)))) := by
  unfold setChild occupantOf
  cases σ.slotContent owner slot with
  | error e => exact Or.inl ⟨e, rfl⟩
  | ok content =>
    cases content with
    | list children => exact Or.inl ⟨.notAList slot, rfl⟩
    | link previous =>
      simp only [bind, Except.bind, pure, Except.pure]
      by_cases hsame : child.isSome ∧ child = previous
      · refine Or.inr ⟨previous, rfl, Or.inl ⟨hsame.1, hsame.2, ?_⟩⟩
        rw [if_pos hsame]
        rfl
      · rw [if_neg hsame]
        cases child with
        | none => exact Or.inr ⟨previous, rfl, Or.inr ⟨hsame, by simp, rfl⟩⟩
        | some new =>
          cases hcheck : σ.checkAttach owner slot new with
          | error e => exact Or.inl ⟨e, by simp [hcheck, commit]⟩
          | ok _ =>
            refine Or.inr ⟨previous, rfl, Or.inr ⟨hsame, ?_, by simp [hcheck, commit]⟩⟩
            rintro c ⟨⟩
            exact checkAttach_eq_ok_iff.mp hcheck

lemma insertChild_cases (index : Nat) (child : NodeId) :
    (∃ e, σ.insertChild owner slot index child = (.error e, σ)) ∨
    ∃ present, σ.slotContent owner slot = .ok (.list present) ∧ index ≤ present.length ∧
      σ.Attachable owner slot child ∧
      σ.insertChild owner slot index child = (.ok (),
        (σ.setSlot owner slot (.list (present.insertIdx index child))).setParent child
          (some ⟨owner, slot⟩)) := by
  unfold insertChild sequenceIn
  cases σ.slotContent owner slot with
  | error e => exact Or.inl ⟨e, rfl⟩
  | ok content =>
    cases content with
    | link previous => exact Or.inl ⟨.notAList slot, rfl⟩
    | list present =>
      simp only [bind, Except.bind, pure, Except.pure]
      by_cases hindex : index > present.length
      · rw [if_pos hindex]
        exact Or.inl ⟨_, rfl⟩
      · rw [if_neg hindex]
        cases hcheck : σ.checkAttach owner slot child with
        | error e => exact Or.inl ⟨e, rfl⟩
        | ok _ =>
          exact Or.inr ⟨present, rfl, Nat.le_of_not_lt hindex,
            checkAttach_eq_ok_iff.mp hcheck, rfl⟩

/-- Appending is inserting at the end, or is refused. -/
lemma pushChild_cases (child : NodeId) :
    (∃ e, σ.pushChild owner slot child = (.error e, σ)) ∨
    ∃ index, σ.pushChild owner slot child = σ.insertChild owner slot index child := by
  unfold pushChild
  cases σ.sequenceIn owner slot with
  | error e => exact Or.inl ⟨e, rfl⟩
  | ok present => exact Or.inr ⟨present.length, rfl⟩

lemma removeChild_cases (index : Nat) :
    (∃ e, σ.removeChild owner slot index = (.error e, σ)) ∨
    ∃ present removed, σ.slotContent owner slot = .ok (.list present) ∧
      present[index]? = some removed ∧
      σ.removeChild owner slot index = (.ok removed,
        (σ.setSlot owner slot (.list (present.eraseIdx index))).setParent removed none) := by
  unfold removeChild sequenceIn
  cases σ.slotContent owner slot with
  | error e => exact Or.inl ⟨e, rfl⟩
  | ok content =>
    cases content with
    | link previous => exact Or.inl ⟨.notAList slot, rfl⟩
    | list present =>
      simp only [bind, Except.bind, pure, Except.pure]
      cases hindex : present[index]? with
      | none => exact Or.inl ⟨_, rfl⟩
      | some removed => exact Or.inr ⟨present, removed, rfl, hindex, rfl⟩

lemma detach_cases (id : NodeId) :
    (∃ answer, σ.detach id = (answer, σ)) ∨
    ∃ link content, σ.parent? id = some link ∧
      σ.slotContent link.owner link.slot = .ok content ∧
      σ.detach id = (.ok (some link),
        (σ.setSlot link.owner link.slot (content.without id)).setParent id none) := by
  unfold detach node
  cases hn : σ.node? id with
  | none => exact Or.inl ⟨_, rfl⟩
  | some n =>
    simp only [bind, Except.bind, pure, Except.pure, parent?_of_node? hn]
    cases hp : n.parent with
    | none => exact Or.inl ⟨_, rfl⟩
    | some link =>
      simp only
      cases hcontent : σ.slotContent link.owner link.slot with
      | error e => exact Or.inl ⟨_, rfl⟩
      | ok content =>
        refine Or.inr ⟨link, content, rfl, hcontent, ?_⟩
        cases content <;> rfl

lemma replace_cases (old new : NodeId) :
    (∃ answer, σ.replace old new = (answer, σ)) ∨
    ∃ link content, σ.parent? old = some link ∧ old ≠ new ∧
      σ.slotContent link.owner link.slot = .ok content ∧
      σ.Attachable link.owner link.slot new ∧
      σ.replace old new = (.ok (),
        ((σ.setSlot link.owner link.slot (content.exchange old new)).setParent old none).setParent
          new (some link)) := by
  unfold replace node
  cases hn : σ.node? old with
  | none => exact Or.inl ⟨_, rfl⟩
  | some n =>
    simp only [bind, Except.bind, pure, Except.pure, parent?_of_node? hn]
    cases hp : n.parent with
    | none => exact Or.inl ⟨_, rfl⟩
    | some link =>
      simp only
      by_cases hsame : old = new
      · rw [if_pos hsame]
        exact Or.inl ⟨_, rfl⟩
      · rw [if_neg hsame]
        cases hcheck : σ.checkAttach link.owner link.slot new with
        | error e => exact Or.inl ⟨_, rfl⟩
        | ok _ =>
          cases hcontent : σ.slotContent link.owner link.slot with
          | error e => exact Or.inl ⟨_, rfl⟩
          | ok content =>
            refine Or.inr ⟨link, content, rfl, hsame, hcontent,
              checkAttach_eq_ok_iff.mp hcheck, ?_⟩
            cases content <;> rfl

end Cases

/-! ## Each edit rewires one slot at most -/

/-- The store is as before, or one slot is rewired and only attachable nodes entered it. -/
def Moves (σ τ : Store) : Prop :=
  τ = σ ∨ ∃ owner slot after, σ.Rewires τ owner slot after ∧ σ.Admissible owner slot after

lemma Moves.refl (σ : Store) : σ.Moves σ := Or.inl rfl

lemma Moves.retains (h : σ.Moves τ) : σ.Retains τ := by
  rcases h with rfl | ⟨owner, slot, after, hrewires, -⟩
  · exact Retains.refl τ
  · exact hrewires.retains

/-- **What moves children lawfully keeps a forest.** -/
theorem Forest.of_moves (hf : σ.Forest) (h : σ.Moves τ) : τ.Forest := by
  rcases h with rfl | ⟨owner, slot, after, hrewires, hadm⟩
  · exact hf
  · exact hf.rewire hrewires hadm

section Moving

variable {owner : NodeId} {slot : Slot}

/-- A slot is written and parent links are adjusted. -/
lemma rewires_of_setSlot {before content : SlotContent}
    (hcontent : σ.slotContent owner slot = .ok before)
    (shape : before.sameShape content = true) (hsize : τ.size = σ.size)
    (hretains : (σ.setSlot owner slot content).Retains τ)
    (hchildren : ∀ o s, τ.childrenIn o s = (σ.setSlot owner slot content).childrenIn o s)
    (hparent : ∀ id, τ.parent? id =
      if id ∈ content.toList then some ⟨owner, slot⟩
      else if id ∈ before.toList then none
      else σ.parent? id) :
    σ.Rewires τ owner slot content.toList where
  size_eq := hsize
  retains := (retains_setSlot σ owner slot content).trans hretains
  childrenIn_eq := fun o s => by
    rw [hchildren, childrenIn_setSlot σ owner slot content hcontent shape]
  parent?_eq := fun id => by rw [hparent, childrenIn_of_slotContent hcontent]

lemma parent?_eq_none_of_not_allocated {id : NodeId} (h : ¬ σ.Allocated id) :
    σ.parent? id = none := by
  simp [parent?, node?_eq_none_iff.mpr h]

lemma Attachable.allocated {child : NodeId} (h : σ.Attachable owner slot child) :
    σ.Allocated child := by
  obtain ⟨n, hn, -⟩ := h.admitted
  exact allocated_of_node? hn

/-- A slot for one child gets another occupant or none. -/
lemma rewires_occupant {previous child : Option NodeId}
    (hcontent : σ.slotContent owner slot = .ok (.link previous))
    (hatt : ∀ new ∈ child, σ.Attachable owner slot new) :
    σ.Rewires (((σ.setSlot owner slot (.link child)).setParents previous.toList none).setParents
      child.toList (some ⟨owner, slot⟩)) owner slot child.toList := by
  show σ.Rewires _ owner slot (SlotContent.link child).toList
  refine rewires_of_setSlot hcontent rfl (by simp) ?_ (by simp) ?_
  · exact (retains_setParents _ none _).trans (retains_setParents _ _ _)
  · intro id
    simp only [parent?_setParents, parent?_setSlot, Allocated, size_setParents, size_setSlot,
      SlotContent.toList_link]
    by_cases hchild : id ∈ child.toList
    · have halloc : id.index < σ.size := (hatt id (by simpa using hchild)).allocated
      simp [hchild, halloc]
    · by_cases hprevious : id ∈ previous.toList
      · by_cases halloc : id.index < σ.size
        · simp [hchild, hprevious, halloc]
        · simp [hchild, halloc, parent?_eq_none_of_not_allocated (σ := σ) halloc]
      · simp [hchild, hprevious]

lemma moves_setChild (σ : Store) (owner : NodeId) (slot : Slot) (child : Option NodeId) :
    σ.Moves (σ.setChild owner slot child).2 := by
  rcases σ.setChild_cases owner slot child with
    ⟨e, heq⟩ | ⟨previous, hcontent, ⟨-, -, heq⟩ | ⟨-, hatt, heq⟩⟩
  · rw [heq]
    exact Moves.refl σ
  · rw [heq]
    exact Moves.refl σ
  · rw [heq]
    refine Or.inr ⟨owner, slot, child.toList, rewires_occupant hcontent hatt, ?_, ?_⟩
    · cases child <;> simp
    · exact fun c hc _ => hatt c (by simpa using hc)

/-- An attachable node enters a sequence. -/
lemma moves_insertChild (hf : σ.Forest) (owner : NodeId) (slot : Slot) (index : Nat)
    (child : NodeId) : σ.Moves (σ.insertChild owner slot index child).2 := by
  rcases σ.insertChild_cases owner slot index child with
    ⟨e, heq⟩ | ⟨present, hcontent, hindex, hatt, heq⟩
  · rw [heq]
    exact Moves.refl σ
  · rw [heq]
    have hchildren : σ.childrenIn owner slot = present := childrenIn_of_slotContent hcontent
    -- what the slot holds is attached, so the new child is not among it
    have hfresh : child ∉ present := by
      intro hmem
      rw [← hchildren] at hmem
      exact absurd (hatt.unattached.symm.trans (hf.linked hmem)) (by simp)
    have hmem : ∀ id, id ∈ present.insertIdx index child ↔ id = child ∨ id ∈ present :=
      fun id => List.mem_insertIdx hindex
    refine Or.inr ⟨owner, slot, present.insertIdx index child, ?_, ?_, ?_⟩
    · refine rewires_of_setSlot hcontent rfl (by simp) (retains_setParent _ _ _) (by simp) ?_
      intro id
      simp only [parent?_setParent, parent?_setSlot, Allocated, size_setSlot,
        SlotContent.toList_list, hmem]
      by_cases hid : id = child
      · have halloc : child.index < σ.size := hatt.allocated
        simp [hid, halloc]
      · by_cases hpresent : id ∈ present
        · have hlink := hf.linked (hchildren ▸ hpresent)
          simp [Ne.symm hid, hpresent, hlink]
        · simp [hid, Ne.symm hid, hpresent]
    · have hperm := List.perm_insertIdx child present hindex
      exact hperm.nodup_iff.mpr (List.nodup_cons.mpr ⟨hfresh, hchildren ▸ hf.nodup owner slot⟩)
    · intro c hc hold
      rw [hchildren] at hold
      rcases (hmem c).mp hc with rfl | hpresent
      · exact hatt
      · exact absurd hpresent hold

lemma moves_pushChild (hf : σ.Forest) (owner : NodeId) (slot : Slot) (child : NodeId) :
    σ.Moves (σ.pushChild owner slot child).2 := by
  rcases σ.pushChild_cases owner slot child with ⟨e, heq⟩ | ⟨index, heq⟩
  · rw [heq]
    exact Moves.refl σ
  · rw [heq]
    exact moves_insertChild hf owner slot index child

/-- A child leaves its slot. -/
lemma moves_without (hf : σ.Forest) {id : NodeId} {before after : SlotContent}
    (hcontent : σ.slotContent owner slot = .ok before) (hid : id ∈ before.toList)
    (shape : before.sameShape after = true)
    (hafter : after.toList = before.toList.filter (· ≠ id)) :
    σ.Moves ((σ.setSlot owner slot after).setParent id none) := by
  have hchildren := childrenIn_of_slotContent hcontent
  refine Or.inr ⟨owner, slot, after.toList, ?_, ?_, ?_⟩
  · refine rewires_of_setSlot hcontent shape (by simp) (retains_setParent _ _ _) (by simp) ?_
    intro other
    have hlink : other ∈ before.toList → σ.parent? other = some ⟨owner, slot⟩ :=
      fun hmem => hf.linked (hchildren ▸ hmem)
    have halloc : id.index < σ.size := hf.allocated_held (hchildren ▸ hid)
    simp only [parent?_setParent, parent?_setSlot, Allocated, size_setSlot, hafter,
      List.mem_filter, decide_eq_true_eq]
    by_cases hother : id = other
    · subst hother
      simp [hid, halloc]
    · by_cases hmem : other ∈ before.toList
      · simp [hother, Ne.symm hother, hmem, hlink hmem]
      · simp [hother, hmem]
  · rw [hafter]
    exact (hchildren ▸ hf.nodup owner slot).filter _
  · intro c hc hold
    rw [hafter] at hc
    rw [hchildren] at hold
    exact absurd (List.mem_of_mem_filter hc) hold

/-- Without repetitions, dropping an entry everywhere is dropping it at its position. -/
lemma filter_ne_eq_eraseIdx {xs : List NodeId} {index : Nat} {c : NodeId} (hnodup : xs.Nodup)
    (h : xs[index]? = some c) : xs.filter (· ≠ c) = xs.eraseIdx index := by
  obtain ⟨hlt, rfl⟩ := List.getElem?_eq_some_iff.mp h
  rw [← List.Nodup.erase_getElem hnodup index hlt, hnodup.erase_eq_filter]
  exact List.filter_congr fun x _ => by simp [bne, beq_eq_decide]

lemma moves_removeChild (hf : σ.Forest) (owner : NodeId) (slot : Slot) (index : Nat) :
    σ.Moves (σ.removeChild owner slot index).2 := by
  rcases σ.removeChild_cases owner slot index with
    ⟨e, heq⟩ | ⟨present, removed, hcontent, hindex, heq⟩
  · rw [heq]
    exact Moves.refl σ
  · rw [heq]
    have hnodup : present.Nodup := by
      rw [← SlotContent.toList_list present, ← childrenIn_of_slotContent hcontent]
      exact hf.nodup owner slot
    exact moves_without hf hcontent (List.mem_of_getElem? hindex) rfl
      (filter_ne_eq_eraseIdx hnodup hindex).symm

lemma moves_detach (hf : σ.Forest) (id : NodeId) : σ.Moves (σ.detach id).2 := by
  rcases σ.detach_cases id with ⟨answer, heq⟩ | ⟨link, content, hlink, hcontent, heq⟩
  · rw [heq]
    exact Moves.refl σ
  · rw [heq]
    have hmem : id ∈ content.toList := by
      rw [← childrenIn_of_slotContent hcontent]
      exact hf.held hlink
    exact moves_without hf hcontent hmem (SlotContent.sameShape_without id content)
      (SlotContent.toList_without hmem)

/-- Replacing an entry of a list leaves the other entries and the new one. -/
lemma mem_map_replace {old new x : NodeId} {xs : List NodeId} (h : old ∈ xs) :
    x ∈ xs.map (fun y => if y = old then new else y) ↔ x = new ∨ (x ∈ xs ∧ x ≠ old) := by
  constructor
  · intro hx
    obtain ⟨y, hy, rfl⟩ := List.mem_map.mp hx
    by_cases hold : y = old
    · exact Or.inl (if_pos hold)
    · rw [if_neg hold]
      exact Or.inr ⟨hy, hold⟩
  · rintro (rfl | ⟨hx, hne⟩)
    · exact List.mem_map.mpr ⟨old, h, if_pos rfl⟩
    · exact List.mem_map.mpr ⟨x, hx, if_neg hne⟩

lemma nodup_map_replace {old new : NodeId} {xs : List NodeId} (h : xs.Nodup) (hnew : new ∉ xs) :
    (xs.map fun y => if y = old then new else y).Nodup := by
  refine List.Nodup.map_on ?_ h
  intro x hx y hy heq
  split_ifs at heq with hxo hyo hyo
  · exact hxo.trans hyo.symm
  · exact absurd (heq ▸ hy) hnew
  · exact absurd (heq ▸ hx) hnew
  · exact heq

/-- One node takes the place of another. -/
lemma moves_replace (hf : σ.Forest) (old new : NodeId) : σ.Moves (σ.replace old new).2 := by
  rcases σ.replace_cases old new with
    ⟨answer, heq⟩ | ⟨link, content, hlink, hne, hcontent, hatt, heq⟩
  · rw [heq]
    exact Moves.refl σ
  · rw [heq]
    have hchildren := childrenIn_of_slotContent hcontent
    have hold : old ∈ content.toList := by
      rw [← hchildren]
      exact hf.held hlink
    -- the new node is loose, so it does not stand beside the old one
    have hnew : new ∉ content.toList := by
      intro hmem
      rw [← hchildren] at hmem
      exact absurd (hatt.unattached.symm.trans (hf.linked hmem)) (by simp)
    have hafter : (content.exchange old new).toList =
        content.toList.map fun c => if c = old then new else c := SlotContent.toList_exchange hold
    refine Or.inr ⟨link.owner, link.slot, (content.exchange old new).toList, ?_, ?_, ?_⟩
    · refine rewires_of_setSlot hcontent (SlotContent.sameShape_exchange old new content)
        (by simp) ((retains_setParent _ _ _).trans (retains_setParent _ _ _)) (by simp) ?_
      intro id
      have hothers : id ∈ content.toList → σ.parent? id = some link :=
        fun hmem => hf.linked (hchildren ▸ hmem)
      have hnewAlloc : new.index < σ.size := hatt.allocated
      have holdAlloc : old.index < σ.size := hf.allocated_held (hchildren ▸ hold)
      simp only [parent?_setParent, parent?_setSlot, Allocated, size_setSlot, size_setParent,
        hafter, mem_map_replace hold]
      by_cases hid : id = new
      · simp [hid, hnewAlloc]
      · by_cases hido : id = old
        · simp [hido, Ne.symm hne, hne, hold, holdAlloc]
        · by_cases hmem : id ∈ content.toList
          · simp [hid, Ne.symm hid, hido, Ne.symm hido, hmem, hothers hmem]
          · simp [hid, Ne.symm hid, hido, Ne.symm hido, hmem]
    · rw [hafter]
      exact nodup_map_replace (hchildren ▸ hf.nodup link.owner link.slot) hnew
    · intro c hc hbefore
      rw [hafter, mem_map_replace hold] at hc
      rw [hchildren] at hbefore
      rcases hc with rfl | ⟨hmem, -⟩
      · exact hatt
      · exact absurd hmem hbefore

end Moving

/-! ## Attaching a loose node -/

section Loose

variable {owner child : NodeId} {slot : Slot}

/-- The store with a loose node put into a slot. -/
def attach (σ : Store) (owner : NodeId) (slot : Slot) (content : SlotContent) (child : NodeId) :
    Store :=
  (σ.setSlot owner slot content).setParent child (some ⟨owner, slot⟩)

lemma pushChild_of_attachable {present : List NodeId}
    (hcontent : σ.slotContent owner slot = .ok (.list present))
    (hatt : σ.Attachable owner slot child) :
    σ.pushChild owner slot child =
      (.ok (), σ.attach owner slot (.list (present ++ [child])) child) := by
  have hsequence := sequenceIn_of_slotContent hcontent
  have hcheck := checkAttach_eq_ok_iff.mpr hatt
  have hindex : ¬ present.length > present.length := Nat.lt_irrefl _
  simp only [pushChild, insertChild, hsequence, hcheck, bind, Except.bind, if_neg hindex,
    List.insertIdx_length_self]
  rfl

/-- A node is set in an empty slot. -/
lemma setChild_of_vacant (child : NodeId)
    (hcontent : σ.slotContent owner slot = .ok (.link none)) :
    σ.setChild owner slot (some child) = σ.commit (do
      σ.checkAttach owner slot child
      return (none, σ.attach owner slot (.link (some child)) child)) := by
  have hoccupant := occupantOf_of_slotContent hcontent
  simp only [setChild, hoccupant, bind, Except.bind, reduceCtorEq, and_false, if_false]
  rfl

lemma setChild_of_attachable (hcontent : σ.slotContent owner slot = .ok (.link none))
    (hatt : σ.Attachable owner slot child) :
    σ.setChild owner slot (some child) =
      (.ok none, σ.attach owner slot (.link (some child)) child) := by
  rw [setChild_of_vacant child hcontent, checkAttach_eq_ok_iff.mpr hatt]
  rfl

/-- Clearing an empty slot changes nothing. -/
lemma setChild_none_of_empty (hcontent : σ.slotContent owner slot = .ok (.link none)) :
    σ.setChild owner slot none = (.ok none, σ) := by
  have hoccupant := occupantOf_of_slotContent hcontent
  have hsame : (σ.setSlot owner slot (.link none)).setParents [] none = σ := setSlot_self hcontent
  simp only [setChild, hoccupant, bind, Except.bind, Option.isSome_none, Bool.false_eq_true,
    false_and, if_false, Option.toList_none, hsame]
  rfl

section Attach

variable {content : SlotContent} (hne : owner ≠ child) {n : Node}
include hne

lemma node?_attach_owner (hn : σ.node? owner = some n) :
    (σ.attach owner slot content child).node? owner =
      some { n with payload := n.payload.setSlot slot content } := by
  rw [attach, node?_setParent, if_neg (Ne.symm hne), setSlot, node?_modify, if_pos rfl, hn]
  rfl

lemma node?_attach_child (hn : σ.node? child = some n) :
    (σ.attach owner slot content child).node? child =
      some { n with parent := some ⟨owner, slot⟩ } := by
  rw [attach, node?_setParent, if_pos rfl, setSlot, node?_modify, if_neg hne, hn]
  rfl

end Attach

lemma node?_attach_of_ne {content : SlotContent} {id : NodeId} (howner : id ≠ owner)
    (hchild : id ≠ child) : (σ.attach owner slot content child).node? id = σ.node? id := by
  rw [attach, node?_setParent, if_neg (Ne.symm hchild), setSlot, node?_modify,
    if_neg (Ne.symm howner)]

lemma size_attach (σ : Store) (owner : NodeId) (slot : Slot) (content : SlotContent)
    (child : NodeId) : (σ.attach owner slot content child).size = σ.size := by
  rw [attach, size_setParent, size_setSlot]

end Loose

end Store

end DeclTree
