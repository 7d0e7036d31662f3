import DeclTree.Proofs.Store.Attachment
import DeclTree.Proofs.Store.Refusals
import DeclTree.Proofs.Store.Subtrees

/-!
# Which attachments are legal

The four edits that attach a node differ in how they find the slot and in where they put the node.
What they ask of the slot and of the node is the same, so it is said once: an `Attempt` is to put a
newcomer into a slot of a shape, perhaps at a position.  `Attempt.Legal` says which attempts are
legal, and `Attempt.Tells` what an error says of one that is not.

`Store.Decides` puts together what is to be shown of each edit: it succeeds exactly on the legal
attempts, with the effect that it should have, and otherwise it leaves the store as it is and what
its error says is so.
-/

namespace DeclTree.Store

variable {σ τ : Store} {owner child : NodeId} {slot : Slot}

/-! ## Slots by shape -/

/-- The owner is a node with such a slot. -/
def HasSlot (σ : Store) (owner : NodeId) (slot : Slot) : Prop :=
  ∃ n, σ.node? owner = some n ∧ slot ∈ n.kind.slots

lemma HasSlot.allocated (h : σ.HasSlot owner slot) : σ.Allocated owner := by
  obtain ⟨n, hn, -⟩ := h
  exact allocated_of_node? hn

lemma hasSlot_of_slotContent {content : SlotContent}
    (h : σ.slotContent owner slot = .ok content) : σ.HasSlot owner slot := by
  obtain ⟨n, hn, hslot⟩ := slotContent_eq_ok_iff.mp h
  exact ⟨n, hn, Payload.slot?_isSome_iff.mp (Option.isSome_of_eq_some hslot)⟩

lemma hasSlot_of_mem (h : child ∈ σ.childrenIn owner slot) : σ.HasSlot owner slot := by
  obtain ⟨n, hn, hmem⟩ := exists_node_of_mem_childrenIn h
  exact ⟨n, hn, Payload.mem_slots_of_mem_childrenIn hmem⟩

/-- The shape of the content is that of the slot. -/
lemma slotContent_of_hasSlot (h : σ.HasSlot owner slot) :
    (slot.isList = true ∧ σ.slotContent owner slot = .ok (.list (σ.childrenIn owner slot))) ∨
    (slot.isList = false ∧ ∃ occupant, σ.childrenIn owner slot = occupant.toList ∧
      σ.slotContent owner slot = .ok (.link occupant)) := by
  obtain ⟨n, hn, hslot⟩ := h
  cases hlist : slot.isList with
  | true =>
    refine Or.inl ⟨rfl, slotContent_eq_ok_iff.mpr ⟨n, hn, ?_⟩⟩
    rw [childrenIn_of_node? hn]
    exact Payload.slot?_of_isList hslot hlist
  | false =>
    obtain ⟨occupant, hcontent, hchildren⟩ :=
      Payload.slot?_of_not_isList hslot (by rw [hlist]; exact Bool.false_ne_true)
    refine Or.inr ⟨rfl, occupant, ?_, slotContent_eq_ok_iff.mpr ⟨n, hn, hcontent⟩⟩
    rw [childrenIn_of_node? hn, hchildren]

/-- A slot for a sequence holds one, and no other slot does. -/
lemma isList_of_slotContent {content : SlotContent}
    (h : σ.slotContent owner slot = .ok content) : slot.isList = content.sameShape (.list []) := by
  rcases slotContent_of_hasSlot (hasSlot_of_slotContent h) with
    ⟨hlist, heq⟩ | ⟨hlink, occupant, -, heq⟩
  · obtain rfl := Except.ok.inj (h.symm.trans heq)
    exact hlist
  · obtain rfl := Except.ok.inj (h.symm.trans heq)
    exact hlink

lemma slotContent_of_occupantOf {occupant : Option NodeId}
    (h : σ.occupantOf owner slot = .ok occupant) :
    σ.slotContent owner slot = .ok (.link occupant) := by
  unfold occupantOf at h
  rcases hcontent : σ.slotContent owner slot with e | ⟨child | children⟩ <;>
    rw [hcontent] at h <;> cases h
  rfl

lemma childrenIn_of_occupantOf {occupant : Option NodeId}
    (h : σ.occupantOf owner slot = .ok occupant) :
    σ.childrenIn owner slot = occupant.toList :=
  childrenIn_of_slotContent (slotContent_of_occupantOf h)

/-! ## Legal attempts -/

/-- The child may enter the slot of the owner. -/
structure MayEnter (σ : Store) (owner : NodeId) (slot : Slot) (child : NodeId) : Prop where
  /-- The child is a node of a kind that the slot admits. -/
  admitted : ∃ n, σ.node? child = some n ∧ slot.admits n.kind = true
  /-- No slot holds the child. -/
  unattached : σ.parent? child = none
  /-- The child is neither the owner nor one of its ancestors. -/
  not_above : ¬ σ.Reaches child owner

lemma Forest.attachable_iff (hf : σ.Forest) :
    σ.Attachable owner slot child ↔ σ.HasSlot owner slot ∧ σ.MayEnter owner slot child := by
  constructor
  · intro h
    obtain ⟨content, hcontent⟩ := h.hasSlot
    refine ⟨hasSlot_of_slotContent hcontent, h.admitted, h.unattached, fun hreach => ?_⟩
    exact (hf.reaches_iff.mp hreach).elim h.ne_owner h.not_ancestor
  · rintro ⟨hslot, hadmitted, hunattached, habove⟩
    have hcontent : ∃ content, σ.slotContent owner slot = .ok content := by
      rcases slotContent_of_hasSlot hslot with ⟨-, h⟩ | ⟨-, occupant, -, h⟩
      · exact ⟨_, h⟩
      · exact ⟨_, h⟩
    refine ⟨hcontent, hunattached, hadmitted, fun heq => ?_, fun hmem => ?_⟩
    · exact habove (hf.reaches_iff.mpr (Or.inl heq))
    · exact habove (hf.reaches_iff.mpr (Or.inr hmem))

/-- An attempt to put a newcomer into a slot. -/
structure Attempt where
  /-- The node with the slot. -/
  owner : NodeId
  /-- The slot. -/
  slot : Slot
  /-- Whether the slot has to hold a sequence. -/
  list : Bool
  /-- The position that is asked for, if any. -/
  index? : Option Nat
  /-- The node that enters, if any. -/
  newcomer? : Option NodeId

namespace Attempt

/-- The attempt is legal. -/
structure Legal (σ : Store) (a : Attempt) : Prop where
  hasSlot : σ.HasSlot a.owner a.slot
  shape : a.slot.isList = a.list
  index_le : ∀ index ∈ a.index?, index ≤ (σ.childrenIn a.owner a.slot).length
  mayEnter : ∀ new ∈ a.newcomer?, σ.MayEnter a.owner a.slot new

/-- What the error says of the attempt is so, and it carries the values of the store. -/
def Tells (σ : Store) (a : Attempt) : TreeError → Prop
  | .unknownNode id => ¬ σ.Allocated id ∧ (id = a.owner ∨ a.newcomer? = some id)
  | .noSuchSlot node kind slot =>
    node = a.owner ∧ slot = a.slot ∧ σ.kind? node = some kind ∧ slot ∉ kind.slots
  | .kindMismatch slot found => slot = a.slot ∧ slot.admits found = false ∧
    ∃ new, a.newcomer? = some new ∧ σ.kind? new = some found
  | .alreadyAttached new holder => a.newcomer? = some new ∧ σ.parent? new = some holder
  | .cycle owner new => owner = a.owner ∧ a.newcomer? = some new ∧ σ.Reaches new owner
  | .indexOutOfRange slot index length => slot = a.slot ∧ a.index? = some index ∧
    length = (σ.childrenIn a.owner slot).length ∧ length < index
  | .notAList slot => slot = a.slot ∧ σ.HasSlot a.owner slot ∧ slot.isList ≠ a.list
  | _ => False

variable {a : Attempt}

/-- No error says anything true of a legal attempt. -/
lemma Legal.not_tells (h : a.Legal σ) (e : TreeError) : ¬ a.Tells σ e := by
  intro htells
  cases e with
  | unknownNode id =>
    obtain ⟨hunknown, rfl | hnew⟩ := htells
    · exact hunknown (h.hasSlot.allocated)
    · obtain ⟨n, hn, -⟩ := (h.mayEnter id hnew).admitted
      exact hunknown (allocated_of_node? hn)
  | noSuchSlot node kind slot =>
    obtain ⟨rfl, rfl, hkind, hslot⟩ := htells
    obtain ⟨n, hn, hmem⟩ := h.hasSlot
    rw [kind?, hn, Option.map_some] at hkind
    exact hslot (Option.some.inj hkind ▸ hmem)
  | kindMismatch slot found =>
    obtain ⟨rfl, hadmits, new, hnew, hkind⟩ := htells
    obtain ⟨n, hn, hadmitted⟩ := (h.mayEnter new hnew).admitted
    rw [kind?, hn, Option.map_some] at hkind
    rw [← Option.some.inj hkind, hadmitted] at hadmits
    cases hadmits
  | alreadyAttached new holder =>
    have hloose := (h.mayEnter new htells.1).unattached
    rw [htells.2] at hloose
    cases hloose
  | cycle owner new =>
    obtain ⟨rfl, hnew, hreach⟩ := htells
    exact (h.mayEnter new hnew).not_above hreach
  | indexOutOfRange slot index length =>
    obtain ⟨rfl, hindex, rfl, hlt⟩ := htells
    exact absurd (h.index_le index hindex) (Nat.not_le_of_lt hlt)
  | notAList slot =>
    obtain ⟨rfl, -, hshape⟩ := htells
    exact hshape h.shape
  | _ => exact htells

/-- If the slot is there and the newcomer is loose and not above it, only its kind is at fault. -/
lemma Tells.eq_kindMismatch {e : TreeError} {new : NodeId} {kind : Kind} (h : a.Tells σ e)
    (hslot : σ.HasSlot a.owner a.slot) (hshape : a.slot.isList = a.list) (hindex : a.index? = none)
    (hnew : a.newcomer? = some new) (hkind : σ.kind? new = some kind)
    (hloose : σ.parent? new = none) (habove : ¬ σ.Reaches new a.owner) :
    e = .kindMismatch a.slot kind := by
  cases e with
  | unknownNode id =>
    obtain ⟨hunknown, rfl | hid⟩ := h
    · exact absurd hslot.allocated hunknown
    · obtain rfl := Option.some.inj (hnew.symm.trans hid)
      rw [kind?, node?_eq_none_iff.mpr hunknown] at hkind
      cases hkind
  | noSuchSlot node found slot =>
    obtain ⟨rfl, rfl, hfound, hmissing⟩ := h
    obtain ⟨n, hn, hmem⟩ := hslot
    rw [kind?, hn, Option.map_some] at hfound
    exact absurd (Option.some.inj hfound ▸ hmem) hmissing
  | kindMismatch slot found =>
    obtain ⟨rfl, -, id, hid, hfound⟩ := h
    obtain rfl := Option.some.inj (hnew.symm.trans hid)
    rw [Option.some.inj (hkind.symm.trans hfound)]
  | alreadyAttached id holder =>
    obtain ⟨hid, hheld⟩ := h
    obtain rfl := Option.some.inj (hnew.symm.trans hid)
    rw [hloose] at hheld
    cases hheld
  | cycle owner id =>
    obtain ⟨rfl, hid, hreach⟩ := h
    obtain rfl := Option.some.inj (hnew.symm.trans hid)
    exact absurd hreach habove
  | indexOutOfRange slot index length =>
    obtain ⟨-, hindex', -⟩ := h
    rw [hindex] at hindex'
    cases hindex'
  | notAList slot =>
    obtain ⟨rfl, -, hother⟩ := h
    exact absurd hshape hother
  | _ => exact h.elim

/-! ### What the checks say -/

lemma tells_noSuchSlot {n : Node} (hn : σ.node? a.owner = some n)
    (hslot : n.payload.slot? a.slot = none) :
    a.Tells σ (.noSuchSlot a.owner n.kind a.slot) := by
  refine ⟨rfl, rfl, by rw [kind?, hn]; rfl, fun hmem => ?_⟩
  have hsome := Payload.slot?_isSome_iff.mpr hmem
  rw [hslot] at hsome
  cases hsome

/-- A slot is refused because the owner is unknown or has no such slot. -/
lemma tells_of_slotContent {e : TreeError} (h : σ.slotContent a.owner a.slot = .error e) :
    a.Tells σ e := by
  unfold slotContent node at h
  cases hn : σ.node? a.owner with
  | none =>
    rw [hn] at h
    obtain rfl := Except.error.inj h
    exact ⟨node?_eq_none_iff.mp hn, Or.inl rfl⟩
  | some n =>
    rw [hn] at h
    simp only [bind, Except.bind] at h
    cases hslot : n.payload.slot? a.slot with
    | some content =>
      rw [hslot] at h
      cases h
    | none =>
      rw [hslot] at h
      obtain rfl := Except.error.inj h
      exact tells_noSuchSlot hn hslot

/-- A slot that is read for contents of one shape is refused as a slot or for its shape. -/
lemma tells_of_reading {α : Type} {read : SlotContent → Except TreeError α} {e : TreeError}
    (hread : ∀ {content e'}, read content = .error e' →
      content.sameShape (.list []) ≠ a.list ∧ e' = .notAList a.slot)
    (h : (σ.slotContent a.owner a.slot >>= read) = .error e) : a.Tells σ e := by
  cases hcontent : σ.slotContent a.owner a.slot with
  | error e' =>
    rw [hcontent] at h
    obtain rfl := Except.error.inj h
    exact tells_of_slotContent hcontent
  | ok content =>
    rw [hcontent] at h
    obtain ⟨hshape, rfl⟩ := hread h
    refine ⟨rfl, hasSlot_of_slotContent hcontent, ?_⟩
    rwa [isList_of_slotContent hcontent]

/-- The checks of a newcomer say what is so. -/
lemma tells_of_checkAttach (hf : σ.Forest) {new : NodeId} {e : TreeError}
    (hnew : a.newcomer? = some new) (h : σ.checkAttach a.owner a.slot new = .error e) :
    a.Tells σ e := by
  cases ho : σ.node? a.owner with
  | none =>
    simp only [checkAttach, node, ho, bind, Except.bind] at h
    obtain rfl := Except.error.inj h
    exact ⟨node?_eq_none_iff.mp ho, Or.inl rfl⟩
  | some o =>
    cases hc : σ.node? new with
    | none =>
      simp only [checkAttach, node, ho, hc, bind, Except.bind] at h
      obtain rfl := Except.error.inj h
      exact ⟨node?_eq_none_iff.mp hc, Or.inr hnew⟩
    | some c =>
      rw [checkAttach_of_node? ho hc] at h
      split at h
      · next holder _ hparent =>
        obtain rfl := Except.error.inj h
        exact ⟨hnew, by rw [parent?_of_node? hc, hparent]⟩
      · next hslot =>
        obtain rfl := Except.error.inj h
        exact tells_noSuchSlot ho hslot
      · split_ifs at h with hadmits hcycle
        · obtain rfl := Except.error.inj h
          exact ⟨rfl, hadmits, new, hnew, by rw [kind?, hc]; rfl⟩
        · obtain rfl := Except.error.inj h
          exact ⟨rfl, hnew, hf.reaches_iff.mpr hcycle⟩

end Attempt

/-! ## What an accepted attempt does -/

/-- `τ` is `σ` with the slot holding `after`, where `entering` have come in and `leaving` have gone.
Only their parent links are different, and no record of any other node is. -/
structure Refills (σ τ : Store) (owner : NodeId) (slot : Slot)
    (after entering leaving : List NodeId) : Prop where
  size_eq : τ.size = σ.size
  written : ∃ n p, σ.node? owner = some n ∧ τ.node? owner = some { n with payload := p } ∧
    n.payload.sameScalars p = true ∧
    ∀ s, p.childrenIn s = if s = slot then after else n.payload.childrenIn s
  entered : ∀ id ∈ entering, ∃ n, σ.node? id = some n ∧
    τ.node? id = some { n with parent := some ⟨owner, slot⟩ }
  left : ∀ id ∈ leaving, ∃ n, σ.node? id = some n ∧ τ.node? id = some { n with parent := none }
  others : ∀ id, id ≠ owner → id ∉ entering → id ∉ leaving → τ.node? id = σ.node? id

lemma node?_setParents (σ : Store) (ids : List NodeId) (link : Option ParentLink) (id : NodeId) :
    (σ.setParents ids link).node? id =
      if id ∈ ids then (σ.node? id).map fun n => { n with parent := link } else σ.node? id := by
  induction ids generalizing σ with
  | nil => rfl
  | cons first ids ih =>
    have hstep : (σ.setParents (first :: ids) link).node? id =
        ((σ.setParent first link).setParents ids link).node? id := rfl
    rw [hstep, ih, node?_setParent]
    by_cases hfirst : first = id
    · subst hfirst
      by_cases hmem : first ∈ ids <;> simp [hmem, Option.map_map, Function.comp_def]
    · simp [hfirst, Ne.symm hfirst]

/-- The slot and then the parent links are written; none of the nodes in question is the owner, and
none both comes and goes. -/
lemma refills_of_writes {before : SlotContent} (after : SlotContent)
    (entering leaving : List NodeId)
    (hcontent : σ.slotContent owner slot = .ok before) (shape : before.sameShape after = true)
    (hentering : ∀ id ∈ entering, σ.Allocated id ∧ id ≠ owner ∧ id ∉ leaving)
    (hleaving : ∀ id ∈ leaving, σ.Allocated id ∧ id ≠ owner) :
    σ.Refills (((σ.setSlot owner slot after).setParents leaving none).setParents entering
      (some ⟨owner, slot⟩)) owner slot after.toList entering leaving := by
  have hnode : ∀ id, (((σ.setSlot owner slot after).setParents leaving none).setParents entering
      (some ⟨owner, slot⟩)).node? id =
      if id ∈ entering then
        ((σ.setSlot owner slot after).setParents leaving none |>.node? id).map
          fun n => { n with parent := some ⟨owner, slot⟩ }
      else (σ.setSlot owner slot after).setParents leaving none |>.node? id :=
    node?_setParents _ _ _
  have hslot : ∀ {id}, id ≠ owner → (σ.setSlot owner slot after).node? id = σ.node? id := by
    intro id hid
    rw [setSlot, node?_modify, if_neg (Ne.symm hid)]
  obtain ⟨n, hn, hbefore⟩ := slotContent_eq_ok_iff.mp hcontent
  refine ⟨by simp, ⟨n, n.payload.setSlot slot after, hn, ?_, ?_, ?_⟩, ?_, ?_, ?_⟩
  · have howner : owner ∉ entering := fun h => (hentering owner h).2.1 rfl
    have howner' : owner ∉ leaving := fun h => (hleaving owner h).2 rfl
    rw [hnode, if_neg howner, node?_setParents, if_neg howner', setSlot, node?_modify, if_pos rfl,
      hn]
    rfl
  · exact Payload.sameScalars_setSlot n.payload slot after
  · exact Payload.childrenIn_setSlot hbefore shape
  · intro id hid
    obtain ⟨halloc, hne, hstays⟩ := hentering id hid
    obtain ⟨m, hm⟩ := exists_node_iff.mpr halloc
    refine ⟨m, hm, ?_⟩
    rw [hnode, if_pos hid, node?_setParents, if_neg hstays, hslot hne, hm]
    rfl
  · intro id hid
    obtain ⟨halloc, hne⟩ := hleaving id hid
    obtain ⟨m, hm⟩ := exists_node_iff.mpr halloc
    have hout : id ∉ entering := fun h => (hentering id h).2.2 hid
    refine ⟨m, hm, ?_⟩
    rw [hnode, if_neg hout, node?_setParents, if_pos hid, hslot hne, hm]
    rfl
  · intro id hne hout hstays
    rw [hnode, if_neg hout, node?_setParents, if_neg hstays, hslot hne]

section Forest

variable (hf : σ.Forest)
include hf

/-- What a slot holds are nodes other than the owner. -/
lemma Forest.child_ne_owner (h : child ∈ σ.childrenIn owner slot) :
    σ.Allocated child ∧ child ≠ owner := by
  refine ⟨hf.allocated_held h, ?_⟩
  rintro rfl
  exact hf.acyclic child (.single ⟨slot, hf.linked h⟩)

/-- A newcomer is a node other than the owner, and the slot does not hold it. -/
lemma Forest.newcomer (h : σ.Attachable owner slot child) :
    σ.Allocated child ∧ child ≠ owner ∧ child ∉ σ.childrenIn owner slot := by
  obtain ⟨n, hn, -⟩ := h.admitted
  refine ⟨allocated_of_node? hn, Ne.symm h.ne_owner, fun hmem => ?_⟩
  have hlink := hf.linked hmem
  rw [h.unattached] at hlink
  cases hlink

end Forest

/-! ## The edits -/

/-- An edit succeeds exactly if it is legal, with its effect; otherwise it leaves the store as it
is, and what its error says is so. -/
structure Decides {α : Type} (σ : Store) (reply : Reply α) (legal : Prop)
    (effect : α → Store → Prop) (tells : TreeError → Prop) : Prop where
  succeeds_iff : (∃ answer, reply.1 = .ok answer) ↔ legal
  effect : ∀ {answer}, reply.1 = .ok answer → effect answer reply.2
  refuses : ∀ {e}, reply.1 = .error e → reply.2 = σ ∧ tells e

namespace Decides

variable {α : Type} {reply : Reply α} {legal : Prop} {effect : α → Store → Prop}
  {tells : TreeError → Prop} (h : σ.Decides reply legal effect tells)
include h

lemma exists_of_legal (hlegal : legal) :
    ∃ answer τ, reply = (.ok answer, τ) ∧ effect answer τ := by
  obtain ⟨answer, hanswer⟩ := h.succeeds_iff.mpr hlegal
  exact ⟨answer, reply.2, Prod.ext hanswer rfl, h.effect hanswer⟩

lemma exists_of_not_legal (hnot : ¬ legal) : ∃ e, reply = (.error e, σ) ∧ tells e := by
  cases hanswer : reply.1 with
  | ok answer => exact absurd (h.succeeds_iff.mp ⟨answer, hanswer⟩) hnot
  | error e =>
    obtain ⟨hsame, htells⟩ := h.refuses hanswer
    exact ⟨e, Prod.ext hanswer hsame, htells⟩

end Decides

/-- It is enough that a success is legal and has the effect, and that an error says what is so and
says so of no legal attempt. -/
lemma decides_of_cases {α : Type} {reply : Reply α} {legal : Prop} {effect : α → Store → Prop}
    {tells : TreeError → Prop} (hnot : legal → ∀ e, ¬ tells e)
    (h : (∃ e, reply = (.error e, σ) ∧ tells e) ∨
      ∃ answer τ, reply = (.ok answer, τ) ∧ legal ∧ effect answer τ) :
    σ.Decides reply legal effect tells := by
  rcases h with ⟨e, rfl, htells⟩ | ⟨answer, τ, rfl, hlegal, heffect⟩
  · refine ⟨⟨?_, fun hlegal => absurd htells (hnot hlegal e)⟩, nofun, ?_⟩
    · rintro ⟨answer, hanswer⟩
      cases hanswer
    · rintro e' ⟨⟩
      exact ⟨rfl, htells⟩
  · refine ⟨⟨fun _ => hlegal, fun _ => ⟨answer, rfl⟩⟩, ?_, nofun⟩
    rintro answer' ⟨⟩
    exact heffect

/-- To put a child into a slot for at most one, or to clear it.  The present occupant is no
newcomer. -/
def settingChild (σ : Store) (owner : NodeId) (slot : Slot) (child : Option NodeId) : Attempt where
  owner := owner
  slot := slot
  list := false
  index? := none
  newcomer? := child.filter fun new => σ.childrenIn owner slot ≠ [new]

/-- To insert a child into a sequence. -/
def insertingChild (owner : NodeId) (slot : Slot) (index : Nat) (child : NodeId) : Attempt where
  owner := owner
  slot := slot
  list := true
  index? := some index
  newcomer? := some child

/-- To append a child to a sequence. -/
def pushingChild (owner : NodeId) (slot : Slot) (child : NodeId) : Attempt where
  owner := owner
  slot := slot
  list := true
  index? := none
  newcomer? := some child

/-- To put a node in the place of another, which the link names.  A node is no newcomer in its own
place. -/
def replacing (link : ParentLink) (old new : NodeId) : Attempt where
  owner := link.owner
  slot := link.slot
  list := link.slot.isList
  index? := none
  newcomer? := if old = new then none else some new

/-- What an error of `replace` says: of the node to be replaced, or of the attempt to put the other
one in its place. -/
def ReplaceTells (σ : Store) (old new : NodeId) (e : TreeError) : Prop :=
  (e = .unknownNode old ∧ ¬ σ.Allocated old) ∨
  (e = .notAttached old ∧ σ.Allocated old ∧ σ.parent? old = none) ∨
  ∃ link, σ.parent? old = some link ∧ (replacing link old new).Tells σ e

/-- What `setChild` does: it answers with the occupant of before, and if that is not the child, the
one leaves the slot and the other enters it. -/
def SetsChild (σ : Store) (owner : NodeId) (slot : Slot) (child previous : Option NodeId)
    (τ : Store) : Prop :=
  σ.childrenIn owner slot = previous.toList ∧
  if child.isSome ∧ child = previous then τ = σ
  else σ.Refills τ owner slot child.toList child.toList previous.toList

/-- What `replace` does: the new node stands where the old one stood, or it is the old one. -/
def Replaces (σ : Store) (old new : NodeId) (τ : Store) : Prop :=
  if old = new then τ = σ
  else ∃ link front back, σ.parent? old = some link ∧
    σ.childrenIn link.owner link.slot = front ++ old :: back ∧
    σ.Refills τ link.owner link.slot (front ++ new :: back) [new] [old]

/-- Where an entry occurs once, to exchange it everywhere is to exchange it there. -/
lemma map_exchange_of_nodup {old new : NodeId} {front back : List NodeId}
    (h : (front ++ old :: back).Nodup) :
    (front ++ old :: back).map (fun c => if c = old then new else c) = front ++ new :: back := by
  have hkept : ∀ {cs : List NodeId}, old ∉ cs →
      cs.map (fun c => if c = old then new else c) = cs := by
    intro cs hout
    refine (List.map_congr_left fun c hc => if_neg ?_).trans (List.map_id cs)
    rintro rfl
    exact hout hc
  obtain ⟨-, hback, hdisj⟩ := List.nodup_append.mp h
  have hfront : old ∉ front := fun hmem => hdisj old hmem old List.mem_cons_self rfl
  rw [List.map_append, List.map_cons, if_pos rfl, hkept hfront,
    hkept (List.nodup_cons.mp hback).1]

/-- No error says anything true of a legal replacement. -/
lemma not_replaceTells {old new : NodeId} {e : TreeError}
    (h : ∃ link, σ.parent? old = some link ∧ (replacing link old new).Legal σ) :
    ¬ σ.ReplaceTells old new e := by
  obtain ⟨link, hlink, hlegal⟩ := h
  rintro (⟨-, hunknown⟩ | ⟨-, -, hloose⟩ | ⟨link', hlink', htells⟩)
  · obtain ⟨n, hn, -⟩ := exists_node_of_parent? hlink
    exact hunknown (allocated_of_node? hn)
  · rw [hlink] at hloose
    cases hloose
  · obtain rfl := Option.some.inj (hlink.symm.trans hlink')
    exact hlegal.not_tells e htells

section Edits

variable (hf : σ.Forest)
include hf

lemma Forest.decides_insertChild (owner : NodeId) (slot : Slot) (index : Nat) (child : NodeId) :
    σ.Decides (σ.insertChild owner slot index child)
      ((insertingChild owner slot index child).Legal σ)
      (fun _ τ => σ.Refills τ owner slot ((σ.childrenIn owner slot).insertIdx index child)
        [child] [])
      ((insertingChild owner slot index child).Tells σ) := by
  refine decides_of_cases (fun h => h.not_tells) ?_
  rcases σ.insertChild_cases owner slot index child with
    ⟨e, heq⟩ | ⟨present, hcontent, hindex, hatt, heq⟩
  · refine Or.inl ⟨e, heq, ?_⟩
    unfold insertChild at heq
    cases hpresent : σ.sequenceIn owner slot with
    | error e' =>
      rw [hpresent] at heq
      obtain rfl := Except.error.inj (congrArg Prod.fst heq)
      refine Attempt.tells_of_reading (fun {content e''} hrefused => ?_) hpresent
      cases content with
      | list present => cases hrefused
      | link occupant => exact ⟨Bool.false_ne_true, (Except.error.inj hrefused).symm⟩
    | ok present =>
      rw [hpresent] at heq
      simp only [bind, Except.bind, pure, Except.pure] at heq
      have hchildren : σ.childrenIn owner slot = present :=
        childrenIn_of_slotContent (slotContent_of_sequenceIn hpresent)
      split_ifs at heq with hindex
      · obtain rfl := Except.error.inj (congrArg Prod.fst heq)
        exact ⟨rfl, rfl, congrArg List.length hchildren.symm, hindex⟩
      · cases hcheck : σ.checkAttach owner slot child with
        | error e' =>
          rw [hcheck] at heq
          obtain rfl := Except.error.inj (congrArg Prod.fst heq)
          exact Attempt.tells_of_checkAttach hf rfl hcheck
        | ok _ =>
          rw [hcheck] at heq
          cases heq
  · have hchildren : σ.childrenIn owner slot = present := childrenIn_of_slotContent hcontent
    obtain ⟨hslot, henter⟩ := hf.attachable_iff.mp hatt
    obtain ⟨halloc, hne, -⟩ := hf.newcomer hatt
    refine Or.inr ⟨(), _, heq, ⟨hslot, isList_of_slotContent hcontent, ?_, ?_⟩, ?_⟩
    · rintro _ ⟨⟩
      exact hchildren ▸ hindex
    · rintro _ ⟨⟩
      exact henter
    · rw [hchildren]
      refine refills_of_writes (.list (present.insertIdx index child)) [child] [] hcontent rfl ?_
        nofun
      intro id hid
      obtain rfl := List.mem_singleton.mp hid
      exact ⟨halloc, hne, List.not_mem_nil⟩

/-- To append is to insert behind the last, and then the position is never at fault. -/
lemma Forest.decides_pushChild (owner : NodeId) (slot : Slot) (child : NodeId) :
    σ.Decides (σ.pushChild owner slot child) ((pushingChild owner slot child).Legal σ)
      (fun _ τ => σ.Refills τ owner slot (σ.childrenIn owner slot ++ [child]) [child] [])
      ((pushingChild owner slot child).Tells σ) := by
  have hinsert : σ.pushChild owner slot child =
      σ.insertChild owner slot (σ.childrenIn owner slot).length child := by
    cases hpresent : σ.sequenceIn owner slot with
    | error e =>
      rw [pushChild, insertChild, hpresent]
      rfl
    | ok present =>
      rw [pushChild, hpresent, childrenIn_of_slotContent (slotContent_of_sequenceIn hpresent)]
      rfl
  have hdecides := hf.decides_insertChild owner slot (σ.childrenIn owner slot).length child
  rw [hinsert]
  refine ⟨hdecides.succeeds_iff.trans ⟨?_, ?_⟩, fun hanswer => ?_, @fun e he => ?_⟩
  · exact fun h => ⟨h.hasSlot, h.shape, fun _ hindex => (Option.not_mem_none _ hindex).elim,
      h.mayEnter⟩
  · refine fun h => ⟨h.hasSlot, h.shape, ?_, h.mayEnter⟩
    rintro _ ⟨⟩
    exact Nat.le_refl _
  · have heffect := hdecides.effect hanswer
    rwa [List.insertIdx_length_self] at heffect
  · obtain ⟨hsame, htells⟩ := hdecides.refuses he
    refine ⟨hsame, ?_⟩
    cases e with
    | indexOutOfRange slot' index length =>
      obtain ⟨rfl, ⟨⟩, rfl, hlt⟩ := htells
      exact absurd hlt (Nat.lt_irrefl _)
    | _ => exact htells

lemma Forest.decides_setChild (owner : NodeId) (slot : Slot) (child : Option NodeId) :
    σ.Decides (σ.setChild owner slot child) ((σ.settingChild owner slot child).Legal σ)
      (σ.SetsChild owner slot child) ((σ.settingChild owner slot child).Tells σ) := by
  refine decides_of_cases (fun h => h.not_tells) ?_
  rcases σ.setChild_cases owner slot child with ⟨e, heq⟩ | ⟨previous, hcontent, hdone⟩
  · refine Or.inl ⟨e, heq, ?_⟩
    unfold setChild at heq
    cases hprevious : σ.occupantOf owner slot with
    | error e' =>
      rw [hprevious] at heq
      obtain rfl := Except.error.inj (congrArg Prod.fst heq)
      refine Attempt.tells_of_reading (fun {content e''} hrefused => ?_) hprevious
      cases content with
      | link occupant => cases hrefused
      | list present => exact ⟨Bool.noConfusion, (Except.error.inj hrefused).symm⟩
    | ok previous =>
      rw [hprevious] at heq
      have hchildren := childrenIn_of_occupantOf hprevious
      simp only [bind, Except.bind, pure, Except.pure] at heq
      split_ifs at heq with hsame
      · cases heq
      · cases child with
        | none => cases heq
        | some new =>
          have hnew : (σ.settingChild owner slot (some new)).newcomer? = some new := by
            have hne : σ.childrenIn owner slot ≠ [new] := by
              rw [hchildren]
              intro hlist
              exact hsame ⟨rfl, (Option.toList_eq_singleton_iff.mp hlist).symm⟩
            simp [settingChild, hne]
          cases hcheck : σ.checkAttach owner slot new with
          | error e' =>
            simp only [hcheck] at heq
            obtain rfl := Except.error.inj (congrArg Prod.fst heq)
            exact Attempt.tells_of_checkAttach hf hnew hcheck
          | ok _ =>
            simp only [hcheck] at heq
            cases heq
  · have hslot := hasSlot_of_slotContent hcontent
    have hlink : slot.isList = false := isList_of_slotContent hcontent
    have hchildren : σ.childrenIn owner slot = previous.toList :=
      childrenIn_of_slotContent hcontent
    refine Or.inr ?_
    rcases hdone with ⟨hsome, rfl, heq⟩ | ⟨hne, hatt, heq⟩
    · -- the present occupant is set again
      obtain ⟨new, rfl⟩ := Option.isSome_iff_exists.mp hsome
      refine ⟨_, σ, heq, ⟨hslot, hlink, nofun, ?_⟩, hchildren, (if_pos ⟨rfl, rfl⟩).mpr rfl⟩
      intro c hc
      simp [settingChild, hchildren] at hc
    · refine ⟨_, _, heq, ⟨hslot, hlink, nofun, fun new hnew => ?_⟩, hchildren, ?_⟩
      · have hmem : new ∈ child := (Option.mem_filter_iff.mp hnew).1
        exact (hf.attachable_iff.mp (hatt new hmem)).2
      · rw [if_neg hne]
        refine refills_of_writes (.link child) child.toList previous.toList hcontent rfl
          (fun id hid => ?_) (fun id hid => ?_)
        · rw [← hchildren]
          exact hf.newcomer (hatt id (Option.mem_toList.mp hid))
        · exact hf.child_ne_owner (hchildren ▸ hid)

/-- The one takes the place of the other. -/
lemma Forest.replaces {old new : NodeId} {link : ParentLink} {content : SlotContent}
    (hne : old ≠ new) (hlink : σ.parent? old = some link)
    (hcontent : σ.slotContent link.owner link.slot = .ok content)
    (hatt : σ.Attachable link.owner link.slot new) :
    σ.Replaces old new
      (((σ.setSlot link.owner link.slot (content.exchange old new)).setParent old none).setParent
        new (some link)) := by
  have hchildren := childrenIn_of_slotContent hcontent
  have hheld := hf.held hlink
  obtain ⟨front, back, hsplit⟩ := List.append_of_mem hheld
  have hnodup := hf.nodup link.owner link.slot
  have hafter : (content.exchange old new).toList = front ++ new :: back := by
    rw [SlotContent.toList_exchange (hchildren ▸ hheld), ← hchildren, hsplit]
    exact map_exchange_of_nodup (hsplit ▸ hnodup)
  refine (if_neg hne).mpr ⟨link, front, back, hlink, hsplit, ?_⟩
  rw [← hafter]
  refine refills_of_writes (content.exchange old new) [new] [old] hcontent
    (SlotContent.sameShape_exchange old new content) (fun id hid => ?_) (fun id hid => ?_)
  · obtain rfl := List.mem_singleton.mp hid
    obtain ⟨halloc, howner, -⟩ := hf.newcomer hatt
    exact ⟨halloc, howner, fun hmem => hne (List.mem_singleton.mp hmem).symm⟩
  · obtain rfl := List.mem_singleton.mp hid
    exact hf.child_ne_owner hheld

lemma Forest.decides_replace (old new : NodeId) :
    σ.Decides (σ.replace old new)
      (∃ link, σ.parent? old = some link ∧ (replacing link old new).Legal σ)
      (fun _ => σ.Replaces old new) (σ.ReplaceTells old new) := by
  refine decides_of_cases (fun h e => not_replaceTells h) ?_
  unfold replace node
  cases hn : σ.node? old with
  | none => exact Or.inl ⟨_, rfl, Or.inl ⟨rfl, node?_eq_none_iff.mp hn⟩⟩
  | some n =>
    have hparent := parent?_of_node? hn
    simp only [bind, Except.bind, pure, Except.pure]
    cases hlink : n.parent with
    | none =>
      rw [hlink] at hparent
      exact Or.inl ⟨_, rfl, Or.inr (Or.inl ⟨rfl, allocated_of_node? hn, hparent⟩)⟩
    | some link =>
      rw [hlink] at hparent
      have hheld := hf.held hparent
      simp only
      by_cases hsame : old = new
      · rw [if_pos hsame]
        refine Or.inr ⟨(), σ, rfl, ⟨link, hparent, hasSlot_of_mem hheld, rfl, nofun, ?_⟩, ?_⟩
        · simp [replacing, hsame]
        · exact (if_pos hsame).mpr rfl
      · rw [if_neg hsame]
        have hnew : (replacing link old new).newcomer? = some new := if_neg hsame
        cases hcheck : σ.checkAttach link.owner link.slot new with
        | error e =>
          refine Or.inl ⟨e, rfl, Or.inr (Or.inr ⟨link, hparent, ?_⟩)⟩
          exact Attempt.tells_of_checkAttach hf hnew hcheck
        | ok _ =>
          have hatt := checkAttach_eq_ok_iff.mp hcheck
          obtain ⟨hslot, henter⟩ := hf.attachable_iff.mp hatt
          obtain ⟨content, hcontent⟩ := hatt.hasSlot
          have hlegal : (replacing link old new).Legal σ := by
            refine ⟨hslot, rfl, nofun, fun c hc => ?_⟩
            obtain rfl := Option.some.inj (hnew.symm.trans hc)
            exact henter
          have heffect := hf.replaces hsame hparent hcontent hatt
          refine Or.inr ⟨(), _, ?_, ⟨link, hparent, hlegal⟩, heffect⟩
          rw [hcontent]
          cases content <;> rfl

end Edits

/-- **The four edits that attach a node accept exactly the legal attachments**, on every store that
clients can build.  When they accept, the slot is filled anew and no record but those of the owner,
the child and the displaced node is different; when they refuse, nothing is different and the error
says what is so. -/
theorem Reachable.attachments_decided (h : σ.Reachable) :
    (∀ owner slot child,
      σ.Decides (σ.setChild owner slot child) ((σ.settingChild owner slot child).Legal σ)
        (σ.SetsChild owner slot child) ((σ.settingChild owner slot child).Tells σ)) ∧
    (∀ owner slot child,
      σ.Decides (σ.pushChild owner slot child) ((pushingChild owner slot child).Legal σ)
        (fun _ τ => σ.Refills τ owner slot (σ.childrenIn owner slot ++ [child]) [child] [])
        ((pushingChild owner slot child).Tells σ)) ∧
    (∀ owner slot index child,
      σ.Decides (σ.insertChild owner slot index child)
        ((insertingChild owner slot index child).Legal σ)
        (fun _ τ => σ.Refills τ owner slot ((σ.childrenIn owner slot).insertIdx index child)
          [child] [])
        ((insertingChild owner slot index child).Tells σ)) ∧
    ∀ old new,
      σ.Decides (σ.replace old new)
        (∃ link, σ.parent? old = some link ∧ (replacing link old new).Legal σ)
        (fun _ => σ.Replaces old new) (σ.ReplaceTells old new) :=
  ⟨h.forest.decides_setChild, h.forest.decides_pushChild, h.forest.decides_insertChild,
    h.forest.decides_replace⟩

/-- A type with a member: a method goes in front of the member, and the type is refused as a member
of its own. -/
theorem attachments_decided_of_members : ∃ (σ τ : Store), σ.Reachable ∧
    σ.childrenIn ⟨0⟩ .members = [⟨1⟩] ∧
    σ.insertChild ⟨0⟩ .members 0 ⟨2⟩ = (.ok (), τ) ∧
    σ.Refills τ ⟨0⟩ .members [⟨2⟩, ⟨1⟩] [⟨2⟩] [] ∧
    σ.pushChild ⟨0⟩ .members ⟨0⟩ = (.error (.cycle ⟨0⟩ ⟨0⟩), σ) ∧
    ¬ (pushingChild ⟨0⟩ .members ⟨0⟩).Legal σ := by
  let type (members : List NodeId) : Payload := .type ⟨.classForm, "A", ⟨"A"⟩, members⟩
  let method : Payload := .method ⟨"run", [], false⟩
  let σ : Store := ⟨#[⟨type [⟨1⟩], .dummy, none⟩, ⟨method, .dummy, some ⟨⟨0⟩, .members⟩⟩,
    ⟨method, .dummy, none⟩], by decide⟩
  have hσ : σ.Reachable := by
    have hσ := Reachable.empty.step (.alloc (type []) .dummy) nofun rfl
    have hσ := hσ.step (.alloc method .dummy) nofun rfl
    have hσ := hσ.step (.alloc method .dummy) nofun rfl
    have hσ := hσ.step (.pushChild ⟨0⟩ .members ⟨1⟩) nofun rfl
    obtain ⟨τ, hτ, rfl⟩ : ∃ τ : Store, τ.Reachable ∧ τ = σ := ⟨_, hσ, by decide +kernel⟩
    exact hτ
  obtain ⟨-, hpush, hinsert, -⟩ := hσ.attachments_decided
  refine ⟨σ, _, hσ, rfl, rfl, (hinsert ⟨0⟩ .members 0 ⟨2⟩).effect rfl, rfl, fun hlegal => ?_⟩
  obtain ⟨answer, hanswer⟩ := (hpush ⟨0⟩ .members ⟨0⟩).succeeds_iff.mpr hlegal
  cases hanswer

end DeclTree.Store
