import DeclTree.Proofs.Store.Forest
import DeclTree.Store.Attachment

/-!
# Rewiring one slot

Every edit that attaches or detaches nodes rewrites one slot of one node and the parent links of
those that enter or leave it.  `Store.Rewires` says this of two stores, whatever the edit was, and
`Forest.rewire` shows once that a forest stays a forest.

The only condition on the nodes that enter is the one that the edits check, `Store.Attachable`.
-/

namespace DeclTree.Store

variable {σ τ : Store} {owner child : NodeId} {slot : Slot}

/-! ## What is checked before a node is attached -/

/-- The child may be placed into the slot. -/
structure Attachable (σ : Store) (owner : NodeId) (slot : Slot) (child : NodeId) : Prop where
  /-- The owner is a node with such a slot. -/
  hasSlot : ∃ content, σ.slotContent owner slot = .ok content
  /-- No slot holds the child. -/
  unattached : σ.parent? child = none
  /-- The child is a node of a kind that the slot admits. -/
  admitted : ∃ n, σ.node? child = some n ∧ slot.admits n.kind = true
  /-- The child is not the owner itself. -/
  ne_owner : owner ≠ child
  /-- The child is no owner above the owner. -/
  not_ancestor : child ∉ σ.ancestors owner

/-- The checks on known nodes, in their order. -/
lemma checkAttach_of_node? {o c : Node} (ho : σ.node? owner = some o)
    (hc : σ.node? child = some c) :
    σ.checkAttach owner slot child =
      match c.parent, o.payload.slot? slot with
      | some holder, _ => .error (.alreadyAttached child holder)
      | none, none => .error (.noSuchSlot owner o.kind slot)
      | none, some _ =>
        if slot.admits c.kind = false then .error (.kindMismatch slot c.kind)
        else if owner = child ∨ child ∈ σ.ancestors owner then .error (.cycle owner child)
        else .ok () := by
  simp only [checkAttach, node, ho, hc, bind, Except.bind, pure, Except.pure, throw, throwThe,
    MonadExceptOf.throw]
  cases c.parent <;> cases o.payload.slot? slot <;> simp

/-- The checks succeed exactly when the child may be placed into the slot. -/
lemma checkAttach_eq_ok_iff :
    σ.checkAttach owner slot child = .ok () ↔ σ.Attachable owner slot child := by
  constructor
  · intro h
    cases ho : σ.node? owner with
    | none => simp [checkAttach, node, ho, bind, Except.bind] at h
    | some o =>
      cases hc : σ.node? child with
      | none => simp [checkAttach, node, ho, hc, bind, Except.bind] at h
      | some c =>
        rw [checkAttach_of_node? ho hc] at h
        split at h
        · exact absurd h (by simp)
        · exact absurd h (by simp)
        · rename_i content hparent hslot
          split_ifs at h with hadmits hcycle
          rw [not_or] at hcycle
          exact ⟨⟨content, slotContent_eq_ok_iff.mpr ⟨o, ho, hslot⟩⟩,
            by rw [parent?_of_node? hc, hparent], ⟨c, hc, by simpa using hadmits⟩,
            hcycle.1, hcycle.2⟩
  · rintro ⟨⟨content, hcontent⟩, hparent, ⟨c, hc, hadmits⟩, hne, hanc⟩
    obtain ⟨o, ho, hslot⟩ := slotContent_eq_ok_iff.mp hcontent
    rw [parent?_of_node? hc] at hparent
    rw [checkAttach_of_node? ho hc, hparent, hslot]
    simp [hadmits, hne, hanc]

/-- The checks read the kinds of both nodes, the parent link of the child and the owners above the
slot. -/
lemma checkAttach_eq :
    σ.checkAttach owner slot child =
      match σ.kind? owner, σ.kind? child, σ.parent? child with
      | none, _, _ => .error (.unknownNode owner)
      | some _, none, _ => .error (.unknownNode child)
      | some _, some _, some holder => .error (.alreadyAttached child holder)
      | some kind, some found, none =>
        if slot ∉ kind.slots then .error (.noSuchSlot owner kind slot)
        else if slot.admits found = false then .error (.kindMismatch slot found)
        else if owner = child ∨ child ∈ σ.ancestors owner then .error (.cycle owner child)
        else .ok () := by
  cases ho : σ.node? owner with
  | none => simp [checkAttach, node, kind?, ho, bind, Except.bind]
  | some o =>
    cases hc : σ.node? child with
    | none => simp [checkAttach, node, kind?, ho, hc, bind, Except.bind]
    | some c =>
      rw [checkAttach_of_node? ho hc, kind?, ho, kind?, hc, parent?_of_node? hc]
      simp only [Option.map_some]
      cases c.parent with
      | some holder => rfl
      | none =>
        have hslot : slot ∈ o.kind.slots ↔ (o.payload.slot? slot).isSome = true :=
          Payload.slot?_isSome_iff.symm
        cases hcontent : o.payload.slot? slot with
        | none => simp [hslot, hcontent]
        | some content => simp [hslot, hcontent]

lemma checkAttach_congr (howner : τ.kind? owner = σ.kind? owner)
    (hchild : τ.kind? child = σ.kind? child) (hparent : τ.parent? child = σ.parent? child)
    (habove : τ.ancestors owner = σ.ancestors owner) :
    τ.checkAttach owner slot child = σ.checkAttach owner slot child := by
  rw [checkAttach_eq, checkAttach_eq, howner, hchild, hparent, habove]

/-! ## One slot rewritten -/

/-- `τ` is `σ` with one slot rewritten: the nodes in `after` are held there now, those that the
slot held before and holds no more are loose, and nothing else is different. -/
structure Rewires (σ τ : Store) (owner : NodeId) (slot : Slot) (after : List NodeId) : Prop where
  size_eq : τ.size = σ.size
  retains : σ.Retains τ
  childrenIn_eq : ∀ o s,
    τ.childrenIn o s = if o = owner ∧ s = slot then after else σ.childrenIn o s
  parent?_eq : ∀ id, τ.parent? id =
    if id ∈ after then some ⟨owner, slot⟩
    else if id ∈ σ.childrenIn owner slot then none
    else σ.parent? id

namespace Rewires

variable {after : List NodeId}

/-- A parent link after the change is one of before or belongs to a node that entered. -/
lemma ownedBy (h : σ.Rewires τ owner slot after) {x o : NodeId} (hx : τ.OwnedBy x o) :
    σ.OwnedBy x o ∨ (x ∈ after ∧ o = owner) := by
  obtain ⟨s, hs⟩ := hx
  rw [h.parent?_eq] at hs
  split_ifs at hs with hafter hbefore
  · exact Or.inr ⟨hafter, (congrArg ParentLink.owner (Option.some.inj hs)).symm⟩
  · exact Or.inl ⟨s, hs⟩

end Rewires

/-- The nodes that enter the slot may be placed there, and none enters twice. -/
structure Admissible (σ : Store) (owner : NodeId) (slot : Slot) (after : List NodeId) : Prop where
  nodup : after.Nodup
  attachable : ∀ c ∈ after, c ∉ σ.childrenIn owner slot → σ.Attachable owner slot c

namespace Forest

variable {after : List NodeId}

/-- No node that enters lies above the owner, or is the owner. -/
lemma not_under_entering (hf : σ.Forest) (hadm : σ.Admissible owner slot after) {c : NodeId}
    (hc : c ∈ after) (hreach : Relation.ReflTransGen σ.OwnedBy owner c) : False := by
  by_cases hbefore : c ∈ σ.childrenIn owner slot
  · -- the owner would lie under its own child
    have hstep : σ.OwnedBy c owner := ⟨slot, hf.linked hbefore⟩
    exact hf.acyclic owner (Relation.TransGen.tail' hreach hstep)
  · have hatt := hadm.attachable c hc hbefore
    rcases Relation.reflTransGen_iff_eq_or_transGen.mp hreach with heq | hunder
    · exact hatt.ne_owner heq.symm
    · exact hatt.not_ancestor (hf.mem_ancestors_iff.mpr hunder)

/-- A chain after the change is one of before, or it climbs through a node that entered. -/
lemma under_of_rewires (hf : σ.Forest) (h : σ.Rewires τ owner slot after)
    (hadm : σ.Admissible owner slot after) {x y : NodeId} (hxy : τ.Under x y) :
    σ.Under x y ∨ ∃ c ∈ after, Relation.ReflTransGen σ.OwnedBy x c ∧
      Relation.ReflTransGen σ.OwnedBy owner y := by
  -- by induction on the chain: its last step is one of before, or it enters the slot, and then the
  -- rest of the chain up to there cannot have entered already
  induction hxy with
  | single hstep =>
    rcases h.ownedBy hstep with hold | ⟨hafter, rfl⟩
    · exact Or.inl (.single hold)
    · exact Or.inr ⟨x, hafter, .refl, .refl⟩
  | tail _ hstep ih =>
    rcases h.ownedBy hstep with hold | ⟨hafter, rfl⟩
    · rcases ih with hunder | ⟨c, hc, hxc, hoy⟩
      · exact Or.inl (.tail hunder hold)
      · exact Or.inr ⟨c, hc, hxc, .tail hoy hold⟩
    · rcases ih with hunder | ⟨c, hc, hxc, hoy⟩
      · exact Or.inr ⟨_, hafter, hunder.to_reflTransGen, .refl⟩
      · exact (hf.not_under_entering hadm hafter hoy).elim

/-- **Rewriting one slot keeps a forest, if only attachable nodes enter.** -/
theorem rewire (hf : σ.Forest) (h : σ.Rewires τ owner slot after)
    (hadm : σ.Admissible owner slot after) : τ.Forest where
  admitted := by
    intro o s c hc
    have hold : ∃ n, σ.node? c = some n ∧ s.admits n.kind = true := by
      rw [h.childrenIn_eq] at hc
      split_ifs at hc with hos
      · obtain ⟨rfl, rfl⟩ := hos
        by_cases hbefore : c ∈ σ.childrenIn o s
        · exact hf.admitted hbefore
        · exact (hadm.attachable c hc hbefore).admitted
      · exact hf.admitted hc
    obtain ⟨n, hn, hadmits⟩ := hold
    obtain ⟨m, hm, hkind, -⟩ := h.retains.extends c n hn
    exact ⟨m, hm, by rw [hkind]; exact hadmits⟩
  linked := by
    intro o s c hc
    rw [h.childrenIn_eq] at hc
    rw [h.parent?_eq]
    split_ifs at hc with hos
    · obtain ⟨rfl, rfl⟩ := hos
      rw [if_pos hc]
    · have hlink := hf.linked hc
      -- a child of another slot was not held here before and is not attachable
      have hbefore : c ∉ σ.childrenIn owner slot := by
        intro hmem
        have heq := (hf.linked hmem).symm.trans hlink
        obtain ⟨rfl, rfl⟩ := ParentLink.mk.inj (Option.some.inj heq)
        exact hos ⟨rfl, rfl⟩
      have hafter : c ∉ after := by
        intro hmem
        rw [(hadm.attachable c hmem hbefore).unattached] at hlink
        exact absurd hlink (by simp)
      rw [if_neg hafter, if_neg hbefore, hlink]
  nodup := by
    intro o s
    rw [h.childrenIn_eq]
    split_ifs
    · exact hadm.nodup
    · exact hf.nodup o s
  held := by
    intro c link hlink
    rw [h.parent?_eq] at hlink
    rw [h.childrenIn_eq]
    split_ifs at hlink with hafter hbefore
    · obtain rfl := Option.some.inj hlink
      rwa [if_pos ⟨rfl, rfl⟩]
    · have hmem := hf.held hlink
      have hne : ¬ (link.owner = owner ∧ link.slot = slot) := by
        rintro ⟨ho, hs⟩
        exact hbefore (by rwa [ho, hs] at hmem)
      rwa [if_neg hne]
  acyclic := by
    intro x hx
    rcases hf.under_of_rewires h hadm hx with hunder | ⟨c, hc, hxc, hox⟩
    · exact hf.acyclic x hunder
    · exact hf.not_under_entering hadm hc (hox.trans hxc)

end Forest

end DeclTree.Store
