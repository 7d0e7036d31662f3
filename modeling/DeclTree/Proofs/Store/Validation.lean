import DeclTree.Proofs.Store.Subtrees
import DeclTree.Store.Validate

/-!
# What validation finds

Validation takes identifiers from a stack until one comes twice, a node fails its check, or the
stack is empty.  On any store whatever the loop keeps `Store.Taken`: what was taken or is stacked
are the root and the children of what was taken, each as often as it stands there.  So an identifier
comes twice exactly if it stands at two positions.

An accepted subtree is `Store.SoundBelow` its root, and a subtree that is sound is accepted.  What
can be found in a forest is in `Forest.validateSubtree_cases`: empty required fields and nothing
else.
-/

namespace DeclTree

/-! ## Required fields -/

namespace Payload

/-- The field is the first of the required fields of the payload that is empty. -/
inductive Lacks : Payload → RequiredField → Prop
  | typeName {d : TypeDecl} (h : d.name = "") : Lacks (.type d) .name
  | typeIdentity {d : TypeDecl} (hname : d.name ≠ "") (h : d.identity.qualified = "") :
    Lacks (.type d) .identity
  | methodName {d : MethodDecl} (h : d.name = "") : Lacks (.method d) .name
  | fieldName {d : FieldDecl} (h : d.name = "") : Lacks (.field d) .name

lemma missingField?_eq_some_iff {p : Payload} {field : RequiredField} :
    p.missingField? = some field ↔ p.Lacks field := by
  constructor
  · intro h
    cases p with
    | type d =>
      simp only [missingField?, String.isEmpty_iff] at h
      split_ifs at h with hname hidentity
      · obtain rfl := Option.some.inj h
        exact .typeName hname
      · obtain rfl := Option.some.inj h
        exact .typeIdentity hname hidentity
    | method d =>
      simp only [missingField?, String.isEmpty_iff] at h
      split_ifs at h with hname
      obtain rfl := Option.some.inj h
      exact .methodName hname
    | field d =>
      simp only [missingField?, String.isEmpty_iff] at h
      split_ifs at h with hname
      obtain rfl := Option.some.inj h
      exact .fieldName hname
    | _ => cases h
  · rintro (h | ⟨hname, h⟩ | h | h) <;> simp [missingField?, *]

lemma missingField?_eq_none_iff {p : Payload} :
    p.missingField? = none ↔ ∀ field, ¬ p.Lacks field := by
  simp only [← missingField?_eq_some_iff, Option.eq_none_iff_forall_ne_some, ne_eq]

end Payload

namespace Store

variable {σ : Store} {root id child : NodeId} {n : Node} {stack seen : List NodeId}

/-! ## One node -/

/-- The slot holds a node of an admitted kind whose parent link names the slot. -/
def Holds (σ : Store) (holder : ParentLink) (child : NodeId) : Prop :=
  ∃ n, σ.node? child = some n ∧ n.parent = some holder ∧ holder.slot.admits n.kind = true

lemma checkHeld_eq_ok_iff {holder : ParentLink} :
    σ.checkHeld holder child = .ok () ↔ σ.Holds holder child := by
  unfold checkHeld Holds
  cases hn : σ.node? child with
  | none => simp
  | some n =>
    by_cases hparent : n.parent = some holder
    · by_cases hadmits : holder.slot.admits n.kind = true
      · simp [hparent, hadmits]
      · simp [hparent, hadmits]
    · simp [hparent]

lemma forM_eq_ok_iff {α ε : Type} {f : α → Except ε Unit} {xs : List α} :
    xs.forM f = .ok () ↔ ∀ x ∈ xs, f x = .ok () := by
  induction xs with
  | nil => simp [pure, Except.pure]
  | cons x xs ih =>
    have hcons : (x :: xs).forM f = f x >>= fun _ => xs.forM f := List.forM_cons
    rw [hcons]
    cases hx : f x with
    | error e => simp [hx, bind, Except.bind]
    | ok _ => simpa [hx, bind, Except.bind] using ih

lemma checkNode_eq_ok_iff :
    σ.checkNode id n = .ok () ↔
      (∀ field, ¬ n.payload.Lacks field) ∧
        ∀ {slot c}, c ∈ n.payload.childrenIn slot → σ.Holds ⟨id, slot⟩ c := by
  rw [← Payload.missingField?_eq_none_iff]
  unfold checkNode
  cases hfield : n.payload.missingField? with
  | some field => simp
  | none =>
    simp only [forM_eq_ok_iff, checkHeld_eq_ok_iff, true_and]
    constructor
    · intro h slot c hc
      exact h (slot, c) (Payload.mem_slotChildren.mpr hc)
    · rintro h ⟨slot, c⟩ hmem
      exact h (Payload.mem_slotChildren.mp hmem)

/-- A node whose slots are sound can only lack a required field. -/
lemma checkNode_eq_of_holds
    (h : ∀ {slot c}, c ∈ n.payload.childrenIn slot → σ.Holds ⟨id, slot⟩ c) :
    σ.checkNode id n =
      match n.payload.missingField? with
      | some field => .error (.missingField id n.kind field)
      | none => .ok () := by
  cases hfield : n.payload.missingField? with
  | some field => simp [checkNode, hfield]
  | none => exact checkNode_eq_ok_iff.mpr ⟨Payload.missingField?_eq_none_iff.mp hfield, h⟩

/-! ## The loop -/

/-- The identifiers in `seen` are taken, those in `stack` are still to take. -/
structure Taken (σ : Store) (root : NodeId) (stack seen : List NodeId) : Prop where
  /-- No identifier was taken twice. -/
  nodup : seen.Nodup
  /-- The root was stacked once, and each other identifier for each position where it stands. -/
  perm : (seen ++ stack).Perm (root :: seen.flatMap σ.children)
  /-- Only reachable identifiers are stacked. -/
  reaches : ∀ id ∈ seen ++ stack, σ.Reaches root id
  /-- What was taken passed the check. -/
  checked : ∀ id ∈ seen, ∀ n, σ.node? id = some n → σ.checkNode id n = .ok ()

lemma perm_stacked (p : Payload) : (stacked p).Perm p.children := by
  rw [Payload.children_eq_flatMap]
  exact (List.reverse_perm p.kind.slots).flatMap_right p.childrenIn

lemma children_eq_nil (h : σ.node? id = none) : σ.children id = [] := by
  simp [children, payload?, h]

namespace Taken

lemma start (σ : Store) (root : NodeId) : Taken σ root [root] [] where
  nodup := List.nodup_nil
  perm := List.Perm.refl [root]
  reaches := by
    intro id hid
    obtain rfl := List.mem_singleton.mp hid
    exact .refl
  checked := nofun

/-- Taking a new identifier that passes the check, and stacking its children in any order. -/
lemma step (h : Taken σ root (id :: stack) seen) (hfresh : id ∉ seen) {above : List NodeId}
    (habove : above.Perm (σ.children id))
    (hchecked : ∀ n, σ.node? id = some n → σ.checkNode id n = .ok ()) :
    Taken σ root (above ++ stack) (id :: seen) where
  nodup := List.nodup_cons.mpr ⟨hfresh, h.nodup⟩
  perm := by
    -- first bring `id` back to the stack, where the invariant of before has it
    have hmove : (id :: seen ++ (above ++ stack)).Perm (above ++ (seen ++ id :: stack)) :=
      calc (id :: seen ++ (above ++ stack)).Perm (above ++ (id :: seen ++ stack)) :=
            List.perm_append_comm_assoc (id :: seen) above stack
        _ |>.Perm (above ++ (seen ++ id :: stack)) :=
            (List.perm_middle.symm).append_left above
    rw [List.flatMap_cons]
    calc (id :: seen ++ (above ++ stack)).Perm (above ++ (seen ++ id :: stack)) := hmove
      _ |>.Perm (σ.children id ++ root :: seen.flatMap σ.children) := habove.append h.perm
      _ |>.Perm (root :: (σ.children id ++ seen.flatMap σ.children)) := List.perm_middle
  reaches := by
    have hid : σ.Reaches root id := h.reaches id (by simp)
    intro other hother
    rw [List.mem_append, List.mem_cons, List.mem_append] at hother
    rcases hother with (rfl | hseen) | hnew | hstack
    · exact hid
    · exact h.reaches other (List.mem_append_left _ hseen)
    · exact Relation.ReflTransGen.tail hid (habove.mem_iff.mp hnew)
    · exact h.reaches other (List.mem_append_right _ (List.mem_cons_of_mem id hstack))
  checked := by
    intro other hother n hn
    rcases List.mem_cons.mp hother with rfl | hseen
    · exact hchecked n hn
    · exact h.checked other hseen n hn

/-- When nothing is left to take, the reachable identifiers are taken. -/
lemma mem_iff (h : Taken σ root [] seen) : id ∈ seen ↔ σ.Reaches root id := by
  have hmem : ∀ {x}, x ∈ seen ↔ x ∈ root :: seen.flatMap σ.children := by
    intro x
    rw [← h.perm.mem_iff, List.append_nil]
  constructor
  · intro hid
    exact h.reaches id (List.mem_append_left _ hid)
  · intro hreach
    induction hreach with
    | refl => exact hmem.mpr List.mem_cons_self
    | tail _ hchild ih =>
      exact hmem.mpr (List.mem_cons_of_mem _ (List.mem_flatMap.mpr ⟨_, ih, hchild⟩))

end Taken

/-! ## The ways in which the loop ends -/

lemma checkReachable_of_none (hfresh : id ∉ seen) (hn : σ.node? id = none) :
    σ.checkReachable (id :: stack) seen = σ.checkReachable stack (id :: seen) := by
  rw [checkReachable, if_neg hfresh]
  split
  · rfl
  · rename_i m hm
    rw [hn] at hm
    cases hm

lemma checkReachable_of_node? (hfresh : id ∉ seen) (hn : σ.node? id = some n) :
    σ.checkReachable (id :: stack) seen =
      match σ.checkNode id n with
      | .error e => .error e
      | .ok () => σ.checkReachable (stacked n.payload ++ stack) (id :: seen) := by
  rw [checkReachable, if_neg hfresh]
  split
  · rename_i hm
    rw [hn] at hm
    cases hm
  · rename_i m hm
    rw [hn] at hm
    obtain rfl := Option.some.inj hm
    rfl

/-- **The loop takes everything, or it meets an identifier twice, or a node that fails its
check.** -/
theorem checkReachable_cases (h : Taken σ root stack seen) :
    (∃ out, σ.checkReachable stack seen = .ok out ∧ Taken σ root [] out) ∨
    (∃ id stack' seen', σ.checkReachable stack seen = .error (.sharedChild id) ∧
      Taken σ root (id :: stack') seen' ∧ id ∈ seen') ∨
    ∃ id n e, σ.checkReachable stack seen = .error e ∧ σ.Reaches root id ∧
      σ.node? id = some n ∧ σ.checkNode id n = .error e := by
  induction stack, seen using checkReachable.induct σ with
  | case1 seen => exact Or.inl ⟨seen, by rw [checkReachable], h⟩
  | case2 id stack seen hseen =>
    refine Or.inr (Or.inl ⟨id, stack, seen, ?_, h, hseen⟩)
    rw [checkReachable, if_pos hseen]
  | case3 id stack seen hfresh hn ih =>
    rw [checkReachable_of_none hfresh hn]
    -- an unknown identifier has no children to stack
    have hnext : Taken σ root ([] ++ stack) (id :: seen) := by
      refine h.step hfresh ?_ fun n hn' => ?_
      · rw [children_eq_nil hn]
      · rw [hn] at hn'
        cases hn'
    exact ih hnext
  | case4 id stack seen hfresh n hn e hcheck =>
    refine Or.inr (Or.inr ⟨id, n, e, ?_, h.reaches id (by simp), hn, hcheck⟩)
    rw [checkReachable_of_node? hfresh hn, hcheck]
  | case5 id stack seen hfresh n hn hcheck ih =>
    rw [checkReachable_of_node? hfresh hn, hcheck]
    refine ih (h.step hfresh ?_ fun m hm => ?_)
    · rw [children_of_node? hn]
      exact perm_stacked n.payload
    · rw [hn] at hm
      obtain rfl := Option.some.inj hm
      exact hcheck

/-- In a tree no identifier is stacked twice. -/
lemma TreeAt.nodup_taken (ht : σ.TreeAt root) (h : Taken σ root stack seen) :
    (seen ++ stack).Nodup := by
  have hreach : ∀ id ∈ seen, σ.Reaches root id :=
    fun id hid => h.reaches id (List.mem_append_left stack hid)
  -- the stacked identifiers are the root and children, and no two nodes share a child
  rw [h.perm.nodup_iff, List.nodup_cons, List.nodup_flatMap]
  refine ⟨fun hmem => ?_, fun id hid => ht.nodup_children (hreach id hid), ?_⟩
  · obtain ⟨owner, howner, hheld⟩ := List.mem_flatMap.mp hmem
    obtain ⟨slot, hslot⟩ := mem_children.mp hheld
    exact ht.root_not_held (hreach owner howner) hslot
  · refine h.nodup.imp_of_mem fun {o o'} ho ho' hne c hc hc' => ?_
    obtain ⟨slot, hslot⟩ := mem_children.mp hc
    obtain ⟨slot', hslot'⟩ := mem_children.mp hc'
    have heq := (ht.linked (hreach o ho) hslot).symm.trans (ht.linked (hreach o' ho') hslot')
    exact hne (congrArg ParentLink.owner (Option.some.inj heq))

/-- A tree is taken whole unless a node fails its check. -/
lemma TreeAt.checkReachable_cases (ht : σ.TreeAt root) :
    (∃ out, σ.checkReachable [root] [] = .ok out ∧ Taken σ root [] out) ∨
    ∃ id n e, σ.checkReachable [root] [] = .error e ∧ σ.Reaches root id ∧
      σ.node? id = some n ∧ σ.checkNode id n = .error e := by
  rcases Store.checkReachable_cases (Taken.start σ root) with
    hok | ⟨id, stack', seen', -, htaken, hseen⟩ | herror
  · exact Or.inl hok
  · have hnodup := ht.nodup_taken htaken
    exact absurd List.mem_cons_self ((List.nodup_append.mp hnodup).2.2 id hseen id · rfl)
  · exact Or.inr herror

/-! ## Parent links into the subtree -/

lemma orphanFault?_eq_none_iff :
    σ.orphanFault? seen id = none ↔
      ∀ {link}, σ.parent? id = some link → link.owner ∈ seen →
        id ∈ σ.childrenIn link.owner link.slot := by
  unfold orphanFault?
  cases σ.parent? id with
  | none => simp
  | some link => simp

/-- The scan finds nothing when every node that claims an owner in `seen` is held there. -/
lemma findSome?_orphanFault?_eq_none_iff :
    σ.ids.findSome? (σ.orphanFault? seen) = none ↔
      ∀ {id link}, σ.parent? id = some link → link.owner ∈ seen →
        id ∈ σ.childrenIn link.owner link.slot := by
  simp only [List.findSome?_eq_none_iff, orphanFault?_eq_none_iff]
  constructor
  · intro h id link hlink howner
    obtain ⟨n, hn, -⟩ := exists_node_of_parent? hlink
    exact h id (mem_ids.mpr (allocated_of_node? hn)) hlink howner
  · intro h id _ link hlink howner
    exact h hlink howner

/-! ## Accepted subtrees -/

/-- The subtree of the root is sound, and no node claims a place in it without having it. -/
structure SoundBelow (σ : Store) (root : NodeId) : Prop where
  /-- What a slot holds is a node with that parent link, of a kind that the slot admits. -/
  held : ∀ {owner slot c}, σ.Reaches root owner → c ∈ σ.childrenIn owner slot →
    σ.Holds ⟨owner, slot⟩ c
  /-- No identifier stands at two positions. -/
  position_unique : ∀ {o₁ o₂ s₁ s₂ c} {k₁ k₂ : Nat}, σ.Reaches root o₁ → σ.Reaches root o₂ →
    (σ.childrenIn o₁ s₁)[k₁]? = some c → (σ.childrenIn o₂ s₂)[k₂]? = some c →
    o₁ = o₂ ∧ s₁ = s₂ ∧ k₁ = k₂
  /-- The root stands at none. -/
  root_not_held : ∀ {owner slot}, σ.Reaches root owner → root ∉ σ.childrenIn owner slot
  /-- No node lacks a required field. -/
  filled : ∀ {id n field}, σ.Reaches root id → σ.node? id = some n → ¬ n.payload.Lacks field
  /-- A node of the store that claims a slot of the subtree is held there. -/
  claimed : ∀ {c link}, σ.parent? c = some link → σ.Reaches root link.owner →
    c ∈ σ.childrenIn link.owner link.slot

lemma Holds.parent? {holder : ParentLink} (h : σ.Holds holder child) :
    σ.parent? child = some holder := by
  obtain ⟨n, hn, hparent, -⟩ := h
  rw [parent?_of_node? hn, hparent]

namespace SoundBelow

lemma treeAt (h : σ.SoundBelow root) (hroot : σ.Allocated root) : σ.TreeAt root where
  allocated := hroot
  linked := fun howner hc => (h.held howner hc).parent?
  nodup := by
    intro owner slot howner
    rw [List.nodup_iff_injective_getElem]
    -- equal entries stand at one position
    intro i j hij
    have hi := List.getElem?_eq_getElem i.isLt
    have hj := List.getElem?_eq_getElem j.isLt
    rw [← show (σ.childrenIn owner slot)[i.val] = (σ.childrenIn owner slot)[j.val] from hij] at hj
    exact Fin.ext (h.position_unique howner howner hi hj).2.2
  root_not_held := h.root_not_held

lemma checkNode_eq_ok (h : σ.SoundBelow root) (hreach : σ.Reaches root id)
    (hn : σ.node? id = some n) : σ.checkNode id n = .ok () := by
  refine checkNode_eq_ok_iff.mpr ⟨fun _ => h.filled hreach hn, fun hc => h.held hreach ?_⟩
  rwa [childrenIn_of_node? hn]

end SoundBelow

/-- What was taken without an error, with every claim honoured, is sound. -/
lemma Taken.soundBelow (h : Taken σ root [] seen)
    (hclaimed : ∀ {c link}, σ.parent? c = some link → link.owner ∈ seen →
      c ∈ σ.childrenIn link.owner link.slot) : σ.SoundBelow root := by
  -- with an empty stack, the invariant compares what was taken with what was stacked
  have hnodup : (root :: seen.flatMap σ.children).Nodup := by
    rw [← h.perm.nodup_iff, List.append_nil]
    exact h.nodup
  obtain ⟨hroot, hchildren⟩ := List.nodup_cons.mp hnodup
  have hheld : ∀ {owner slot c}, σ.Reaches root owner → c ∈ σ.childrenIn owner slot →
      σ.Holds ⟨owner, slot⟩ c := by
    intro owner slot c howner hc
    obtain ⟨n, hn, hcn⟩ := exists_node_of_mem_childrenIn hc
    exact (checkNode_eq_ok_iff.mp (h.checked owner (h.mem_iff.mpr howner) n hn)).2 hcn
  have hslots : ∀ {owner} slot, σ.Reaches root owner → (σ.childrenIn owner slot).Nodup := by
    intro owner slot howner
    have hall := (List.nodup_flatMap.mp hchildren).1 owner (h.mem_iff.mpr howner)
    cases hn : σ.node? owner with
    | none => simp [childrenIn, payload?, hn]
    | some n =>
      rw [children_of_node? hn] at hall
      rw [childrenIn_of_node? hn]
      exact Payload.nodup_childrenIn hall slot
  refine ⟨hheld, ?_, ?_, ?_, ?_⟩
  · intro o₁ o₂ s₁ s₂ c k₁ k₂ ho₁ ho₂ h₁ h₂
    exact position_unique_of_linked (hheld ho₁ (List.mem_of_getElem? h₁)).parent?
      (hheld ho₂ (List.mem_of_getElem? h₂)).parent? (hslots s₁ ho₁) h₁ h₂
  · intro owner slot howner hc
    exact hroot (List.mem_flatMap.mpr ⟨owner, h.mem_iff.mpr howner, mem_children.mpr ⟨slot, hc⟩⟩)
  · intro id n field hid hn
    exact (checkNode_eq_ok_iff.mp (h.checked id (h.mem_iff.mpr hid) n hn)).1 field
  · intro c link hlink howner
    exact hclaimed hlink (h.mem_iff.mpr howner)

/-- **Validation accepts a subtree, of any store whatever, exactly if it is sound.** -/
theorem validateSubtree_eq_ok_iff (hroot : σ.Allocated root) :
    σ.validateSubtree root = .ok () ↔ σ.SoundBelow root := by
  unfold validateSubtree
  constructor
  · -- acceptance leaves one of the three ways in which the loop ends
    intro h
    rcases checkReachable_cases (Taken.start σ root) with
      ⟨seen, heq, htaken⟩ | ⟨id, stack', seen', heq, -⟩ | ⟨id, n, e, heq, -⟩
    · rw [heq] at h
      simp only at h
      cases hscan : σ.ids.findSome? (σ.orphanFault? seen) with
      | some e =>
        rw [hscan] at h
        cases h
      | none => exact htaken.soundBelow (findSome?_orphanFault?_eq_none_iff.mp hscan)
    · rw [heq] at h
      cases h
    · rw [heq] at h
      cases h
  · intro h
    rcases (h.treeAt hroot).checkReachable_cases with
      ⟨seen, heq, htaken⟩ | ⟨id, n, e, -, hreach, hn, hcheck⟩
    · have hscan : σ.ids.findSome? (σ.orphanFault? seen) = none :=
        findSome?_orphanFault?_eq_none_iff.mpr fun hlink howner =>
          h.claimed hlink (htaken.mem_iff.mp howner)
      rw [heq]
      simp only [hscan]
    · rw [h.checkNode_eq_ok hreach hn] at hcheck
      cases hcheck

/-- A type that is a member of itself passes every check of its own, but it is taken twice. -/
theorem validateSubtree_ne_ok_of_loop :
    Store.validateSubtree
      ⟨#[⟨.type ⟨.classForm, "A", ⟨"A"⟩, [⟨0⟩]⟩, .dummy, some ⟨⟨0⟩, .members⟩⟩], by decide⟩ ⟨0⟩ ≠
        .ok () := by
  intro hok
  have hsound := (validateSubtree_eq_ok_iff (by decide)).mp hok
  exact hsound.root_not_held (Relation.ReflTransGen.refl : Reaches _ ⟨0⟩ ⟨0⟩)
    (show _ ∈ childrenIn _ _ .members by decide)

/-! ## Subtrees of forests -/

lemma Forest.holds (hf : σ.Forest) {slot : Slot} (hc : child ∈ σ.childrenIn id slot) :
    σ.Holds ⟨id, slot⟩ child := by
  obtain ⟨n, hn, hadmits⟩ := hf.admitted hc
  exact ⟨n, hn, by rw [← parent?_of_node? hn, hf.linked hc], hadmits⟩

/-- In a forest a node can only lack a required field. -/
lemma Forest.checkNode_eq (hf : σ.Forest) (hn : σ.node? id = some n) :
    σ.checkNode id n =
      match n.payload.missingField? with
      | some field => .error (.missingField id n.kind field)
      | none => .ok () :=
  checkNode_eq_of_holds fun hc => hf.holds (by rwa [childrenIn_of_node? hn])

lemma Forest.lacks_of_checkNode (hf : σ.Forest) (hn : σ.node? id = some n) {e : ValidationError}
    (h : σ.checkNode id n = .error e) :
    ∃ field, n.payload.Lacks field ∧ e = .missingField id n.kind field := by
  rw [hf.checkNode_eq hn] at h
  cases hfield : n.payload.missingField? with
  | none =>
    rw [hfield] at h
    cases h
  | some field =>
    rw [hfield] at h
    exact ⟨field, Payload.missingField?_eq_some_iff.mp hfield, (Except.error.inj h).symm⟩

/-- **In a forest validation finds empty required fields and nothing else.** -/
theorem Forest.validateSubtree_cases (hf : σ.Forest) (hroot : σ.Allocated root) :
    (σ.validateSubtree root = .ok () ∧
      ∀ id n field, σ.Reaches root id → σ.node? id = some n → ¬ n.payload.Lacks field) ∨
    ∃ id n field, σ.validateSubtree root = .error (.missingField id n.kind field) ∧
      σ.Reaches root id ∧ σ.node? id = some n ∧ n.payload.Lacks field := by
  unfold validateSubtree
  rcases (hf.treeAt hroot).checkReachable_cases with
    ⟨seen, heq, htaken⟩ | ⟨id, n, e, heq, hreach, hn, hcheck⟩
  · have hscan : σ.ids.findSome? (σ.orphanFault? seen) = none :=
      findSome?_orphanFault?_eq_none_iff.mpr fun hlink _ => hf.held hlink
    refine Or.inl ⟨by simp only [heq, hscan], fun id n field hreach hn => ?_⟩
    exact (checkNode_eq_ok_iff.mp (htaken.checked id (htaken.mem_iff.mpr hreach) n hn)).1 field
  · obtain ⟨field, hfield, rfl⟩ := hf.lacks_of_checkNode hn hcheck
    exact Or.inr ⟨id, n, field, by rw [heq], hreach, hn, hfield⟩

end Store

end DeclTree
