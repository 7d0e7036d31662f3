import DeclTree.Proofs.Store.Faults
import DeclTree.Proofs.Store.Mirrors
import DeclTree.Proofs.Store.PreOrder
import DeclTree.Proofs.Store.Runs

/-!
# The first fault of a forest

In a forest validation can find empty required fields only, and it stops at the first.  Which one is
first depends on the order in which it goes through the tree: it stacks the slots of a node so that
the last comes first, while the listing of the descendants has the first slot first.

The two orders differ at the root of a unit and nowhere else, for no other node has several slots,
and such a root is below no node.  And of its slots only the types lead to required fields.  So both
orders have the same first fault.
-/

namespace DeclTree.Store

variable {σ : Store} {root x id : NodeId} {n : Node} {stack seen : List NodeId}

/-! ## The order of validation -/

/-- The children of a node in the order in which validation takes them from its stack. -/
def stackedChildren (σ : Store) (id : NodeId) : List NodeId :=
  match σ.node? id with
  | some n => stacked n.payload
  | none => []

lemma stackedChildren_of_node? (hn : σ.node? id = some n) :
    σ.stackedChildren id = stacked n.payload := by
  rw [stackedChildren, hn]

lemma arranges_stackedChildren (σ : Store) : σ.Arranges σ.stackedChildren := by
  intro id
  cases hn : σ.node? id with
  | none =>
    rw [stackedChildren, hn, children_eq_nil hn]
  | some n =>
    rw [stackedChildren_of_node? hn, children_of_node? hn]
    exact perm_stacked n.payload

/-- The fault of a node that lacks a required field. -/
def fieldFault? (σ : Store) (id : NodeId) : Option ValidationError :=
  (σ.node? id).bind fun n =>
    n.payload.missingField?.map fun field => .missingField id n.kind field

lemma fieldFault?_of_node? (hn : σ.node? id = some n) :
    σ.fieldFault? id = n.payload.missingField?.map fun field => .missingField id n.kind field := by
  rw [fieldFault?, hn]
  rfl

/-- In a forest the check of a node finds that fault only. -/
lemma Forest.checkNode_eq_fieldFault? (hf : σ.Forest) (hn : σ.node? id = some n) :
    σ.checkNode id n =
      match σ.fieldFault? id with
      | some e => .error e
      | none => .ok () := by
  rw [hf.checkNode_eq hn, fieldFault?_of_node? hn]
  cases n.payload.missingField? <;> rfl

/-- **Validation goes through a forest in its own pre-order, up to the first fault.** -/
lemma Forest.checkReachable_eq (hf : σ.Forest)
    (h : σ.Pending σ.stackedChildren stack seen) :
    (σ.checkReachable stack seen).map (fun _ => ()) =
      match (stack.flatMap (σ.preOrder σ.stackedChildren)).findSome? σ.fieldFault? with
      | some e => .error e
      | none => .ok () := by
  have horder := σ.arranges_stackedChildren
  induction stack, seen using checkReachable.induct σ with
  | case1 seen => rw [checkReachable]; rfl
  | case2 id stack seen hseen => exact absurd hseen (h.head_fresh horder)
  | case3 id stack seen _ hn =>
    have halloc := (h.treeAt id List.mem_cons_self).allocated
    exact absurd halloc (node?_eq_none_iff.mp hn)
  | case4 id stack seen hfresh n hn e hcheck =>
    rw [checkReachable_of_node? hfresh hn, h.flatMap_cons horder, List.findSome?_cons]
    rw [hf.checkNode_eq_fieldFault? hn] at hcheck ⊢
    cases hfault : σ.fieldFault? id with
    | none =>
      rw [hfault] at hcheck
      cases hcheck
    | some e' => rfl
  | case5 id stack seen hfresh n hn hcheck ih =>
    have hnext := h.take horder
    rw [checkReachable_of_node? hfresh hn, hcheck, h.flatMap_cons horder, List.findSome?_cons]
    rw [hf.checkNode_eq_fieldFault? hn] at hcheck
    cases hfault : σ.fieldFault? id with
    | none =>
      rw [stackedChildren_of_node? hn] at hnext ⊢
      exact ih hnext
    | some e' =>
      rw [hfault] at hcheck
      cases hcheck

/-! ## Where the two orders differ -/

/-- A node without slots, or with one only, has its children stacked in the order of the slot. -/
lemma stackedChildren_eq_children (hn : σ.node? id = some n) (hkind : n.kind ≠ .compilationUnit) :
    σ.stackedChildren id = σ.children id := by
  rw [stackedChildren_of_node? hn, children_of_node? hn, Payload.children_eq_flatMap, stacked]
  have hslots : n.payload.kind.slots.reverse = n.payload.kind.slots := by
    rw [Node.kind] at hkind
    cases hk : n.payload.kind with
    | compilationUnit => exact absurd hk hkind
    | _ => rfl
  rw [hslots]

/-- Below a child there is no compilation unit, so validation goes through its tree as the listing
of the descendants does. -/
lemma Forest.preOrder_stackedChildren (hf : σ.Forest) (hchild : x ∈ σ.children root) :
    σ.preOrder σ.stackedChildren x = σ.descendants x := by
  have hagree : ∀ y, σ.Reaches x y → σ.stackedChildren y = σ.children y := by
    intro y hy
    obtain ⟨owner, hheld⟩ : ∃ owner, y ∈ σ.children owner := by
      rcases Relation.ReflTransGen.cases_tail hy with rfl | ⟨owner, -, hheld⟩
      · exact ⟨root, hchild⟩
      · exact ⟨owner, hheld⟩
    obtain ⟨slot, hslot⟩ := mem_children.mp hheld
    obtain ⟨n, hn, hadmits⟩ := hf.admitted hslot
    refine stackedChildren_eq_children hn fun hkind => ?_
    rw [hkind, Slot.not_admits_compilationUnit] at hadmits
    cases hadmits
  rw [(hf.treeAt (hf.allocated_of_mem_children hchild)).descendants_eq_preOrder]
  exact preOrderWithin_congr hagree σ.arranges_stackedChildren

/-- Only the types of a unit, and their members, have slots or required fields. -/
lemma plain_of_admits {slot : Slot} {p : Payload} (htypes : slot ≠ .types)
    (hmembers : slot ≠ .members) (h : slot.admits p.kind = true) :
    p.kind.slots = [] ∧ p.missingField? = none := by
  cases slot <;> cases p <;> simp_all [Slot.admits, Payload.kind, Kind.slots, Payload.missingField?]

/-- Under the other slots of a unit there is no fault. -/
lemma Forest.findSome?_plain_slot (hf : σ.Forest) (slot : Slot) (htypes : slot ≠ .types)
    (hmembers : slot ≠ .members) :
    ((σ.childrenIn id slot).flatMap σ.descendants).findSome? σ.fieldFault? = none := by
  refine List.findSome?_eq_none_iff.mpr fun y hy => ?_
  obtain ⟨child, hchild, hy⟩ := List.mem_flatMap.mp hy
  obtain ⟨m, hm, hadmits⟩ := hf.admitted hchild
  obtain ⟨hslots, hfield⟩ := plain_of_admits htypes hmembers hadmits
  have hleaf : σ.children child = [] := by
    rw [children_of_node? hm, Payload.children_eq_flatMap, hslots, List.flatMap_nil]
  rw [(hf.treeAt (allocated_of_node? hm)).descendants_eq, hleaf, List.flatMap_nil,
    List.mem_singleton] at hy
  rw [hy, fieldFault?_of_node? hm, hfield, Option.map_none]

/-- **Both orders have the same first fault.** -/
lemma Forest.findSome?_preOrder (hf : σ.Forest) (hroot : σ.Allocated root) :
    (σ.preOrder σ.stackedChildren root).findSome? σ.fieldFault? =
      (σ.descendants root).findSome? σ.fieldFault? := by
  have ht := hf.treeAt hroot
  have hbelow : (σ.stackedChildren root).flatMap (σ.preOrder σ.stackedChildren) =
      (σ.stackedChildren root).flatMap σ.descendants :=
    List.flatMap_congr fun child hchild =>
      hf.preOrder_stackedChildren ((σ.arranges_stackedChildren root).mem_iff.mp hchild)
  rw [ht.preOrder_eq σ.arranges_stackedChildren, ht.descendants_eq, hbelow, List.findSome?_cons,
    List.findSome?_cons]
  obtain ⟨n, hn⟩ := exists_node_iff.mpr hroot
  by_cases hkind : n.kind = .compilationUnit
  · -- the types come first or last, and nothing else of the unit has a fault
    have hslot : ∀ slot, n.payload.childrenIn slot = σ.childrenIn root slot :=
      fun slot => (childrenIn_of_node? hn slot).symm
    rw [stackedChildren_of_node? hn, children_of_node? hn, Payload.children_eq_flatMap, stacked,
      show n.payload.kind = .compilationUnit from hkind]
    simp only [Kind.slots, List.reverse_cons, List.reverse_nil, List.nil_append, List.cons_append,
      List.flatMap_cons, List.flatMap_nil, List.append_nil, List.flatMap_append,
      List.findSome?_append, hslot, hf.findSome?_plain_slot .package (by decide) (by decide),
      hf.findSome?_plain_slot .comments (by decide) (by decide),
      hf.findSome?_plain_slot .nativeBlocks (by decide) (by decide), Option.none_or, Option.or_none]
  · rw [stackedChildren_eq_children hn hkind]

/-! ## Validation of a forest -/

/-- Some required field of the node is empty. -/
def Incomplete (σ : Store) (id : NodeId) : Prop :=
  ∃ n field, σ.node? id = some n ∧ n.payload.Lacks field

/-- The node is the first of the list that is incomplete, and the field is the first that it
lacks. -/
def FirstIncomplete (σ : Store) (ids : List NodeId) (id : NodeId) (n : Node)
    (field : RequiredField) : Prop :=
  ∃ before after, ids = before ++ id :: after ∧ (∀ y ∈ before, ¬ σ.Incomplete y) ∧
    σ.node? id = some n ∧ n.payload.Lacks field

lemma fieldFault?_eq_some_iff {e : ValidationError} :
    σ.fieldFault? id = some e ↔
      ∃ n field, σ.node? id = some n ∧ n.payload.Lacks field ∧
        .missingField id n.kind field = e := by
  simp only [fieldFault?, Option.bind_eq_some_iff, Option.map_eq_some_iff,
    Payload.missingField?_eq_some_iff, exists_and_left]

lemma fieldFault?_eq_none_iff : σ.fieldFault? id = none ↔ ¬ σ.Incomplete id := by
  constructor
  · rintro hnone ⟨n, field, hn, hlacks⟩
    have hsome := fieldFault?_eq_some_iff.mpr ⟨n, field, hn, hlacks, rfl⟩
    rw [hnone] at hsome
    cases hsome
  · intro h
    refine Option.eq_none_iff_forall_ne_some.mpr fun e he => h ?_
    obtain ⟨n, field, hn, hlacks, -⟩ := fieldFault?_eq_some_iff.mp he
    exact ⟨n, field, hn, hlacks⟩

/-- **Validation of a forest answers with the first fault of the descendants.** -/
theorem Forest.validateSubtree_eq (hf : σ.Forest) (hroot : σ.Allocated root) :
    σ.validateSubtree root =
      match (σ.descendants root).findSome? σ.fieldFault? with
      | some e => .error e
      | none => .ok () := by
  have hstart : σ.Pending σ.stackedChildren [root] [] :=
    .start σ.arranges_stackedChildren (hf.treeAt hroot)
  rw [validateSubtree_of_claimsHeld fun hlink _ => hf.held hlink, hf.checkReachable_eq hstart,
    List.flatMap_singleton, hf.findSome?_preOrder hroot]

/-- **In a reachable store validation accepts a subtree, or it names the first node of the subtree
that lacks a required field**; first in the order of the descendants, which is not the order in
which validation goes through the slots of a unit. -/
theorem Reachable.validateSubtree_first (h : σ.Reachable) (hroot : σ.Allocated root) :
    (σ.validateSubtree root = .ok () ∧ ∀ y ∈ σ.descendants root, ¬ σ.Incomplete y) ∨
    ∃ id n field, σ.validateSubtree root = .error (.missingField id n.kind field) ∧
      σ.FirstIncomplete (σ.descendants root) id n field := by
  have heq := h.forest.validateSubtree_eq hroot
  cases hfault : (σ.descendants root).findSome? σ.fieldFault? with
  | none =>
    rw [hfault] at heq
    exact Or.inl ⟨heq, fun y hy =>
      fieldFault?_eq_none_iff.mp (List.findSome?_eq_none_iff.mp hfault y hy)⟩
  | some e =>
    rw [hfault] at heq
    obtain ⟨before, id, after, hlist, he, hbefore⟩ := List.findSome?_eq_some_iff.mp hfault
    obtain ⟨n, field, hn, hlacks, rfl⟩ := fieldFault?_eq_some_iff.mp he
    exact Or.inr ⟨id, n, field, heq, before, after, hlist,
      fun y hy => fieldFault?_eq_none_iff.mp (hbefore y hy), hn, hlacks⟩

/-- Of two types that lack a field the first is named, whether the comment of the unit comes before
them or after. -/
theorem validateSubtree_first_of_two_types : ∃ σ : Store, σ.Reachable ∧
    σ.descendants ⟨0⟩ = [⟨0⟩, ⟨1⟩, ⟨2⟩, ⟨3⟩] ∧
    σ.preOrder σ.stackedChildren ⟨0⟩ = [⟨0⟩, ⟨2⟩, ⟨3⟩, ⟨1⟩] ∧
    σ.validateSubtree ⟨0⟩ = .error (.missingField ⟨2⟩ .type .identity) := by
  let comment : Payload := .comment .line
  let nameless : Payload := .type ⟨.classForm, "", ⟨""⟩, []⟩
  let unidentified : Payload := .type ⟨.classForm, "A", ⟨""⟩, []⟩
  let σ : Store := ⟨#[⟨.compilationUnit ⟨none, [⟨1⟩], [], [⟨2⟩, ⟨3⟩]⟩, .dummy, none⟩,
    ⟨comment, .dummy, some ⟨⟨0⟩, .comments⟩⟩, ⟨unidentified, .dummy, some ⟨⟨0⟩, .types⟩⟩,
    ⟨nameless, .dummy, some ⟨⟨0⟩, .types⟩⟩], by decide⟩
  have hσ : σ.Reachable := by
    have hσ := Reachable.empty.step (.alloc (.compilationUnit .empty) .dummy) nofun rfl
    have hσ := hσ.step (.alloc comment .dummy) nofun rfl
    have hσ := hσ.step (.alloc unidentified .dummy) nofun rfl
    have hσ := hσ.step (.alloc nameless .dummy) nofun rfl
    have hσ := hσ.step (.pushChild ⟨0⟩ .comments ⟨1⟩) nofun rfl
    have hσ := hσ.step (.pushChild ⟨0⟩ .types ⟨2⟩) nofun rfl
    have hσ := hσ.step (.pushChild ⟨0⟩ .types ⟨3⟩) nofun rfl
    obtain ⟨τ, hτ, rfl⟩ : ∃ τ : Store, τ.Reachable ∧ τ = σ := ⟨_, hσ, by decide +kernel⟩
    exact hτ
  have hroot : σ.Allocated ⟨0⟩ := by decide
  have hlist : σ.descendants ⟨0⟩ = [⟨0⟩, ⟨1⟩, ⟨2⟩, ⟨3⟩] :=
    (hσ.forest.treeAt hroot).descendants_eq_preOrder.trans rfl
  have hlacks : σ.Incomplete ⟨2⟩ := ⟨_, .identity, rfl, .typeIdentity (by decide) rfl⟩
  refine ⟨σ, hσ, hlist, rfl, ?_⟩
  rcases hσ.validateSubtree_first hroot with ⟨-, hcomplete⟩ | ⟨id, n, field, herror, hfirst⟩
  · exact absurd hlacks (hcomplete ⟨2⟩ (hlist ▸ by decide))
  · obtain ⟨before, after, hsplit, hbefore, hn, hfield⟩ := hfirst
    rw [hlist] at hsplit
    match before, hsplit with
    | [], hsplit =>
      obtain ⟨rfl, -⟩ := List.cons.inj hsplit
      cases hn
      cases hfield
    | [_], hsplit =>
      obtain ⟨-, rfl, -⟩ := by simpa only [List.cons_append, List.cons.injEq] using hsplit
      cases hn
      cases hfield
    | [_, _], hsplit =>
      obtain ⟨-, -, rfl, -⟩ := by simpa only [List.cons_append, List.cons.injEq] using hsplit
      cases hn
      cases hfield with
      | typeName hname => exact absurd hname (by decide)
      | typeIdentity _ _ => exact herror
    | _ :: _ :: third :: _, hsplit =>
      obtain ⟨-, -, rfl, -⟩ := by simpa only [List.cons_append, List.cons.injEq] using hsplit
      exact absurd hlacks (hbefore ⟨2⟩ (by simp))

end DeclTree.Store
