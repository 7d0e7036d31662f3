import Mathlib.Data.List.NodupEquivFin
import DeclTree.Proofs.Store.Validation

/-!
# What the faults of validation say

On a broken store several faults may lie below one root, and which of them is reported depends on
what the loop meets first.  Whichever it is, it is there: `Store.FaultBelow` says for each form of
fault what it claims about the store, and validation reports nothing else.

An identifier that is met a second time stands at two positions.  A node that stands in two
different slots has a parent link that is wrong for one of them, so the check of that slot comes
first; what is left for `sharedChild` are two positions of one slot, and the root.
-/

namespace DeclTree

namespace Store

variable {σ : Store} {root id : NodeId} {n : Node} {stack seen : List NodeId}
  {e : ValidationError}

/-- What a fault says is so, in what can be reached from the root. -/
inductive FaultBelow (σ : Store) (root : NodeId) : ValidationError → Prop
  /-- The slot of a reachable node holds an identifier that no node has. -/
  | danglingChild {holder : ParentLink} {child : NodeId} (hreach : σ.Reaches root holder.owner)
    (hheld : child ∈ σ.childrenIn holder.owner holder.slot) (hunknown : ¬ σ.Allocated child) :
    FaultBelow σ root (.danglingChild holder child)
  /-- The slot of a reachable node holds a node with that parent link, which does not name the
  slot. -/
  | brokenParentLink {holder : ParentLink} {child : NodeId} {n : Node}
    (hreach : σ.Reaches root holder.owner)
    (hheld : child ∈ σ.childrenIn holder.owner holder.slot) (hn : σ.node? child = some n)
    (hwrong : n.parent ≠ some holder) :
    FaultBelow σ root (.brokenParentLink holder child n.parent)
  /-- The slot of a reachable node holds a node of that kind, which it does not admit. -/
  | kindMismatch {holder : ParentLink} {child : NodeId} {n : Node}
    (hreach : σ.Reaches root holder.owner)
    (hheld : child ∈ σ.childrenIn holder.owner holder.slot) (hn : σ.node? child = some n)
    (hrefused : holder.slot.admits n.kind = false) :
    FaultBelow σ root (.kindMismatch holder n.kind)
  /-- That field of a reachable node is empty. -/
  | missingField {id : NodeId} {n : Node} {field : RequiredField} (hreach : σ.Reaches root id)
    (hn : σ.node? id = some n) (hempty : n.payload.Lacks field) :
    FaultBelow σ root (.missingField id n.kind field)
  /-- A node claims a slot of a reachable node, and the slot does not hold it. -/
  | orphanedChild {claimed : ParentLink} {child : NodeId} {n : Node}
    (hn : σ.node? child = some n) (hlink : n.parent = some claimed)
    (hreach : σ.Reaches root claimed.owner)
    (hloose : child ∉ σ.childrenIn claimed.owner claimed.slot) :
    FaultBelow σ root (.orphanedChild claimed child)
  /-- The slot of a reachable node holds the node at two positions. -/
  | heldTwice {owner : NodeId} {slot : Slot} {child : NodeId} {k l : Nat}
    (hreach : σ.Reaches root owner) (hlt : k < l)
    (hk : (σ.childrenIn owner slot)[k]? = some child)
    (hl : (σ.childrenIn owner slot)[l]? = some child) : FaultBelow σ root (.sharedChild child)
  /-- The slot of a reachable node holds the root. -/
  | rootHeld {owner : NodeId} {slot : Slot} (hreach : σ.Reaches root owner)
    (hheld : root ∈ σ.childrenIn owner slot) : FaultBelow σ root (.sharedChild root)

/-! ## Faults of one node -/

/-- A check of several entries fails with the fault of one of them. -/
lemma exists_of_forM_eq_error {α ε : Type} {f : α → Except ε Unit} {xs : List α} {e : ε}
    (h : xs.forM f = .error e) : ∃ x ∈ xs, f x = .error e := by
  induction xs with
  | nil => cases h
  | cons x xs ih =>
    have hcons : (x :: xs).forM f = f x >>= fun _ => xs.forM f := List.forM_cons
    rw [hcons] at h
    cases hx : f x with
    | error e' =>
      rw [hx] at h
      exact ⟨x, List.mem_cons_self, hx.trans h⟩
    | ok _ =>
      rw [hx] at h
      obtain ⟨y, hy, hfault⟩ := ih h
      exact ⟨y, List.mem_cons_of_mem x hy, hfault⟩

lemma faultBelow_of_checkHeld {holder : ParentLink} {child : NodeId}
    (h : σ.checkHeld holder child = .error e) (hreach : σ.Reaches root holder.owner)
    (hheld : child ∈ σ.childrenIn holder.owner holder.slot) : σ.FaultBelow root e := by
  unfold checkHeld at h
  cases hn : σ.node? child with
  | none =>
    rw [hn] at h
    obtain rfl := Except.error.inj h
    exact .danglingChild hreach hheld (node?_eq_none_iff.mp hn)
  | some n =>
    simp only [hn] at h
    split_ifs at h with hparent hadmits
    · obtain rfl := Except.error.inj h
      exact .brokenParentLink hreach hheld hn hparent
    · obtain rfl := Except.error.inj h
      exact .kindMismatch hreach hheld hn (Bool.not_eq_true _ ▸ hadmits)

lemma faultBelow_of_checkNode (hreach : σ.Reaches root id) (hn : σ.node? id = some n)
    (h : σ.checkNode id n = .error e) : σ.FaultBelow root e := by
  unfold checkNode at h
  cases hfield : n.payload.missingField? with
  | some field =>
    rw [hfield] at h
    obtain rfl := Except.error.inj h
    exact .missingField hreach hn (Payload.missingField?_eq_some_iff.mp hfield)
  | none =>
    rw [hfield] at h
    obtain ⟨⟨slot, child⟩, hmem, hcheck⟩ := exists_of_forM_eq_error h
    refine faultBelow_of_checkHeld hcheck hreach ?_
    rw [childrenIn_of_node? hn]
    exact Payload.mem_slotChildren.mp hmem

lemma faultBelow_of_orphanFault? (hreach : ∀ owner ∈ seen, σ.Reaches root owner)
    (h : σ.orphanFault? seen id = some e) : σ.FaultBelow root e := by
  unfold orphanFault? at h
  cases hlink : σ.parent? id with
  | none =>
    rw [hlink] at h
    cases h
  | some link =>
    simp only [hlink] at h
    split_ifs at h with hclaim
    obtain rfl := Option.some.inj h
    obtain ⟨n, hn, hparent⟩ := exists_node_of_parent? hlink
    exact .orphanedChild hn hparent (hreach link.owner hclaim.1) hclaim.2

/-! ## What is met twice -/

/-- What stands twice in the lists of several entries, and in the list of one of them only, stands
twice in that list. -/
lemma exists_duplicate_of_flatMap {α β : Type} {f : α → List β} {xs : List α} {b : β}
    (hnodup : xs.Nodup) (hone : ∀ x ∈ xs, ∀ y ∈ xs, b ∈ f x → b ∈ f y → x = y)
    (h : (xs.flatMap f).Duplicate b) : ∃ x ∈ xs, (f x).Duplicate b := by
  induction xs with
  | nil => exact absurd h (List.not_duplicate_nil b)
  | cons x xs ih =>
    obtain ⟨hx, hnodup⟩ := List.nodup_cons.mp hnodup
    rw [List.flatMap_cons, List.duplicate_iff_sublist] at h
    obtain ⟨front, back, hsplit, hfront, hback⟩ := List.sublist_append_iff.mp h
    match front, hsplit with
    | [], hsplit =>
      obtain rfl : [b, b] = back := hsplit
      obtain ⟨y, hy, hdup⟩ := ih hnodup
        (fun y hy z hz => hone y (List.mem_cons_of_mem x hy) z (List.mem_cons_of_mem x hz))
        (List.duplicate_iff_sublist.mpr hback)
      exact ⟨y, List.mem_cons_of_mem x hy, hdup⟩
    | [c], hsplit =>
      -- one of the two would stand in the list of another entry
      obtain ⟨rfl, rfl⟩ := List.cons.inj hsplit
      obtain ⟨y, hy, hby⟩ := List.mem_flatMap.mp (List.singleton_sublist.mp hback)
      have heq := hone x List.mem_cons_self y (List.mem_cons_of_mem x hy)
        (List.singleton_sublist.mp hfront) hby
      exact absurd (heq ▸ hy) hx
    | [c, d], hsplit =>
      obtain ⟨rfl, hrest⟩ := List.cons.inj hsplit
      obtain ⟨rfl, -⟩ := List.cons.inj hrest
      exact ⟨x, List.mem_cons_self, List.duplicate_iff_sublist.mpr hfront⟩

namespace Taken

/-- What was taken holds its children with the matching parent link. -/
lemma parent?_eq {owner child : NodeId} {slot : Slot} (h : σ.Taken root stack seen)
    (howner : owner ∈ seen) (hheld : child ∈ σ.childrenIn owner slot) :
    σ.parent? child = some ⟨owner, slot⟩ := by
  obtain ⟨n, hn, hmem⟩ := exists_node_of_mem_childrenIn hheld
  exact ((checkNode_eq_ok_iff.mp (h.checked owner howner n hn)).2 hmem).parent?

/-- What stands twice among the children of what was taken stands twice in one slot. -/
lemma exists_slot_duplicate (h : σ.Taken root stack seen)
    (hdup : (seen.flatMap σ.children).Duplicate id) :
    ∃ owner ∈ seen, ∃ slot, (σ.childrenIn owner slot).Duplicate id := by
  have hlink : ∀ owner ∈ seen, id ∈ σ.children owner →
      (σ.parent? id).map ParentLink.owner = some owner := by
    intro owner howner hchild
    obtain ⟨slot, hslot⟩ := mem_children.mp hchild
    rw [h.parent?_eq howner hslot]
    rfl
  obtain ⟨owner, howner, hdup⟩ := exists_duplicate_of_flatMap h.nodup (fun o ho o' ho' hc hc' =>
    Option.some.inj ((hlink o ho hc).symm.trans (hlink o' ho' hc'))) hdup
  obtain ⟨slot, hslot⟩ := mem_children.mp hdup.mem
  obtain ⟨n, hn, -⟩ := exists_node_of_mem_childrenIn hslot
  rw [children_of_node? hn, Payload.children_eq_flatMap] at hdup
  obtain ⟨slot, -, hdup⟩ := exists_duplicate_of_flatMap (Kind.slots_nodup _)
    (fun s _ s' _ hc hc' => by
      rw [← childrenIn_of_node? hn] at hc hc'
      have heq := (h.parent?_eq howner hc).symm.trans (h.parent?_eq howner hc')
      exact congrArg ParentLink.slot (Option.some.inj heq)) hdup
  exact ⟨owner, howner, slot, childrenIn_of_node? hn slot ▸ hdup⟩

/-- What is to be taken a second time is the root, or stands twice in one slot. -/
lemma faultBelow_of_mem (h : σ.Taken root (id :: stack) seen) (hid : id ∈ seen) :
    σ.FaultBelow root (.sharedChild id) := by
  have hreach : ∀ owner ∈ seen, σ.Reaches root owner :=
    fun owner howner => h.reaches owner (List.mem_append_left _ howner)
  -- the invariant has it as often among the root and the children of what was taken
  have hdup : (root :: seen.flatMap σ.children).Duplicate id := by
    rw [List.duplicate_iff_two_le_count, ← h.perm.count_eq, List.count_append,
      List.count_cons_self]
    have hcount := List.one_le_count_iff.mpr hid
    omega
  rcases List.duplicate_cons_iff.mp hdup with ⟨rfl, hheld⟩ | hdup
  · obtain ⟨owner, howner, hchild⟩ := List.mem_flatMap.mp hheld
    obtain ⟨slot, hslot⟩ := mem_children.mp hchild
    exact .rootHeld (hreach owner howner) hslot
  · obtain ⟨owner, howner, slot, hdup⟩ := h.exists_slot_duplicate hdup
    obtain ⟨k, l, hlt, hk, hl⟩ := List.duplicate_iff_exists_distinct_get.mp hdup
    exact .heldTwice (hreach owner howner) hlt (List.getElem?_eq_some_iff.mpr ⟨k.isLt, hk.symm⟩)
      (List.getElem?_eq_some_iff.mpr ⟨l.isLt, hl.symm⟩)

end Taken

/-! ## Every fault is real -/

/-- **Every fault that validation reports is there**, on every store whatever. -/
theorem faultBelow_of_validateSubtree (h : σ.validateSubtree root = .error e) :
    σ.FaultBelow root e := by
  unfold validateSubtree at h
  rcases checkReachable_cases (Taken.start σ root) with
    ⟨seen, heq, htaken⟩ | ⟨id, stack, seen, heq, htaken, hid⟩ |
    ⟨id, n, e', heq, hreach, hn, hcheck⟩
  · simp only [heq] at h
    cases hscan : σ.ids.findSome? (σ.orphanFault? seen) with
    | none =>
      rw [hscan] at h
      cases h
    | some e' =>
      rw [hscan] at h
      obtain rfl := Except.error.inj h
      obtain ⟨child, -, hfault⟩ := List.exists_of_findSome?_eq_some hscan
      exact faultBelow_of_orphanFault? (fun owner howner => htaken.mem_iff.mp howner) hfault
  · rw [heq] at h
    obtain rfl := Except.error.inj h
    exact htaken.faultBelow_of_mem hid
  · rw [heq] at h
    obtain rfl := Except.error.inj h
    exact faultBelow_of_checkNode hreach hn hcheck

/-- A type has one method as two of its members, and the method is met twice. -/
theorem faultBelow_of_repeated_member : ∃ σ : Store, σ.childrenIn ⟨0⟩ .members = [⟨1⟩, ⟨1⟩] ∧
    σ.validateSubtree ⟨0⟩ = .error (.sharedChild ⟨1⟩) ∧
    σ.FaultBelow ⟨0⟩ (.sharedChild ⟨1⟩) := by
  let type : Node := ⟨.type ⟨.classForm, "A", ⟨"A"⟩, [⟨1⟩, ⟨1⟩]⟩, .dummy, none⟩
  let method : Node := ⟨.method ⟨"run", [], false⟩, .dummy, some ⟨⟨0⟩, .members⟩⟩
  let σ : Store := ⟨#[type, method], by decide⟩
  have hfirst : σ.checkReachable [⟨0⟩] [] = σ.checkReachable [⟨1⟩, ⟨1⟩] [⟨0⟩] :=
    (checkReachable_of_node? (n := type) List.not_mem_nil rfl).trans rfl
  have hsecond : σ.checkReachable [⟨1⟩, ⟨1⟩] [⟨0⟩] = σ.checkReachable [⟨1⟩] [⟨1⟩, ⟨0⟩] := by
    refine (checkReachable_of_node? (n := method) ?_ rfl).trans rfl
    decide
  have hthird : σ.checkReachable [⟨1⟩] [⟨1⟩, ⟨0⟩] = .error (.sharedChild ⟨1⟩) := by
    rw [checkReachable, if_pos (by decide)]
  have hfault : σ.validateSubtree ⟨0⟩ = .error (.sharedChild ⟨1⟩) := by
    rw [validateSubtree, hfirst, hsecond, hthird]
  exact ⟨σ, rfl, hfault, faultBelow_of_validateSubtree hfault⟩

end Store

end DeclTree
