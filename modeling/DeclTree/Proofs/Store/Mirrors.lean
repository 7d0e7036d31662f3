import DeclTree.Proofs.Store.Descendants
import DeclTree.Proofs.Store.Growing
import DeclTree.Proofs.Store.Unfolding
import DeclTree.Proofs.Store.Validation

/-!
# Subtrees that mirror each other

A subtree is mirrored in another store when its nodes stand there under other identifiers:
`Store.Mirrors`.  The root is free to have another span and another owner; everything below it is
the same but for identifiers.

A mirrored subtree answers as the subtree does: `Mirrors.descendants_eq` lists the corresponding
nodes in the same order, `Mirrors.structurallyEqual_eq` finds no difference, and
`Mirrors.validateSubtree_eq` finds the corresponding fault.  None of this depends on where the
mirrored subtree comes from; deep copies are one source, `Copies.mirrors`.
-/

namespace DeclTree

/-- The fault, with every identifier replaced. -/
def ValidationError.mapIds (f : NodeId → NodeId) : ValidationError → ValidationError
  | emptyMainTypeName => emptyMainTypeName
  | missingPackage path => missingPackage path
  | missingField node kind field => missingField (f node) kind field
  | danglingChild holder child => danglingChild (holder.mapOwner f) (f child)
  | brokenParentLink holder child found =>
    brokenParentLink (holder.mapOwner f) (f child) (found.map (ParentLink.mapOwner f))
  | kindMismatch holder found => kindMismatch (holder.mapOwner f) found
  | sharedChild id => sharedChild (f id)
  | orphanedChild claimed child => orphanedChild (claimed.mapOwner f) (f child)

/-- A check of corresponding entries, one after the other, finds the corresponding fault. -/
lemma forM_map_mapError {α β ε ε' : Type} {check : α → Except ε Unit}
    {check' : β → Except ε' Unit} {g : α → β} {e : ε → ε'} {xs : List α}
    (h : ∀ x ∈ xs, check' (g x) = (check x).mapError e) :
    (xs.map g).forM check' = (xs.forM check).mapError e := by
  induction xs with
  | nil => rfl
  | cons x xs ih =>
    have hrest := ih fun y hy => h y (List.mem_cons_of_mem x hy)
    show (check' (g x) >>= fun _ => (xs.map g).forM check') =
      (check x >>= fun _ => xs.forM check).mapError e
    rw [h x List.mem_cons_self, hrest]
    cases check x <;> rfl

namespace Payload

@[simp] lemma stacked_mapChildren (f : NodeId → NodeId) (p : Payload) :
    Store.stacked (p.mapChildren f) = (Store.stacked p).map f := by
  rw [Store.stacked, kind_mapChildren, Store.stacked, List.map_flatMap]
  exact List.flatMap_congr fun slot _ => childrenIn_mapChildren f p slot

end Payload

namespace Store

/-- The subtree of `x` in `σ` stands in `τ` with `f y` for each node `y`. -/
structure Mirrors (σ : Store) (x : NodeId) (τ : Store) (f : NodeId → NodeId) : Prop where
  /-- Different nodes stay different. -/
  injective : ∀ {y z}, σ.Reaches x y → σ.Reaches x z → f y = f z → y = z
  /-- Kind and scalar fields are the same, and so are the children, slot by slot in order. -/
  payload_eq : ∀ {y}, σ.Reaches x y →
    τ.payload? (f y) = (σ.payload? y).map (Payload.mapChildren f)
  /-- Below the root, so are the spans. -/
  span_eq : ∀ {y}, σ.ReachesBelow x y → τ.span? (f y) = σ.span? y
  /-- Below the root, so are the parent links. -/
  parent_eq : ∀ {y}, σ.ReachesBelow x y →
    τ.parent? (f y) = (σ.parent? y).map (ParentLink.mapOwner f)

variable {σ τ : Store} {x y z : NodeId} {f : NodeId → NodeId} {n m : Node}

namespace Mirrors

/-! ## The nodes of a mirrored subtree -/

section Nodes

variable (h : σ.Mirrors x τ f)
include h

lemma childrenIn_eq (hy : σ.Reaches x y) (s : Slot) :
    τ.childrenIn (f y) s = (σ.childrenIn y s).map f := by
  rw [childrenIn, h.payload_eq hy, childrenIn]
  cases σ.payload? y with
  | none => rfl
  | some p => exact Payload.childrenIn_mapChildren f p s

lemma children_eq (hy : σ.Reaches x y) : τ.children (f y) = (σ.children y).map f := by
  rw [children, h.payload_eq hy, children]
  cases σ.payload? y with
  | none => rfl
  | some p => exact children_mapChildren f p

lemma node_eq (hy : σ.Reaches x y) (hn : σ.node? y = some n) :
    ∃ m, τ.node? (f y) = some m ∧ m.payload = n.payload.mapChildren f := by
  have hpayload := h.payload_eq hy
  rw [payload?, payload?, hn] at hpayload
  exact Option.map_eq_some_iff.mp hpayload

lemma node_eq_none (hy : σ.Reaches x y) (hn : σ.node? y = none) : τ.node? (f y) = none := by
  have hpayload := h.payload_eq hy
  rw [payload?, payload?, hn] at hpayload
  exact Option.map_eq_none_iff.mp hpayload

lemma allocated_iff (hy : σ.Reaches x y) : τ.Allocated (f y) ↔ σ.Allocated y := by
  cases hn : σ.node? y with
  | none =>
    have hm := h.node_eq_none hy hn
    exact iff_of_false (node?_eq_none_iff.mp hm) (node?_eq_none_iff.mp hn)
  | some n =>
    obtain ⟨m, hm, -⟩ := h.node_eq hy hn
    exact iff_of_true (allocated_of_node? hm) (allocated_of_node? hn)

lemma mem_map_iff {ids : List NodeId} (hids : ∀ id ∈ ids, σ.Reaches x id) (hy : σ.Reaches x y) :
    f y ∈ ids.map f ↔ y ∈ ids := by
  constructor
  · intro hmem
    obtain ⟨z, hz, heq⟩ := List.mem_map.mp hmem
    rwa [← h.injective (hids z hz) hy heq]
  · exact fun hmem => List.mem_map.mpr ⟨y, hmem, rfl⟩

/-- What is reached from the image of the root are the images of what is reached from the root. -/
lemma reaches_iff : τ.Reaches (f x) z ↔ ∃ y, σ.Reaches x y ∧ f y = z := by
  constructor
  · intro hz
    induction hz with
    | refl => exact ⟨x, .refl, rfl⟩
    | tail _ hchild ih =>
      obtain ⟨y, hy, rfl⟩ := ih
      rw [h.children_eq hy] at hchild
      obtain ⟨c, hc, rfl⟩ := List.mem_map.mp hchild
      exact ⟨c, Relation.ReflTransGen.tail hy hc, rfl⟩
  · rintro ⟨y, hy, rfl⟩
    induction hy with
    | refl => exact .refl
    | tail howner hchild ih =>
      refine Relation.ReflTransGen.tail ih ?_
      rw [h.children_eq howner]
      exact List.mem_map.mpr ⟨_, hchild, rfl⟩

end Nodes

/-! ## Descendants -/

lemma collect_eq (h : σ.Mirrors x τ f) {stack seen : List NodeId}
    (hstack : ∀ id ∈ stack, σ.Reaches x id) (hseen : ∀ id ∈ seen, σ.Reaches x id) :
    τ.collect (stack.map f) (seen.map f) = (σ.collect stack seen).map f := by
  induction stack, seen using collect.induct σ with
  | case1 seen => rw [List.map_nil, collect, collect, List.map_reverse]
  | case2 id stack seen hid ih =>
    obtain ⟨hreach, hrest⟩ := List.forall_mem_cons.mp hstack
    have hid' : τ.Allocated (f id) ∧ f id ∉ seen.map f := by
      rwa [h.allocated_iff hreach, h.mem_map_iff hseen hreach]
    rw [List.map_cons, collect_cons_of_fresh hid', collect_cons_of_fresh hid,
      h.children_eq hreach, ← List.map_append, ← List.map_cons]
    refine ih ?_ (List.forall_mem_cons.mpr ⟨hreach, hseen⟩)
    exact List.forall_mem_append.mpr ⟨fun c hc => Relation.ReflTransGen.tail hreach hc, hrest⟩
  | case3 id stack seen hid ih =>
    obtain ⟨hreach, hrest⟩ := List.forall_mem_cons.mp hstack
    have hid' : ¬ (τ.Allocated (f id) ∧ f id ∉ seen.map f) := by
      rwa [h.allocated_iff hreach, h.mem_map_iff hseen hreach]
    rw [List.map_cons, collect_cons_of_not_fresh hid', collect_cons_of_not_fresh hid]
    exact ih hrest hseen

/-- **The nodes of a mirrored subtree are listed in the order of the originals.** -/
theorem descendants_eq (h : σ.Mirrors x τ f) :
    τ.descendants (f x) = (σ.descendants x).map f := by
  have hroot : ∀ id ∈ [x], σ.Reaches x id := by
    intro id hid
    obtain rfl := List.mem_singleton.mp hid
    exact .refl
  have hcollect : τ.collect ([x].map f) ([].map f) = (σ.collect [x] []).map f :=
    h.collect_eq hroot nofun
  exact hcollect

/-! ## Structural equality -/

/-- The comparison sees payloads and spans only. -/
lemma relabels (h : σ.Mirrors x τ f) (hspan : τ.span? (f x) = σ.span? x) :
    σ.Relabels x τ f where
  payload_eq := h.payload_eq
  span_eq := by
    intro y hy
    rcases Relation.reflTransGen_iff_eq_or_transGen.mp hy with rfl | hbelow
    · exact hspan
    · exact h.span_eq hbelow

/-- **A mirrored tree is structurally equal, if the roots have one span.** -/
theorem structurallyEqual_eq (h : σ.Mirrors x τ f) (ht : σ.TreeAt x)
    (hspan : τ.span? (f x) = σ.span? x) : σ.structurallyEqual x τ (f x) = some true := by
  have hx := ht.unfolds
  obtain ⟨hy, htree⟩ := (h.relabels hspan).unfolds hx
  exact (hx.decides_structurallyEqual hy).eq_true_iff.mpr htree.symm

/-! ## Validation -/

section Validation

variable (h : σ.Mirrors x τ f) (ht : σ.TreeAt x)
include h ht

/-- In a tree the child stands where its parent link says, so only its kind can be wrong. -/
lemma checkHeld_eq {slot : Slot} {c : NodeId} (hy : σ.Reaches x y)
    (hc : c ∈ σ.childrenIn y slot) :
    τ.checkHeld ⟨f y, slot⟩ (f c) =
      (σ.checkHeld ⟨y, slot⟩ c).mapError (ValidationError.mapIds f) := by
  have hchild : c ∈ σ.children y := mem_children.mpr ⟨slot, hc⟩
  have hlink := ht.linked hy hc
  obtain ⟨n, hn, hparent⟩ := exists_node_of_parent? hlink
  obtain ⟨m, hm, hpayload⟩ := h.node_eq (hy.tail hc) hn
  have hparent' : m.parent = some ⟨f y, slot⟩ := by
    rw [← parent?_of_node? hm, h.parent_eq (Relation.TransGen.tail' hy hchild), hlink]
    rfl
  have hkind : m.kind = n.kind := by rw [Node.kind, hpayload, Payload.kind_mapChildren, Node.kind]
  unfold checkHeld
  simp only [hn, hm, hparent, hparent', hkind, ne_eq, not_true_eq_false, if_false]
  split_ifs <;> rfl

lemma checkNode_eq (hy : σ.Reaches x y) (hn : σ.node? y = some n)
    (hpayload : m.payload = n.payload.mapChildren f) :
    τ.checkNode (f y) m = (σ.checkNode y n).mapError (ValidationError.mapIds f) := by
  unfold checkNode
  rw [hpayload, Payload.missingField?_mapChildren]
  cases n.payload.missingField? with
  | some field =>
    have hkind : m.kind = n.kind := by
      rw [Node.kind, hpayload, Payload.kind_mapChildren, Node.kind]
    rw [hkind]
    rfl
  | none =>
    simp only [Payload.slotChildren_mapChildren]
    refine forM_map_mapError fun entry hentry => ?_
    have hchild : entry.2 ∈ σ.childrenIn y entry.1 := by
      rw [childrenIn_of_node? hn]
      exact Payload.mem_slotChildren.mp hentry
    exact h.checkHeld_eq ht hy hchild

lemma checkReachable_eq {stack seen : List NodeId} (hstack : ∀ id ∈ stack, σ.Reaches x id)
    (hseen : ∀ id ∈ seen, σ.Reaches x id) :
    τ.checkReachable (stack.map f) (seen.map f) =
      ((σ.checkReachable stack seen).map (List.map f)).mapError (ValidationError.mapIds f) := by
  induction stack, seen using checkReachable.induct σ with
  | case1 seen => rw [List.map_nil, checkReachable, checkReachable]; rfl
  | case2 id stack seen hid =>
    have hid' : f id ∈ seen.map f := List.mem_map.mpr ⟨id, hid, rfl⟩
    rw [List.map_cons, checkReachable, if_pos hid', checkReachable, if_pos hid]
    rfl
  | case3 id stack seen hid hn ih =>
    obtain ⟨hreach, hrest⟩ := List.forall_mem_cons.mp hstack
    have hid' : f id ∉ seen.map f := by rwa [h.mem_map_iff hseen hreach]
    rw [List.map_cons, checkReachable_of_none hid' (h.node_eq_none hreach hn),
      checkReachable_of_none hid hn, ← List.map_cons]
    exact ih hrest (List.forall_mem_cons.mpr ⟨hreach, hseen⟩)
  | case4 id stack seen hid n hn e hcheck =>
    obtain ⟨hreach, -⟩ := List.forall_mem_cons.mp hstack
    have hid' : f id ∉ seen.map f := by rwa [h.mem_map_iff hseen hreach]
    obtain ⟨m, hm, hpayload⟩ := h.node_eq hreach hn
    rw [List.map_cons, checkReachable_of_node? hid' hm, h.checkNode_eq ht hreach hn hpayload,
      checkReachable_of_node? hid hn, hcheck]
    rfl
  | case5 id stack seen hid n hn hcheck ih =>
    obtain ⟨hreach, hrest⟩ := List.forall_mem_cons.mp hstack
    have hid' : f id ∉ seen.map f := by rwa [h.mem_map_iff hseen hreach]
    obtain ⟨m, hm, hpayload⟩ := h.node_eq hreach hn
    rw [List.map_cons, checkReachable_of_node? hid' hm, h.checkNode_eq ht hreach hn hpayload,
      checkReachable_of_node? hid hn, hcheck]
    simp only [Except.mapError, hpayload, Payload.stacked_mapChildren, ← List.map_append,
      ← List.map_cons]
    have hbelow : ∀ c ∈ stacked n.payload, σ.Reaches x c := by
      intro c hc
      rw [(perm_stacked n.payload).mem_iff, ← children_of_node? hn] at hc
      exact Relation.ReflTransGen.tail hreach hc
    exact ih (List.forall_mem_append.mpr ⟨hbelow, hrest⟩)
      (List.forall_mem_cons.mpr ⟨hreach, hseen⟩)

end Validation

end Mirrors

/-- Every node that claims a place in the subtree has it. -/
def ClaimsHeld (σ : Store) (root : NodeId) : Prop :=
  ∀ {c link}, σ.parent? c = some link → σ.Reaches root link.owner →
    c ∈ σ.childrenIn link.owner link.slot

/-- If all claims hold, only what is met on the way down decides. -/
lemma validateSubtree_of_claimsHeld (hclaims : σ.ClaimsHeld x) :
    σ.validateSubtree x = (σ.checkReachable [x] []).map fun _ => () := by
  unfold validateSubtree
  rcases checkReachable_cases (Taken.start σ x) with
    ⟨seen, heq, htaken⟩ | ⟨id, stack', seen', heq, -⟩ | ⟨id, n, e, heq, -⟩
  · have hscan : σ.ids.findSome? (σ.orphanFault? seen) = none :=
      findSome?_orphanFault?_eq_none_iff.mpr fun hlink howner =>
        hclaims hlink (htaken.mem_iff.mp howner)
    simp only [heq, hscan]
    rfl
  · rw [heq]
    rfl
  · rw [heq]
    rfl

/-- **Validation finds the corresponding fault in a mirrored tree, or none in both.** -/
theorem Mirrors.validateSubtree_eq (h : σ.Mirrors x τ f) (ht : σ.TreeAt x)
    (hσ : σ.ClaimsHeld x) (hτ : τ.ClaimsHeld (f x)) :
    τ.validateSubtree (f x) =
      (σ.validateSubtree x).mapError (ValidationError.mapIds f) := by
  have hroot : ∀ id ∈ [x], σ.Reaches x id := by
    intro id hid
    obtain rfl := List.mem_singleton.mp hid
    exact .refl
  have hcheck : τ.checkReachable ([x].map f) ([].map f) =
      ((σ.checkReachable [x] []).map (List.map f)).mapError (ValidationError.mapIds f) :=
    h.checkReachable_eq ht hroot nofun
  rw [List.map_singleton, List.map_nil] at hcheck
  rw [validateSubtree_of_claimsHeld hσ, validateSubtree_of_claimsHeld hτ, hcheck]
  cases σ.checkReachable [x] [] <;> rfl

/-! ## Deep copies mirror their originals -/

/-- The copy of a subtree mirrors it. -/
lemma Copies.mirrors {ρ : Store} (ht : ρ.TreeAt x)
    (h : ρ.Copies [x] (ρ.postOrder x) σ τ) :
    ρ.Mirrors x τ (copyId σ.size (ρ.postOrder x)) where
  injective := fun hy _ heq => copyId_inj (ht.mem_postOrder.mpr hy) heq
  payload_eq := by
    intro y hy
    obtain ⟨n, hn, hcopy⟩ := h.copied y (ht.mem_postOrder.mpr hy)
    rw [payload?, hcopy, payload?, hn]
    split_ifs <;> rfl
  span_eq := by
    intro y hy
    obtain ⟨n, hn, hcopy⟩ := h.copied y (ht.mem_postOrder.mpr hy.to_reflTransGen)
    rw [span?, hcopy, span?, hn]
    split_ifs <;> rfl
  parent_eq := by
    intro y hy
    have hne : y ∉ [x] := by
      intro hmem
      obtain rfl := List.mem_singleton.mp hmem
      exact ht.not_reachesBelow_self .refl hy
    rw [h.parent?_copy (ht.mem_postOrder.mpr hy.to_reflTransGen), if_neg hne]

/-- If no parent link of the store leads out of it, none leads into the copies put behind it but
those of the copies. -/
lemma Copies.claimsHeld {ρ : Store} (ht : ρ.TreeAt x) (h : ρ.Copies [x] (ρ.postOrder x) σ τ)
    (hlinks : ∀ {c link}, σ.parent? c = some link → σ.Allocated link.owner) :
    τ.ClaimsHeld (copyId σ.size (ρ.postOrder x) x) := by
  intro c link hlink howner
  obtain ⟨o, ho, heq⟩ := (h.mirrors ht).reaches_iff.mp howner
  rcases h.parent?_cases ht.region hlink with hold | ⟨y, hy, -, link', -, howner', hheld, rfl, rfl⟩
  · have hlt := hlinks hold
    rw [← heq] at hlt
    exact absurd hlt (Nat.not_lt.mpr le_copyId_index)
  · show copyId _ _ y ∈ τ.childrenIn (copyId _ _ link'.owner) link'.slot
    rw [h.childrenIn_copy howner']
    exact List.mem_map.mpr ⟨y, hheld, rfl⟩

/-! ### In the store that holds both -/

/-- A tree that is mirrored is mirrored still when its store has grown. -/
lemma Mirrors.of_kept {υ : Store} (h : σ.Mirrors x τ f) (ht : σ.TreeAt x)
    (hkept : ∀ id n, σ.node? id = some n → υ.node? id = some n) : υ.Mirrors x τ f := by
  have hreach : ∀ {y}, υ.Reaches x y → σ.Reaches x y := fun hy => ht.reaches_of_kept hkept hy
  have hbelow : ∀ {y}, υ.ReachesBelow x y → σ.ReachesBelow x y := by
    intro y hy
    obtain ⟨owner, howner, hchild⟩ := Relation.TransGen.tail'_iff.mp hy
    obtain ⟨slot, hslot⟩ := mem_children.mp hchild
    rw [ht.childrenIn_of_kept hkept (hreach howner)] at hslot
    exact .tail' (hreach howner) (mem_children.mpr ⟨slot, hslot⟩)
  refine ⟨fun hy hz => h.injective (hreach hy) (hreach hz), ?_, ?_, ?_⟩
  · intro y hy
    rw [payload?, payload?, ht.node?_of_kept hkept (hreach hy)]
    exact h.payload_eq (hreach hy)
  · intro y hy
    rw [h.span_eq (hbelow hy), span?, span?, ht.node?_of_kept hkept (hbelow hy).to_reflTransGen]
  · intro y hy
    rw [h.parent_eq (hbelow hy), parent?, parent?,
      ht.node?_of_kept hkept (hbelow hy).to_reflTransGen]

/-- **What validation accepts is copied, and the copy is equal and accepted**, as far as the
identifiers last. -/
theorem SoundBelow.copySubtree (h : σ.SoundBelow x) (hx : σ.Allocated x)
    (hlinks : ∀ {c link}, σ.parent? c = some link → σ.Allocated link.owner) :
    (σ.HasRoom (σ.postOrder x).length → ∃ copy τ, σ.copySubtree x = some (.ok copy, τ) ∧
      τ.structurallyEqual x τ copy = some true ∧ τ.validateSubtree copy = .ok ()) ∧
    (¬ σ.HasRoom (σ.postOrder x).length →
      ∃ τ, σ.copySubtree x = some (.error .arenaFull, τ) ∧ σ.CutShort x σ τ) := by
  have ht := h.treeAt hx
  obtain ⟨answer, τ, hcopy, hend⟩ := copySubtree_ends ht
  refine ⟨fun room => ?_, fun full => ?_⟩
  · obtain ⟨rfl, hcopies⟩ := hend.of_hasRoom room
    have hmirrors := hcopies.mirrors ht
    have hspan : τ.span? (copyId σ.size (σ.postOrder x) x) = τ.span? x := by
      obtain ⟨n, m, hn, hm, -, heq⟩ := hcopies.scalars_copy (ht.mem_postOrder.mpr .refl)
      rw [span?, hm, span?, hcopies.kept x n hn, Option.map_some, Option.map_some, heq]
    have hverdict := hmirrors.validateSubtree_eq ht h.claimed (hcopies.claimsHeld ht hlinks)
    rw [(validateSubtree_eq_ok_iff hx).mpr h] at hverdict
    refine ⟨_, τ, hcopy, ?_, hverdict⟩
    -- the original is still the tree that was copied
    exact (hmirrors.of_kept ht hcopies.kept).structurallyEqual_eq (ht.of_kept hcopies.kept) hspan
  · obtain ⟨rfl, out⟩ := hend.of_not_hasRoom full
    exact ⟨τ, hcopy, out.cutShort ht⟩

end Store

end DeclTree
