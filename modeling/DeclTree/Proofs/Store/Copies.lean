import DeclTree.Store.Alloc
import DeclTree.Proofs.Store.Subtrees

/-!
# What a copy looks like

Copies are put behind the nodes of a store and refer to each other as their originals do:
`Store.Copies`.  The nodes that are copied together form a `Store.Region`: they hold each other, and
only the roots among them may be attached elsewhere.  Regions that are apart can be copied one after
the other, `Copies.append`.  When the identifiers run out on the way, what has been copied is a
region still, with more roots: `Store.RunsOut`.  `Store.CopyEnd` says which of the two it is.

`Store.DeepCopy` spells out what this means for the copy of one subtree, and `Store.CutShort` for
what is left of one for which the identifiers did not last.
-/

namespace DeclTree

/-- The same slot of another owner. -/
def ParentLink.mapOwner (f : NodeId → NodeId) (link : ParentLink) : ParentLink :=
  ⟨f link.owner, link.slot⟩

/-- The node with its children and its owner replaced. -/
def Node.mapIds (f : NodeId → NodeId) (n : Node) : Node :=
  ⟨n.payload.mapChildren f, n.span, n.parent.map (ParentLink.mapOwner f)⟩

/-- The node, attached nowhere. -/
def Node.loose (n : Node) : Node := { n with parent := none }

lemma Node.mapIds_congr {n : Node} {f g : NodeId → NodeId}
    (hchildren : ∀ c ∈ n.payload.children, f c = g c)
    (howner : ∀ link, n.parent = some link → f link.owner = g link.owner) :
    n.mapIds f = n.mapIds g := by
  have hparent : n.parent.map (ParentLink.mapOwner f) = n.parent.map (ParentLink.mapOwner g) :=
    Option.map_congr fun link hlink => by
      simp only [ParentLink.mapOwner, howner link hlink]
  simp only [mapIds, Payload.mapChildren_congr hchildren, hparent]

lemma Node.loose_mapIds_congr {n : Node} {f g : NodeId → NodeId}
    (hchildren : ∀ c ∈ n.payload.children, f c = g c) :
    (n.mapIds f).loose = (n.mapIds g).loose := by
  simp only [mapIds, loose, Payload.mapChildren_congr hchildren]

namespace Store

/-- The identifier of the copy of a node, if the nodes in `order` are copied one after the other
behind `base` others. -/
def copyId (base : Nat) (order : List NodeId) (id : NodeId) : NodeId :=
  ⟨base + order.idxOf id⟩

/-- `τ` is `σ` with copies of the nodes of `ρ` in `order` put behind.  The copies refer to each
other as the originals do; those of `roots` are loose. -/
structure Copies (ρ : Store) (roots order : List NodeId) (σ τ : Store) : Prop where
  size_eq : τ.size = σ.size + order.length
  kept : ∀ id n, σ.node? id = some n → τ.node? id = some n
  copied : ∀ y ∈ order, ∃ n, ρ.node? y = some n ∧
    τ.node? (copyId σ.size order y) = some
      (if y ∈ roots then (n.mapIds (copyId σ.size order)).loose
       else n.mapIds (copyId σ.size order))

/-- The nodes in `order` refer to each other only, and the roots are those that none of them
holds. -/
structure Region (ρ : Store) (roots order : List NodeId) : Prop where
  nodup : order.Nodup
  roots_mem : ∀ {y}, y ∈ roots → y ∈ order
  linked : ∀ {y slot c}, y ∈ order → c ∈ ρ.childrenIn y slot → ρ.parent? c = some ⟨y, slot⟩
  child_mem : ∀ {y c}, y ∈ order → c ∈ ρ.children y → c ∈ order
  child_not_root : ∀ {y c}, y ∈ order → c ∈ ρ.children y → c ∉ roots
  owner_mem : ∀ {y}, y ∈ order → y ∉ roots →
    ∃ link, ρ.parent? y = some link ∧ link.owner ∈ order ∧ y ∈ ρ.childrenIn link.owner link.slot

/-- The nodes of `ρ` in `order` were to be copied, and the identifiers did not last.  Those that
came first are copied; the copies whose owners were to come are loose. -/
structure RunsOut (ρ : Store) (order : List NodeId) (σ τ : Store) : Prop where
  /-- No identifier is left. -/
  full : τ.size = NodeId.bound
  copied : ∃ roots done rest, order = done ++ rest ∧ rest ≠ [] ∧ ρ.Region roots done ∧
    ρ.Copies roots done σ τ

/-- How copying the subtree of `x` in `ρ` to `σ` ends: with all copies, or without identifiers. -/
inductive CopyEnd (ρ : Store) (x : NodeId) (σ : Store) : Except TreeError NodeId → Store → Prop
  | made {τ : Store} (copies : ρ.Copies [x] (ρ.postOrder x) σ τ) :
      CopyEnd ρ x σ (.ok (copyId σ.size (ρ.postOrder x) x)) τ
  | ranOut {τ : Store} (out : ρ.RunsOut (ρ.postOrder x) σ τ) : CopyEnd ρ x σ (.error .arenaFull) τ

variable {ρ σ τ υ : Store} {roots order roots' order' : List NodeId} {x y z : NodeId} {base : Nat}

/-! ## Where copies go -/

lemma copyId_append_left (h : y ∈ order) :
    copyId base (order ++ order') y = copyId base order y := by
  rw [copyId, List.idxOf_append_of_mem h, copyId]

lemma copyId_append_right (h : y ∉ order) :
    copyId base (order ++ order') y = copyId (base + order.length) order' y := by
  rw [copyId, List.idxOf_append_of_notMem h, ← Nat.add_assoc, copyId]

lemma copyId_inj (hy : y ∈ order) (h : copyId base order y = copyId base order z) : y = z := by
  have hidx : order.idxOf y = order.idxOf z := by
    have := congrArg NodeId.index h
    simp only [copyId] at this
    omega
  exact (List.idxOf_inj hy).mp hidx

lemma copyId_index_lt (base : Nat) (hy : y ∈ order) :
    (copyId base order y).index < base + order.length := by
  have hlt := List.idxOf_lt_length_of_mem hy
  simp only [copyId]
  omega

lemma le_copyId_index : base ≤ (copyId base order y).index :=
  Nat.le_add_right base (order.idxOf y)

/-- Behind the base there is a copy at every place. -/
lemma exists_copyId_eq (hnodup : order.Nodup) (hle : base ≤ x.index)
    (hlt : x.index < base + order.length) : ∃ y ∈ order, copyId base order y = x := by
  have hpos : x.index - base < order.length := by omega
  refine ⟨order[x.index - base], List.getElem_mem hpos, NodeId.ext_index ?_⟩
  show base + order.idxOf order[x.index - base] = x.index
  rw [hnodup.idxOf_getElem _ hpos]
  omega

/-! ## Regions -/

namespace Region

lemma append (h₁ : ρ.Region roots order) (h₂ : ρ.Region roots' order')
    (hdisj : ∀ y ∈ order, y ∉ order') : ρ.Region (roots ++ roots') (order ++ order') where
  nodup := by
    rw [List.nodup_append]
    exact ⟨h₁.nodup, h₂.nodup, fun y hy z hz heq => hdisj y hy (heq ▸ hz)⟩
  roots_mem := by
    intro y hy
    rcases List.mem_append.mp hy with hy | hy
    · exact List.mem_append_left _ (h₁.roots_mem hy)
    · exact List.mem_append_right _ (h₂.roots_mem hy)
  linked := by
    intro y slot c hy hc
    rcases List.mem_append.mp hy with hy | hy
    · exact h₁.linked hy hc
    · exact h₂.linked hy hc
  child_mem := by
    intro y c hy hc
    rcases List.mem_append.mp hy with hy | hy
    · exact List.mem_append_left _ (h₁.child_mem hy hc)
    · exact List.mem_append_right _ (h₂.child_mem hy hc)
  child_not_root := by
    intro y c hy hc hroot
    -- a root of one region is no child in the other, for the regions are apart
    rcases List.mem_append.mp hy with hy | hy <;> rcases List.mem_append.mp hroot with hr | hr
    · exact h₁.child_not_root hy hc hr
    · exact hdisj c (h₁.child_mem hy hc) (h₂.roots_mem hr)
    · exact hdisj c (h₁.roots_mem hr) (h₂.child_mem hy hc)
    · exact h₂.child_not_root hy hc hr
  owner_mem := by
    intro y hy hroot
    rw [List.mem_append, not_or] at hroot
    rcases List.mem_append.mp hy with hy | hy
    · obtain ⟨link, hlink, howner, hheld⟩ := h₁.owner_mem hy hroot.1
      exact ⟨link, hlink, List.mem_append_left _ howner, hheld⟩
    · obtain ⟨link, hlink, howner, hheld⟩ := h₂.owner_mem hy hroot.2
      exact ⟨link, hlink, List.mem_append_right _ howner, hheld⟩

end Region

/-- The nodes of a subtree refer to each other only. -/
lemma TreeAt.region (ht : ρ.TreeAt x) : ρ.Region [x] (ρ.postOrder x) where
  nodup := ht.nodup_postOrder
  roots_mem := by
    intro y hy
    obtain rfl := List.mem_singleton.mp hy
    exact ht.mem_postOrder.mpr .refl
  linked := fun hy hc => ht.linked (ht.mem_postOrder.mp hy) hc
  child_mem := by
    intro y c hy hc
    obtain ⟨slot, hslot⟩ := mem_children.mp hc
    exact ht.mem_postOrder.mpr ((ht.mem_postOrder.mp hy).tail hslot)
  child_not_root := by
    intro y c hy hc hroot
    obtain rfl := List.mem_singleton.mp hroot
    obtain ⟨slot, hslot⟩ := mem_children.mp hc
    exact ht.root_not_held (ht.mem_postOrder.mp hy) hslot
  owner_mem := by
    intro y hy hroot
    rcases Relation.ReflTransGen.cases_tail_iff .. |>.mp (ht.mem_postOrder.mp hy) with
      heq | ⟨owner, howner, hchild⟩
    · exact absurd (List.mem_singleton.mpr heq) hroot
    · obtain ⟨slot, hslot⟩ := mem_children.mp hchild
      exact ⟨⟨owner, slot⟩, ht.linked howner hslot, ht.mem_postOrder.mpr howner, hslot⟩

/-- So do the nodes of several subtrees that are apart. -/
lemma region_flatMap {cs : List NodeId} (htrees : ∀ c ∈ cs, ρ.TreeAt c)
    (hnodup : (cs.flatMap ρ.postOrder).Nodup) : ρ.Region cs (cs.flatMap ρ.postOrder) := by
  induction cs with
  | nil => exact ⟨List.nodup_nil, nofun, nofun, nofun, nofun, nofun⟩
  | cons c cs ih =>
    rw [List.flatMap_cons] at hnodup ⊢
    obtain ⟨-, hrest, hdisj⟩ := List.nodup_append.mp hnodup
    exact (htrees c List.mem_cons_self).region.append
      (ih (fun d hd => htrees d (List.mem_cons_of_mem c hd)) hrest)
      fun y hy hy' => hdisj y hy y hy' rfl

/-! ## Copies of one region after the other -/

/-- A copy within a region only depends on where the nodes of the region go. -/
lemma Region.copy_congr (hr : ρ.Region roots order) {f g : NodeId → NodeId} {n : Node}
    (hfg : ∀ z ∈ order, f z = g z) (hy : y ∈ order) (hn : ρ.node? y = some n) :
    (if y ∈ roots then (n.mapIds f).loose else n.mapIds f) =
      if y ∈ roots then (n.mapIds g).loose else n.mapIds g := by
  have hchildren : ∀ c ∈ n.payload.children, f c = g c := fun c hc =>
    hfg c (hr.child_mem hy (by rwa [children_of_node? hn]))
  by_cases hroot : y ∈ roots
  · rw [if_pos hroot, if_pos hroot, Node.loose_mapIds_congr hchildren]
  · rw [if_neg hroot, if_neg hroot]
    refine Node.mapIds_congr hchildren fun link hlink => ?_
    obtain ⟨link', hlink', howner, -⟩ := hr.owner_mem hy hroot
    rw [parent?_of_node? hn, hlink] at hlink'
    obtain rfl := Option.some.inj hlink'
    exact hfg _ howner

namespace Copies

lemma nil (ρ σ : Store) : ρ.Copies [] [] σ σ :=
  ⟨rfl, fun _ _ hn => hn, nofun⟩

lemma append (hr₁ : ρ.Region roots order) (hr₂ : ρ.Region roots' order')
    (hdisj : ∀ y ∈ order, y ∉ order') (h₁ : ρ.Copies roots order σ υ)
    (h₂ : ρ.Copies roots' order' υ τ) : ρ.Copies (roots ++ roots') (order ++ order') σ τ where
  size_eq := by rw [h₂.size_eq, h₁.size_eq, List.length_append, Nat.add_assoc]
  kept := fun id n hn => h₂.kept id n (h₁.kept id n hn)
  copied := by
    intro y hy
    rcases List.mem_append.mp hy with hy | hy
    · obtain ⟨n, hn, hcopy⟩ := h₁.copied y hy
      have hroots : y ∈ roots ++ roots' ↔ y ∈ roots := by
        rw [List.mem_append, or_iff_left fun hr => hdisj y hy (hr₂.roots_mem hr)]
      refine ⟨n, hn, ?_⟩
      simp only [hroots]
      rw [copyId_append_left hy, h₂.kept _ _ hcopy]
      exact congrArg some (hr₁.copy_congr (fun z hz => (copyId_append_left hz).symm) hy hn)
    · -- the second copies stand behind the first
      obtain ⟨n, hn, hcopy⟩ := h₂.copied y hy
      have hright : ∀ z ∈ order', copyId υ.size order' z = copyId σ.size (order ++ order') z := by
        intro z hz
        rw [copyId_append_right fun hz' => hdisj z hz' hz, h₁.size_eq]
      have hroots : y ∈ roots ++ roots' ↔ y ∈ roots' := by
        rw [List.mem_append, or_iff_right fun hr => hdisj y (hr₁.roots_mem hr) hy]
      refine ⟨n, hn, ?_⟩
      simp only [hroots]
      rw [← hright y hy, hcopy]
      exact congrArg some (hr₂.copy_congr hright hy hn)

lemma retains (h : ρ.Copies roots order σ τ) : σ.Retains τ := retains_of_kept h.kept

lemma childrenIn_kept (h : ρ.Copies roots order σ τ) (hx : σ.Allocated x) (s : Slot) :
    τ.childrenIn x s = σ.childrenIn x s := by
  obtain ⟨n, hn⟩ := exists_node_iff.mpr hx
  rw [childrenIn_of_node? hn, childrenIn_of_node? (h.kept x n hn)]

lemma parent?_kept (h : ρ.Copies roots order σ τ) (hx : σ.Allocated x) :
    τ.parent? x = σ.parent? x := by
  obtain ⟨n, hn⟩ := exists_node_iff.mpr hx
  rw [parent?_of_node? hn, parent?_of_node? (h.kept x n hn)]

lemma childrenIn_copy (h : ρ.Copies roots order σ τ) (hy : y ∈ order) (s : Slot) :
    τ.childrenIn (copyId σ.size order y) s =
      (ρ.childrenIn y s).map (copyId σ.size order) := by
  obtain ⟨n, hn, hcopy⟩ := h.copied y hy
  rw [childrenIn_of_node? hcopy, childrenIn_of_node? hn]
  split_ifs <;> exact Payload.childrenIn_mapChildren _ _ _

lemma parent?_copy (h : ρ.Copies roots order σ τ) (hy : y ∈ order) :
    τ.parent? (copyId σ.size order y) =
      if y ∈ roots then none
      else (ρ.parent? y).map (ParentLink.mapOwner (copyId σ.size order)) := by
  obtain ⟨n, hn, hcopy⟩ := h.copied y hy
  rw [parent?_of_node? hcopy, parent?_of_node? hn]
  split_ifs <;> rfl

/-- A copy has the scalar fields and the span of its original. -/
lemma scalars_copy (h : ρ.Copies roots order σ τ) (hy : y ∈ order) :
    ∃ n m, ρ.node? y = some n ∧ τ.node? (copyId σ.size order y) = some m ∧
      n.payload.sameScalars m.payload = true ∧ m.span = n.span := by
  obtain ⟨n, hn, hcopy⟩ := h.copied y hy
  refine ⟨n, _, hn, hcopy, ?_, ?_⟩
  · split_ifs <;> exact Payload.sameScalars_mapChildren _ _
  · split_ifs <;> rfl

/-- Copies take identifiers, so these lasted. -/
lemma hasRoom (h : ρ.Copies roots order σ τ) : σ.HasRoom order.length := by
  rw [HasRoom, ← h.size_eq]
  exact τ.size_le_bound

end Copies

/-! ## Copies for which the identifiers do not last -/

namespace RunsOut

/-- The first copies fill the store. -/
lemma of_full (hr : ρ.Region roots order) (h : ρ.Copies roots order σ τ) (hfull : ¬ τ.HasRoom 1)
    (hrest : order' ≠ []) : ρ.RunsOut (order ++ order') σ τ :=
  ⟨size_of_full hfull, roots, order, order', rfl, hrest, hr, h⟩

lemma append_right (h : ρ.RunsOut order σ τ) (order' : List NodeId) :
    ρ.RunsOut (order ++ order') σ τ := by
  obtain ⟨hfull, roots, done, rest, rfl, hrest, hr, hcopies⟩ := h
  refine ⟨hfull, roots, done, rest ++ order', List.append_assoc done rest order', ?_, hr, hcopies⟩
  exact List.append_ne_nil_of_left_ne_nil hrest order'

/-- The identifiers run out while the second region is copied. -/
lemma append_left (hr : ρ.Region roots order) (hdisj : ∀ y ∈ order, y ∉ order')
    (h : ρ.Copies roots order σ υ) (h' : ρ.RunsOut order' υ τ) :
    ρ.RunsOut (order ++ order') σ τ := by
  obtain ⟨hfull, roots', done, rest, rfl, hrest, hr', hcopies⟩ := h'
  have hdisj' : ∀ y ∈ order, y ∉ done := fun y hy hmem =>
    hdisj y hy (List.mem_append_left rest hmem)
  exact ⟨hfull, roots ++ roots', order ++ done, rest, (List.append_assoc order done rest).symm,
    hrest, hr.append hr' hdisj', .append hr hr' hdisj' h hcopies⟩

variable (h : ρ.RunsOut order σ τ)
include h

lemma not_hasRoom : ¬ σ.HasRoom order.length := by
  obtain ⟨hfull, roots, done, rest, rfl, hrest, -, hcopies⟩ := h
  have hpos := List.length_pos_of_ne_nil hrest
  have hsize := hcopies.size_eq
  rw [HasRoom, List.length_append]
  omega

/-- No record that was there changes. -/
lemma kept : ∀ id n, σ.node? id = some n → τ.node? id = some n := by
  obtain ⟨-, roots, done, rest, -, -, -, hcopies⟩ := h
  exact hcopies.kept

lemma retains : σ.Retains τ := retains_of_kept h.kept

end RunsOut

namespace CopyEnd

variable {answer : Except TreeError NodeId} (h : ρ.CopyEnd x σ answer τ)
include h

/-- Either way there are copies of a region now. -/
lemma region (ht : ρ.TreeAt x) : ∃ roots done, (∀ y ∈ done, y ∈ ρ.postOrder x) ∧
    ρ.Region roots done ∧ ρ.Copies roots done σ τ := by
  rcases h with copies | ⟨-, roots, done, rest, horder, -, hr, hcopies⟩
  · exact ⟨[x], ρ.postOrder x, fun _ hy => hy, ht.region, copies⟩
  · exact ⟨roots, done, fun y hy => horder ▸ List.mem_append_left rest hy, hr, hcopies⟩

/-- No record that was there changes. -/
lemma kept : ∀ id n, σ.node? id = some n → τ.node? id = some n := by
  rcases h with copies | out
  · exact copies.kept
  · exact out.kept

lemma retains : σ.Retains τ := retains_of_kept h.kept

lemma of_hasRoom (room : σ.HasRoom (ρ.postOrder x).length) :
    answer = .ok (copyId σ.size (ρ.postOrder x) x) ∧ ρ.Copies [x] (ρ.postOrder x) σ τ := by
  rcases h with copies | out
  · exact ⟨rfl, copies⟩
  · exact absurd room out.not_hasRoom

lemma of_not_hasRoom (full : ¬ σ.HasRoom (ρ.postOrder x).length) :
    answer = .error .arenaFull ∧ ρ.RunsOut (ρ.postOrder x) σ τ := by
  rcases h with copies | out
  · exact absurd copies.hasRoom full
  · exact ⟨rfl, out⟩

end CopyEnd

/-! ## Copies of a subtree -/

/-- `τ` is `σ` with a deep copy of the subtree of `x` in `ρ`, and `copy` is the copy of `x`. -/
structure DeepCopy (ρ : Store) (x : NodeId) (σ τ : Store) (copy : NodeId) : Prop where
  /-- The nodes are copied in post-order: children, slot by slot, before their owner. -/
  order_eq : ∀ y, ρ.Reaches x y → ρ.postOrder y = (ρ.children y).flatMap ρ.postOrder ++ [y]
  /-- Those are the nodes of the subtree. -/
  mem_order : ∀ y, y ∈ ρ.postOrder x ↔ ρ.Reaches x y
  /-- Each of them is copied once. -/
  nodup_order : (ρ.postOrder x).Nodup
  /-- The copies are all that is new. -/
  size_eq : τ.size = σ.size + (ρ.postOrder x).length
  /-- The copy of `x` comes last. -/
  copy_eq : copy = ⟨σ.size + (ρ.postOrder x).length - 1⟩
  /-- No record that was there changes. -/
  kept : ∀ id n, σ.node? id = some n → τ.node? id = some n
  /-- The node at place `k` is copied behind `k` others.  Its copy has its scalar fields and span,
  and holds the copies of its children, slot by slot in order. -/
  copied : ∀ k y, (ρ.postOrder x)[k]? = some y → copyId σ.size (ρ.postOrder x) y = ⟨σ.size + k⟩ ∧
    ∃ n m, ρ.node? y = some n ∧ τ.node? ⟨σ.size + k⟩ = some m ∧
      n.payload.sameScalars m.payload = true ∧ m.span = n.span ∧
      ∀ slot, m.payload.childrenIn slot =
        (n.payload.childrenIn slot).map (copyId σ.size (ρ.postOrder x))
  /-- The copy of `x` is attached nowhere. -/
  root_loose : τ.parent? copy = none
  /-- The copies of the others are attached as these are, to the copies of their owners. -/
  attached : ∀ y, ρ.Reaches x y → y ≠ x →
    ∃ link, ρ.parent? y = some link ∧ ρ.Reaches x link.owner ∧
      τ.parent? (copyId σ.size (ρ.postOrder x) y) =
        some (link.mapOwner (copyId σ.size (ρ.postOrder x)))

/-- `τ` is `σ` with the beginning of a deep copy of the subtree of `x` in `ρ`, which the identifiers
did not last for. -/
structure CutShort (ρ : Store) (x : NodeId) (σ τ : Store) : Prop where
  /-- The nodes were to be copied in post-order, each of them once. -/
  order_eq : ∀ y, ρ.Reaches x y → ρ.postOrder y = (ρ.children y).flatMap ρ.postOrder ++ [y]
  mem_order : ∀ y, y ∈ ρ.postOrder x ↔ ρ.Reaches x y
  nodup_order : (ρ.postOrder x).Nodup
  /-- No identifier is left, and not all nodes are copied. -/
  full : τ.size = NodeId.bound
  short : NodeId.bound < σ.size + (ρ.postOrder x).length
  /-- No record that was there changes. -/
  kept : ∀ id n, σ.node? id = some n → τ.node? id = some n
  /-- The node at place `k` is copied behind `k` others, if there is an identifier for its copy. -/
  copied : ∀ k y, (ρ.postOrder x)[k]? = some y → σ.size + k < NodeId.bound →
    copyId σ.size (ρ.postOrder x) y = ⟨σ.size + k⟩ ∧
    ∃ n m, ρ.node? y = some n ∧ τ.node? ⟨σ.size + k⟩ = some m ∧
      n.payload.sameScalars m.payload = true ∧ m.span = n.span ∧
      ∀ slot, m.payload.childrenIn slot =
        (n.payload.childrenIn slot).map (copyId σ.size (ρ.postOrder x))
  /-- A copy is attached to the copy of its owner, or loose where there is none. -/
  attached : ∀ y, ρ.Reaches x y → τ.Allocated (copyId σ.size (ρ.postOrder x) y) →
    ∃ link, ρ.parent? y = some link ∧ ρ.Reaches x link.owner ∧
      τ.parent? (copyId σ.size (ρ.postOrder x) y) =
        if τ.Allocated (copyId σ.size (ρ.postOrder x) link.owner) then
          some (link.mapOwner (copyId σ.size (ρ.postOrder x)))
        else none

/-- The reply to the request to copy the subtree of `x` in `ρ` to `σ`: a deep copy, if there are
identifiers for all its nodes, and else an error and the beginning of one. -/
structure CopyReply (ρ : Store) (x : NodeId) (σ : Store) (reply : Option (Reply NodeId)) :
    Prop where
  deepCopy : σ.HasRoom (ρ.postOrder x).length →
    ∃ copy τ, reply = some (.ok copy, τ) ∧ ρ.DeepCopy x σ τ copy
  cutShort : ¬ σ.HasRoom (ρ.postOrder x).length →
    ∃ τ, reply = some (.error .arenaFull, τ) ∧ ρ.CutShort x σ τ

lemma copyId_getElem {k : Nat} (hnodup : order.Nodup) (hk : order[k]? = some y) :
    copyId base order y = ⟨base + k⟩ := by
  obtain ⟨hlt, rfl⟩ := List.getElem?_eq_some_iff.mp hk
  rw [copyId, hnodup.idxOf_getElem k hlt]

lemma Copies.deepCopy (ht : ρ.TreeAt x) (h : ρ.Copies [x] (ρ.postOrder x) σ τ) :
    ρ.DeepCopy x σ τ (copyId σ.size (ρ.postOrder x) x) where
  order_eq := fun _ hy => (ht.sub hy).postOrder_eq
  mem_order := fun _ => ht.mem_postOrder
  nodup_order := ht.nodup_postOrder
  size_eq := h.size_eq
  copy_eq := by
    -- the root stands at the end of its post-order
    have hlast : (ρ.postOrder x)[(ρ.postOrder x).length - 1]? = some x := by
      rw [ht.postOrder_eq]
      simp
    have hpos : 0 < (ρ.postOrder x).length :=
      List.length_pos_of_mem (ht.mem_postOrder.mpr .refl)
    rw [copyId_getElem ht.nodup_postOrder hlast]
    congr 1
    omega
  kept := h.kept
  copied := by
    intro k y hk
    have hid : copyId σ.size (ρ.postOrder x) y = ⟨σ.size + k⟩ :=
      copyId_getElem ht.nodup_postOrder hk
    obtain ⟨n, m, hn, hm, hsame, hspan⟩ := h.scalars_copy (List.mem_of_getElem? hk)
    have hslots := h.childrenIn_copy (List.mem_of_getElem? hk)
    rw [hid] at hm hslots
    refine ⟨hid, n, m, hn, hm, hsame, hspan, fun slot => ?_⟩
    rw [← childrenIn_of_node? hm, hslots, childrenIn_of_node? hn]
  root_loose := by
    rw [h.parent?_copy (ht.mem_postOrder.mpr .refl), if_pos (List.mem_singleton.mpr rfl)]
  attached := by
    intro y hy hne
    have hroot : y ∉ [x] := fun hmem => hne (List.mem_singleton.mp hmem)
    have hmem := ht.mem_postOrder.mpr hy
    obtain ⟨link, hlink, howner, -⟩ := ht.region.owner_mem hmem hroot
    refine ⟨link, hlink, ht.mem_postOrder.mp howner, ?_⟩
    rw [h.parent?_copy hmem, if_neg hroot, hlink]
    rfl

/-- What is copied is what there were identifiers for. -/
lemma Copies.mem_iff_allocated {rest : List NodeId} (h : ρ.Copies roots order σ τ) :
    y ∈ order ↔ τ.Allocated (copyId σ.size (order ++ rest) y) := by
  rw [Allocated, h.size_eq]
  constructor
  · intro hy
    rw [copyId_append_left hy]
    exact copyId_index_lt σ.size hy
  · intro hlt
    by_contra hy
    rw [copyId_append_right hy] at hlt
    exact absurd hlt (Nat.not_lt.mpr le_copyId_index)

/-- **What is left of a deep copy when the identifiers run out.** -/
theorem RunsOut.cutShort (ht : ρ.TreeAt x) (h : ρ.RunsOut (ρ.postOrder x) σ τ) :
    ρ.CutShort x σ τ := by
  have hshort := Nat.lt_of_not_le h.not_hasRoom
  obtain ⟨hfull, roots, done, rest, horder, hrest, hr, hcopies⟩ := h
  have hmem : ∀ {y}, y ∈ done ↔ τ.Allocated (copyId σ.size (ρ.postOrder x) y) := by
    intro y
    rw [horder]
    exact hcopies.mem_iff_allocated
  have hid : ∀ {y}, y ∈ done → copyId σ.size done y = copyId σ.size (ρ.postOrder x) y := by
    intro y hy
    rw [horder, copyId_append_left hy]
  refine ⟨fun _ hy => (ht.sub hy).postOrder_eq, fun _ => ht.mem_postOrder, ht.nodup_postOrder,
    hfull, hshort, hcopies.kept, fun k y hk hlt => ?_, fun y hy halloc => ?_⟩
  · have hplace : copyId σ.size (ρ.postOrder x) y = ⟨σ.size + k⟩ :=
      copyId_getElem ht.nodup_postOrder hk
    have hy : y ∈ done := by
      rw [hmem, hplace, Allocated, hfull]
      exact hlt
    obtain ⟨n, m, hn, hm, hsame, hspan⟩ := hcopies.scalars_copy hy
    have hslots := hcopies.childrenIn_copy hy
    rw [hid hy, hplace] at hm hslots
    refine ⟨hplace, n, m, hn, hm, hsame, hspan, fun slot => ?_⟩
    rw [← childrenIn_of_node? hm, hslots, childrenIn_of_node? hn]
    refine List.map_congr_left fun c hc => hid (hr.child_mem hy ?_)
    rw [children_of_node? hn]
    exact Payload.mem_children.mpr ⟨slot, hc⟩
  · have hy' := hmem.mpr halloc
    -- the root is the last in post-order, so it is not copied
    have hne : y ∉ [x] := by
      intro hroot
      obtain rfl := List.mem_singleton.mp hroot
      have hnodup := ht.nodup_postOrder
      have hlast : rest.getLast? = some y := by
        have hall := congrArg List.getLast? horder
        rwa [ht.postOrder_eq, List.getLast?_concat, List.getLast?_append_of_ne_nil _ hrest, eq_comm]
          at hall
      rw [horder] at hnodup
      exact (List.nodup_append.mp hnodup).2.2 y hy' y (List.mem_of_getLast? hlast) rfl
    obtain ⟨link, hlink, howner, hheld⟩ := ht.region.owner_mem (ht.mem_postOrder.mpr hy) hne
    refine ⟨link, hlink, ht.mem_postOrder.mp howner, ?_⟩
    rw [← hid hy', hcopies.parent?_copy hy', hlink]
    by_cases hcopied : link.owner ∈ done
    · have hnot := hr.child_not_root hcopied (mem_children.mpr ⟨link.slot, hheld⟩)
      rw [if_neg hnot, if_pos (hmem.mp hcopied), Option.map_some, ParentLink.mapOwner,
        ParentLink.mapOwner, hid hcopied]
    · have hroot : y ∈ roots := by
        by_contra hnot
        obtain ⟨link', hlink', howner', -⟩ := hr.owner_mem hy' hnot
        rw [hlink] at hlink'
        obtain rfl := Option.some.inj hlink'
        exact hcopied howner'
      rw [if_pos hroot, if_neg fun hall => hcopied (hmem.mpr hall)]

lemma CopyEnd.reply {answer : Except TreeError NodeId} (ht : ρ.TreeAt x)
    (h : ρ.CopyEnd x σ answer τ) : ρ.CopyReply x σ (some (answer, τ)) where
  deepCopy := by
    intro room
    obtain ⟨rfl, hcopies⟩ := h.of_hasRoom room
    exact ⟨_, τ, rfl, hcopies.deepCopy ht⟩
  cutShort := by
    intro full
    obtain ⟨rfl, out⟩ := h.of_not_hasRoom full
    exact ⟨τ, rfl, out.cutShort ht⟩

end Store

end DeclTree
