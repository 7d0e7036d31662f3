import DeclTree.Proofs.Store.Copies
import DeclTree.Store.Copy

/-!
# Deep copies, node by node

A deep copy puts the copies of a subtree behind the nodes of the store, in post-order, until it is
through or no identifier is left, and changes nothing that was there.  `copyNode_ends` shows it by
induction on the depth of the subtree, and `Store.copySubtree_ends` and `Store.importSubtree_ends`
read it off for the two operations.

The source of a copy may be the growing store itself.  What matters is only that it shows the
nodes to copy all the time, `CopySource.Shows`, which growing does not change.
-/

namespace DeclTree

/-! ## Computations that grow a store -/

namespace Growth

lemma bind_of_ok {α β : Type} {x : Growth α} {f : α → Growth β} {σ τ : Store} {a : α}
    (h : x σ = some (.ok a, τ)) : (x >>= f) σ = f a τ := by
  simp only [bind, ExceptT.bind, ExceptT.mk, StateT.bind, h]
  rfl

lemma bind_of_error {α β : Type} {x : Growth α} {f : α → Growth β} {σ τ : Store} {e : TreeError}
    (h : x σ = some (.error e, τ)) : (x >>= f) σ = some (.error e, τ) := by
  simp only [bind, ExceptT.bind, ExceptT.mk, StateT.bind, h]
  rfl

/-- The computations for the identifiers succeed one after the other and answer as `g` says. -/
def Maps (f : NodeId → Growth NodeId) (g : NodeId → NodeId) : List NodeId → Store → Store → Prop
  | [], σ, τ => σ = τ
  | c :: cs, σ, τ => ∃ υ, f c σ = some (.ok (g c), υ) ∧ Maps f g cs υ τ

variable {f : NodeId → Growth NodeId} {g g' : NodeId → NodeId} {σ τ : Store}

lemma Maps.congr {cs : List NodeId} (h : Maps f g cs σ τ) (hg : ∀ c ∈ cs, g c = g' c) :
    Maps f g' cs σ τ := by
  induction cs generalizing σ with
  | nil => exact h
  | cons c cs ih =>
    obtain ⟨υ, hc, hcs⟩ := h
    refine ⟨υ, ?_, ih hcs fun d hd => hg d (List.mem_cons_of_mem c hd)⟩
    rw [hc, hg c List.mem_cons_self]

lemma Maps.mapM {cs : List NodeId} (h : Maps f g cs σ τ) :
    (cs.mapM f : Growth (List NodeId)) σ = some (.ok (cs.map g), τ) := by
  induction cs generalizing σ with
  | nil =>
    obtain rfl := h
    rfl
  | cons c cs ih =>
    obtain ⟨υ, hc, hcs⟩ := h
    rw [List.mapM_cons, bind_of_ok hc, bind_of_ok (ih hcs)]
    rfl

/-- Going through the slots is going through the children. -/
lemma Maps.mapChildrenM {p : Payload} (h : Maps f g p.children σ τ) :
    (p.mapChildrenM f : Growth Payload) σ = some (.ok (p.mapChildren g), τ) := by
  rw [Payload.mapChildrenM_eq, bind_of_ok h.mapM, Payload.withChildren_map]
  rfl

/-- The computation for one of the identifiers fails, and those for the ones before succeed. -/
def Fails (f : NodeId → Growth NodeId) (e : TreeError) : List NodeId → Store → Store → Prop
  | [], _, _ => False
  | c :: cs, σ, τ => f c σ = some (.error e, τ) ∨
      ∃ copy υ, f c σ = some (.ok copy, υ) ∧ Fails f e cs υ τ

lemma Fails.mapM {cs : List NodeId} {e : TreeError} (h : Fails f e cs σ τ) :
    (cs.mapM f : Growth (List NodeId)) σ = some (.error e, τ) := by
  induction cs generalizing σ with
  | nil => exact h.elim
  | cons c cs ih =>
    rw [List.mapM_cons]
    rcases h with hc | ⟨copy, υ, hc, hcs⟩
    · rw [bind_of_error hc]
    · rw [bind_of_ok hc, bind_of_error (ih hcs)]

lemma Fails.mapChildrenM {p : Payload} {e : TreeError} (h : Fails f e p.children σ τ) :
    (p.mapChildrenM f : Growth Payload) σ = some (.error e, τ) := by
  rw [Payload.mapChildrenM_eq, bind_of_error h.mapM]

end Growth

namespace Store

variable {ρ σ τ υ : Store} {roots order : List NodeId} {x y z : NodeId}

/-! ### Adopting children -/

lemma size_setLinks (σ : Store) (owner : NodeId) (links : List (Slot × NodeId)) :
    (σ.setLinks owner links).size = σ.size := by
  induction links generalizing σ with
  | nil => rfl
  | cons entry links ih => exact (ih _).trans (size_setParent σ entry.2 _)

lemma childrenIn_setLinks (σ : Store) (owner : NodeId) (links : List (Slot × NodeId)) (o : NodeId)
    (s : Slot) : (σ.setLinks owner links).childrenIn o s = σ.childrenIn o s := by
  induction links generalizing σ with
  | nil => rfl
  | cons entry links ih => exact (ih _).trans (childrenIn_setParent σ entry.2 _ o s)

lemma node?_setLinks_of_not_mem {owner : NodeId} {links : List (Slot × NodeId)}
    (h : z ∉ links.map Prod.snd) : (σ.setLinks owner links).node? z = σ.node? z := by
  induction links generalizing σ with
  | nil => rfl
  | cons entry links ih =>
    obtain ⟨slot, child⟩ := entry
    simp only [List.map_cons, List.mem_cons, not_or] at h
    have hstep : (σ.setParent child (some ⟨owner, slot⟩)).node? z = σ.node? z := by
      rw [node?_setParent, if_neg (Ne.symm h.1)]
    exact (ih h.2).trans hstep

lemma node?_setLinks_of_mem {owner : NodeId} {links : List (Slot × NodeId)} {slot : Slot}
    (hnodup : (links.map Prod.snd).Nodup) (h : (slot, z) ∈ links) :
    (σ.setLinks owner links).node? z =
      (σ.node? z).map fun n => { n with parent := some ⟨owner, slot⟩ } := by
  induction links generalizing σ with
  | nil => exact absurd h List.not_mem_nil
  | cons entry links ih =>
    obtain ⟨slot', child⟩ := entry
    rw [List.map_cons, List.nodup_cons] at hnodup
    rcases List.mem_cons.mp h with heq | hmem
    · obtain ⟨rfl, rfl⟩ := Prod.mk.inj heq
      have hrest : ((σ.setParent z (some ⟨owner, slot⟩)).setLinks owner links).node? z =
          (σ.setParent z (some ⟨owner, slot⟩)).node? z := node?_setLinks_of_not_mem hnodup.1
      refine hrest.trans ?_
      rw [node?_setParent, if_pos rfl]
    · have hne : child ≠ z := by
        rintro rfl
        exact hnodup.1 (List.mem_map.mpr ⟨_, hmem, rfl⟩)
      have hstep : (σ.setParent child (some ⟨owner, slot'⟩)).node? z = σ.node? z := by
        rw [node?_setParent, if_neg hne]
      refine (ih hnodup.2 hmem).trans ?_
      rw [hstep]

lemma parent?_setLinks_of_mem (owner : NodeId) {links : List (Slot × NodeId)}
    (hz : σ.Allocated z) (h : z ∈ links.map Prod.snd) :
    ∃ slot, (σ.setLinks owner links).parent? z = some ⟨owner, slot⟩ := by
  induction links generalizing σ with
  | nil => cases h
  | cons entry links ih =>
    have hstep : σ.setLinks owner (entry :: links) =
        (σ.setParent entry.2 (some ⟨owner, entry.1⟩)).setLinks owner links := rfl
    have hkept : (σ.setParent entry.2 (some ⟨owner, entry.1⟩)).Allocated z := by
      rwa [Allocated, size_setParent]
    rw [hstep]
    -- the last link that is set is the one that stays
    by_cases hlater : z ∈ links.map Prod.snd
    · exact ih hkept hlater
    · obtain rfl : z = entry.2 := (List.mem_cons.mp h).resolve_right hlater
      refine ⟨entry.1, ?_⟩
      rw [parent?, node?_setLinks_of_not_mem hlater, ← parent?, parent?_setParent, if_pos ⟨rfl, hz⟩]

section Adopt

variable {p : Payload} {span : Span}

lemma adopt_of_full (p : Payload) (span : Span) (full : ¬ σ.HasRoom 1) :
    σ.adopt p span = (.error .arenaFull, σ) := by
  simp only [Store.adopt, add_of_full _ full]

variable (room : σ.HasRoom 1)

lemma adopt_of_room (p : Payload) (span : Span) : σ.adopt p span =
    (.ok σ.nextId, (σ.push ⟨p, span, none⟩ room).setLinks σ.nextId p.slotChildren) := by
  simp only [Store.adopt, add_of_room _ room]

include room

lemma size_adopt (p : Payload) (span : Span) : (σ.adopt p span).2.size = σ.size + 1 := by
  rw [adopt_of_room room, size_setLinks, size_push]

/-- The adopting node is the new one. -/
lemma node?_adopt_self (hold : ∀ c ∈ p.children, σ.Allocated c) :
    (σ.adopt p span).2.node? σ.nextId = some ⟨p, span, none⟩ := by
  have hnew : σ.nextId ∉ p.slotChildren.map Prod.snd := fun hmem =>
    absurd (hold _ hmem) (Nat.lt_irrefl _)
  rw [adopt_of_room room, node?_setLinks_of_not_mem hnew, node?_push, if_pos rfl]

/-- Other nodes that are not adopted stay. -/
lemma node?_adopt_of_not_mem (hz : z ∉ p.children) (hne : z ≠ σ.nextId) :
    (σ.adopt p span).2.node? z = σ.node? z := by
  rw [adopt_of_room room, node?_setLinks_of_not_mem hz, node?_push, if_neg hne]

/-- The adopted ones are linked to the new node. -/
lemma node?_adopt_of_mem {slot : Slot} (hnodup : p.children.Nodup)
    (hz : z ∈ p.childrenIn slot) (halloc : σ.Allocated z) :
    (σ.adopt p span).2.node? z =
      (σ.node? z).map fun n => { n with parent := some ⟨σ.nextId, slot⟩ } := by
  have hne : z ≠ σ.nextId := by
    rintro rfl
    exact absurd halloc (Nat.lt_irrefl _)
  rw [adopt_of_room room, node?_setLinks_of_mem hnodup (Payload.mem_slotChildren.mpr hz),
    node?_push, if_neg hne]

end Adopt

/-! ### The copy of an owner -/

lemma children_mapChildren (f : NodeId → NodeId) (p : Payload) :
    (p.mapChildren f).children = p.children.map f := by
  simp [Payload.children, Payload.slotChildren_mapChildren]

/-- The copy of a node below `x` is linked to the new node if the original is a child of `x`, and
complete either way. -/
lemma node?_adopt_copy {below : List NodeId} {f g : NodeId → NodeId} {n m : Node}
    (ht : ρ.TreeAt x) (hn : ρ.node? x = some n) (hr : ρ.Region (ρ.children x) below)
    (hinj : ∀ {y z}, y ∈ below → f y = f z → y = z) (hfg : ∀ z ∈ below, f z = g z)
    (hgx : g x = υ.nextId) (halloc : ∀ z ∈ below, υ.Allocated (f z)) (room : υ.HasRoom 1)
    (hy : y ∈ below) (hm : ρ.node? y = some m)
    (hcopy : υ.node? (f y) =
      some (if y ∈ ρ.children x then (m.mapIds f).loose else m.mapIds f)) :
    (υ.adopt (n.payload.mapChildren f) n.span).2.node? (f y) = some (m.mapIds g) := by
  have hchildren : ρ.children x = n.payload.children := children_of_node? hn
  have hnodup : (n.payload.mapChildren f).children.Nodup := by
    rw [children_mapChildren, ← hchildren]
    exact (ht.nodup_children .refl).map_on fun y hy z _ heq => hinj (hr.roots_mem hy) heq
  have hcongr := hr.copy_congr hfg hy hm
  rw [hcongr] at hcopy
  by_cases hroot : y ∈ ρ.children x
  · -- the copy was loose; now it is linked as the original is
    obtain ⟨slot, hslot⟩ := mem_children.mp hroot
    have hparent : m.parent = some ⟨x, slot⟩ := by
      rw [← parent?_of_node? hm]
      exact ht.linked .refl hslot
    have hentry : f y ∈ (n.payload.mapChildren f).childrenIn slot := by
      rw [Payload.childrenIn_mapChildren, ← childrenIn_of_node? hn]
      exact List.mem_map.mpr ⟨y, hslot, rfl⟩
    rw [node?_adopt_of_mem room hnodup hentry (halloc y hy), hcopy, if_pos hroot]
    simp [Node.loose, Node.mapIds, hparent, ParentLink.mapOwner, hgx]
  · have hentry : f y ∉ (n.payload.mapChildren f).children := by
      rw [children_mapChildren, ← hchildren]
      intro hmem
      obtain ⟨c, hc, heq⟩ := List.mem_map.mp hmem
      obtain rfl := hinj (hr.roots_mem hc) heq
      exact hroot hc
    have hne : f y ≠ υ.nextId := fun heq =>
      absurd (heq ▸ halloc y hy) (Nat.lt_irrefl _)
    rw [node?_adopt_of_not_mem room hentry hne, hcopy, if_neg hroot]

/-- When all children of a node are copied, adopting the copies completes the copy of the node. -/
lemma Copies.adopt {below : List NodeId} (ht : ρ.TreeAt x) {n : Node}
    (hn : ρ.node? x = some n) (horder : ρ.postOrder x = below ++ [x])
    (hr : ρ.Region (ρ.children x) below) (h : ρ.Copies (ρ.children x) below σ υ)
    (room : υ.HasRoom 1) :
    copyId σ.size (ρ.postOrder x) x = υ.nextId ∧
      ρ.Copies [x] (ρ.postOrder x) σ
        (υ.adopt (n.payload.mapChildren (copyId σ.size below)) n.span).2 := by
  have hx : x ∉ below := by
    have hnodup := ht.nodup_postOrder
    rw [horder] at hnodup
    exact fun hmem => (List.nodup_append.mp hnodup).2.2 x hmem x (List.mem_singleton.mpr rfl) rfl
  have hbelow : ∀ z ∈ below, copyId σ.size below z = copyId σ.size (ρ.postOrder x) z := by
    intro z hz
    rw [horder, copyId_append_left hz]
  have hself : copyId σ.size (ρ.postOrder x) x = υ.nextId := by
    rw [horder, copyId_append_right hx]
    simp [copyId, nextId, h.size_eq]
  have halloc : ∀ z ∈ below, υ.Allocated (copyId σ.size below z) := by
    intro z hz
    have hlt := copyId_index_lt σ.size hz
    rwa [← h.size_eq] at hlt
  have hchildren : ∀ z, z ∈ (n.payload.mapChildren (copyId σ.size below)).children →
      ∃ c ∈ below, copyId σ.size below c = z := by
    intro z hz
    rw [children_mapChildren, ← children_of_node? hn] at hz
    obtain ⟨c, hc, heq⟩ := List.mem_map.mp hz
    exact ⟨c, hr.roots_mem hc, heq⟩
  refine ⟨hself, ⟨?_, ?_, ?_⟩⟩
  · rw [size_adopt room, h.size_eq, horder, List.length_append]
    rfl
  · -- nothing from before is the copy of a child
    intro id m hm
    have hlt : id.index < σ.size := allocated_of_node? hm
    have hsize := h.size_eq
    rw [node?_adopt_of_not_mem room, h.kept id m hm]
    · intro hmem
      obtain ⟨c, -, rfl⟩ := hchildren id hmem
      exact absurd hlt (Nat.not_lt.mpr le_copyId_index)
    · rintro rfl
      simp only [nextId] at hlt
      omega
  · intro y hy
    rw [horder] at hy
    rcases List.mem_append.mp hy with hy | hy
    · obtain ⟨m, hm, hcopy⟩ := h.copied y hy
      have hne : y ∉ [x] := fun hmem => hx (List.mem_singleton.mp hmem ▸ hy)
      refine ⟨m, hm, ?_⟩
      rw [if_neg hne, ← hbelow y hy]
      exact node?_adopt_copy ht hn hr (fun hy heq => copyId_inj hy heq) hbelow hself halloc room hy
        hm hcopy
    · obtain rfl := List.mem_singleton.mp hy
      refine ⟨n, hn, ?_⟩
      rw [if_pos hy, hself, node?_adopt_self room]
      · have hpayload : n.payload.mapChildren (copyId σ.size below) =
            n.payload.mapChildren (copyId σ.size (ρ.postOrder y)) :=
          Payload.mapChildren_congr fun c hc =>
            hbelow c (hr.roots_mem (by rwa [children_of_node? hn]))
        rw [hpayload]
        rfl
      · intro c hc
        obtain ⟨d, hd, rfl⟩ := hchildren c hc
        exact halloc d hd

end Store

/-! ## Copying ends in a store with copies -/

/-- Where the nodes to copy are read from, those of `ρ` are seen. -/
def CopySource.Shows (src : CopySource) (ρ σ : Store) : Prop :=
  ∀ id n, ρ.node? id = some n → (src.store σ).node? id = some n

open Store

variable {src : CopySource} {ρ σ τ : Store} {x : NodeId}

/-- Records that stay are shown further on. -/
lemma CopySource.Shows.of_kept (hs : src.Shows ρ σ)
    (hkept : ∀ id n, σ.node? id = some n → τ.node? id = some n) : src.Shows ρ τ := by
  cases src with
  | within => exact fun id n hn => hkept id n (hs id n hn)
  | across source => exact hs

/-- Copies that are put behind hide nothing. -/
lemma CopySource.Shows.of_copies {roots order : List NodeId} (hs : src.Shows ρ σ)
    (h : ρ.Copies roots order σ τ) : src.Shows ρ τ :=
  hs.of_kept h.kept

/-- Subtrees that are apart are copied one after the other, as long as the identifiers last. -/
lemma maps_copies {f : NodeId → Growth NodeId} {cs : List NodeId}
    (htrees : ∀ c ∈ cs, ρ.TreeAt c) (hnodup : (cs.flatMap ρ.postOrder).Nodup)
    (hf : ∀ c ∈ cs, ∀ σ, src.Shows ρ σ →
      ∃ answer τ, f c σ = some (answer, τ) ∧ ρ.CopyEnd c σ answer τ)
    (hs : src.Shows ρ σ) :
    (∃ τ, Growth.Maps f (copyId σ.size (cs.flatMap ρ.postOrder)) cs σ τ ∧
      ρ.Copies cs (cs.flatMap ρ.postOrder) σ τ) ∨
    ∃ τ, Growth.Fails f .arenaFull cs σ τ ∧ ρ.RunsOut (cs.flatMap ρ.postOrder) σ τ := by
  induction cs generalizing σ with
  | nil => exact .inl ⟨σ, rfl, Copies.nil ρ σ⟩
  | cons c cs ih =>
    rw [List.flatMap_cons] at hnodup ⊢
    obtain ⟨-, hrest, hdisj⟩ := List.nodup_append.mp hnodup
    have happart : ∀ y ∈ ρ.postOrder c, y ∉ cs.flatMap ρ.postOrder :=
      fun y hy hy' => hdisj y hy y hy' rfl
    have htree := htrees c List.mem_cons_self
    have htrees' : ∀ d ∈ cs, ρ.TreeAt d := fun d hd => htrees d (List.mem_cons_of_mem c hd)
    have hregion := region_flatMap htrees' hrest
    obtain ⟨answer, υ, hfirst, hend⟩ := hf c List.mem_cons_self σ hs
    cases hend with
    | ranOut out => exact .inr ⟨υ, .inl hfirst, out.append_right _⟩
    | made hcopies =>
      rcases ih htrees' hrest (fun d hd => hf d (List.mem_cons_of_mem c hd))
          (hs.of_copies hcopies) with ⟨τ, hmaps, hcopies'⟩ | ⟨τ, hfails, out⟩
      · refine .inl ⟨τ, ⟨υ, ?_, hmaps.congr ?_⟩,
          hcopies.append htree.region hregion happart hcopies'⟩
        · rw [hfirst, copyId_append_left (htree.region.roots_mem (List.mem_singleton.mpr rfl))]
        · intro d hd
          have hd' : d ∉ ρ.postOrder c := fun hmem => happart d hmem (hregion.roots_mem hd)
          rw [copyId_append_right hd', hcopies.size_eq]
      · exact .inr ⟨τ, .inr ⟨_, υ, hfirst, hfails⟩, .append_left htree.region happart hcopies out⟩

/-- **Copying a subtree puts its copies behind, in post-order, until the identifiers run out.** -/
theorem copyNode_ends {depth : Nat} (hdepth : ρ.UnfoldsWithin depth x) (ht : ρ.TreeAt x)
    (hs : src.Shows ρ σ) :
    ∃ answer τ, copyNode src depth x σ = some (answer, τ) ∧ ρ.CopyEnd x σ answer τ := by
  induction depth generalizing x σ with
  | zero => exact hdepth.elim
  | succ depth ih =>
    obtain ⟨n, hn⟩ := exists_node_iff.mpr ht.allocated
    have hchildren : ρ.children x = n.payload.children := children_of_node? hn
    have htrees : ∀ c ∈ ρ.children x, ρ.TreeAt c := fun c hc => ht.sub (.single hc)
    have horder := ht.postOrder_eq
    have hnodup : ((ρ.children x).flatMap ρ.postOrder).Nodup := by
      have hall := ht.nodup_postOrder
      rw [horder] at hall
      exact (List.nodup_append.mp hall).1
    have hregion := region_flatMap htrees hnodup
    have hsource : Growth.source src x σ = some (.ok n, σ) := by
      simp only [Growth.source, node, hs x n hn]
    rw [copyNode, Growth.bind_of_ok hsource]
    -- the children are copied one level less deep, and then the copy of the node adopts theirs
    rcases maps_copies (f := copyNode src depth) htrees hnodup
        (fun c hc σ' hs' => ih (hdepth.2 c hc) (htrees c hc) hs') hs with
      ⟨υ, hmaps, hcopies⟩ | ⟨υ, hfails, out⟩
    · rw [hchildren] at hmaps
      rw [Growth.bind_of_ok hmaps.mapChildrenM, ← hchildren, Growth.adopt]
      by_cases room : υ.HasRoom 1
      · obtain ⟨hself, hadopted⟩ := hcopies.adopt ht hn horder hregion room
        rw [adopt_of_room room] at hadopted ⊢
        rw [← hself] at hadopted ⊢
        exact ⟨_, _, rfl, .made hadopted⟩
      · rw [adopt_of_full _ _ room]
        refine ⟨_, υ, rfl, .ranOut ?_⟩
        rw [horder]
        exact .of_full hregion hcopies room (List.cons_ne_nil x [])
    · rw [hchildren] at hfails
      rw [Growth.bind_of_error hfails.mapChildrenM]
      refine ⟨_, υ, rfl, .ranOut ?_⟩
      rw [horder]
      exact out.append_right [x]

/-- An unknown node is not copied. -/
lemma copyNode_of_not_allocated {depth : Nat} (hx : (src.store σ).node? x = none) :
    copyNode src (depth + 1) x σ = some (.error (.unknownNode x), σ) := by
  have hsource : Growth.source src x σ = some (.error (.unknownNode x), σ) := by
    simp only [Growth.source, node, hx]
  rw [copyNode, Growth.bind_of_error hsource]

namespace Store

/-- A copy may go deeper than what unfolds does. -/
lemma size_le_copyDepth (σ : Store) : σ.size ≤ σ.copyDepth :=
  calc σ.size ≤ 1 * (σ.size + 1) := by omega
    _ ≤ (σ.edgeCount + 1) * (σ.size + 1) := Nat.mul_le_mul_right _ (Nat.le_add_left 1 _)

lemma copySubtree_ends (ht : σ.TreeAt x) :
    ∃ answer τ, σ.copySubtree x = some (answer, τ) ∧ σ.CopyEnd x σ answer τ := by
  have hshows : CopySource.within.Shows σ σ := fun _ _ hn => hn
  exact copyNode_ends (ht.unfoldsWithin.mono (size_le_copyDepth σ)) ht hshows

lemma importSubtree_ends (σ : Store) (ht : ρ.TreeAt x) :
    ∃ answer τ, σ.importSubtree ρ x = some (answer, τ) ∧ ρ.CopyEnd x σ answer τ := by
  have hshows : (CopySource.across ρ).Shows ρ σ := fun _ _ hn => hn
  exact copyNode_ends (ht.unfoldsWithin.mono (Nat.le_succ ρ.size)) ht hshows

lemma importSubtree_copies (ht : ρ.TreeAt x) (room : σ.HasRoom (ρ.postOrder x).length) :
    ∃ τ, σ.importSubtree ρ x = some (.ok (copyId σ.size (ρ.postOrder x) x), τ) ∧
      ρ.Copies [x] (ρ.postOrder x) σ τ := by
  obtain ⟨answer, τ, heq, hend⟩ := importSubtree_ends σ ht
  obtain ⟨rfl, hcopies⟩ := hend.of_hasRoom room
  exact ⟨τ, heq, hcopies⟩

lemma copySubtree_of_not_allocated (hx : ¬ σ.Allocated x) :
    σ.copySubtree x = some (.error (.unknownNode x), σ) := by
  obtain ⟨depth, hdepth⟩ : ∃ depth, σ.copyDepth = depth + 1 := by
    have hpos : 0 < σ.copyDepth := Nat.mul_pos (Nat.succ_pos _) (Nat.succ_pos _)
    exact ⟨σ.copyDepth - 1, by omega⟩
  rw [copySubtree, hdepth]
  exact copyNode_of_not_allocated (node?_eq_none_iff.mpr hx)

lemma importSubtree_of_not_allocated (σ : Store) (hx : ¬ ρ.Allocated x) :
    σ.importSubtree ρ x = some (.error (.unknownNode x), σ) :=
  copyNode_of_not_allocated (node?_eq_none_iff.mpr hx)

section Requests

variable {reply : Option (Reply NodeId)} {answer : Except TreeError NodeId}

/-- A copy of an unknown node is refused, one of a known node is made as far as may be. -/
lemma Forest.copy_cases (hρ : ρ.Forest)
    (hends : ρ.TreeAt x → ∃ answer τ, reply = some (answer, τ) ∧ ρ.CopyEnd x σ answer τ)
    (hunknown : ¬ ρ.Allocated x → reply = some (.error (.unknownNode x), σ))
    (h : reply = some (answer, τ)) :
    (¬ ρ.Allocated x ∧ answer = .error (.unknownNode x) ∧ τ = σ) ∨
      (ρ.Allocated x ∧ ρ.CopyEnd x σ answer τ) := by
  by_cases hx : ρ.Allocated x
  · obtain ⟨answer', τ', heq, hend⟩ := hends (hρ.treeAt hx)
    obtain ⟨rfl, rfl⟩ := Prod.mk.inj (Option.some.inj (heq.symm.trans h))
    exact .inr ⟨hx, hend⟩
  · obtain ⟨rfl, rfl⟩ := Prod.mk.inj (Option.some.inj ((hunknown hx).symm.trans h))
    exact .inl ⟨hx, rfl, rfl⟩

lemma Forest.copySubtree_cases (hf : σ.Forest) (h : σ.copySubtree x = some (answer, τ)) :
    (¬ σ.Allocated x ∧ answer = .error (.unknownNode x) ∧ τ = σ) ∨
      (σ.Allocated x ∧ σ.CopyEnd x σ answer τ) :=
  hf.copy_cases copySubtree_ends copySubtree_of_not_allocated h

lemma Forest.importSubtree_cases (hρ : ρ.Forest) (h : σ.importSubtree ρ x = some (answer, τ)) :
    (¬ ρ.Allocated x ∧ answer = .error (.unknownNode x) ∧ τ = σ) ∨
      (ρ.Allocated x ∧ ρ.CopyEnd x σ answer τ) :=
  hρ.copy_cases (importSubtree_ends σ) (importSubtree_of_not_allocated σ) h

end Requests

lemma firstUnknown?_eq_none {ids : List NodeId} (h : ∀ id ∈ ids, σ.Allocated id) :
    σ.firstUnknown? ids = none := by
  rw [firstUnknown?, List.find?_eq_none]
  intro id hid
  simpa using h id hid

/-! ### Bulk copies, source by source -/

section Bulk

variable {owner : NodeId} {slot : Slot} {sources rest : List NodeId}

lemma appendCopies_cons (σ : Store) (owner : NodeId) (slot : Slot) (ρ : Store) (x : NodeId)
    (rest : List NodeId) :
    σ.appendCopies owner slot ρ (x :: rest) =
      match σ.importSubtree ρ x with
      | none => none
      | some (.error e, grown) => some (.error e, grown)
      | some (.ok copy, grown) =>
        match grown.pushChild owner slot copy with
        | (.error e, after) => some (.error e, after)
        | (.ok (), after) => after.appendCopies owner slot ρ rest := by
  rw [appendCopies]
  rcases σ.importSubtree ρ x with _ | ⟨_ | copy, grown⟩ <;> rfl

/-- Into a sequence known nodes are copied one after the other. -/
lemma copyFrom_sequence (hknown : ∀ x ∈ sources, ρ.Allocated x) (hlist : slot.isList = true) :
    σ.copyFrom owner slot ρ sources = σ.appendCopies owner slot ρ sources := by
  unfold copyFrom
  rw [firstUnknown?_eq_none hknown]
  exact if_pos hlist

variable (hlink : slot.isList = false)
include hlink

/-- Nothing to copy clears a slot for at most one child. -/
lemma copyFrom_link_nil (σ : Store) (owner : NodeId) (ρ : Store) :
    σ.copyFrom owner slot ρ [] = some (Reply.map (fun _ => ()) (σ.setChild owner slot none)) := by
  simp [copyFrom, firstUnknown?, hlink, Reply.map]

lemma copyFrom_link_singleton (hx : ρ.Allocated x) :
    σ.copyFrom owner slot ρ [x] =
      match σ.importSubtree ρ x with
      | none => none
      | some (.error e, grown) => some (.error e, grown)
      | some (.ok copy, grown) =>
        some (Reply.map (fun _ => ()) (grown.setChild owner slot (some copy))) := by
  have hknown : ∀ y ∈ [x], ρ.Allocated y := fun y hy => List.mem_singleton.mp hy ▸ hx
  simp only [copyFrom, firstUnknown?_eq_none hknown, hlink, Bool.false_eq_true, if_false]
  rcases σ.importSubtree ρ x with _ | ⟨_ | copy, grown⟩ <;> rfl

/-- Such a slot takes no two nodes. -/
lemma copyFrom_link_many (hknown : ∀ z ∈ x :: y :: rest, ρ.Allocated z) :
    σ.copyFrom owner slot ρ (x :: y :: rest) =
      some (.error (.tooManyForLink slot (rest.length + 2)), σ) := by
  unfold copyFrom
  rw [firstUnknown?_eq_none hknown, hlink]
  rfl

end Bulk

end Store

end DeclTree
