import DeclTree.Proofs.Store.Subtrees
import DeclTree.Store.Equality

/-!
# Subtrees without identifiers

What hangs at a node can be written down without identifiers, as a `PlainTree`: the kind, the
scalar fields and the span of the node and, slot by slot in order, the plain trees of its children.
This works for the nodes from which every way down ends and meets nodes only, `Store.Unfolds`.
Parent links play no part in it, and a node may be met on several ways.

The comparison of two subtrees goes down both together; level by level it comes to what comparing
their plain trees comes to, `Store.decides_equalTo`.  `Store.compares_plainTrees` draws the
conclusions for whole subtrees.
-/

namespace DeclTree

/-- A node with all that hangs at it, without identifiers. -/
inductive PlainTree
  /-- The payload without children, the span, and the trees in each slot in traversal order. -/
  | node (scalars : Payload) (span : Span) (below : List (List PlainTree))

namespace Payload

/-- Payloads agree in kind and scalar fields if they are the same without their children. -/
lemma sameScalars_iff {p q : Payload} :
    p.sameScalars q = true ↔ p.withoutChildren = q.withoutChildren := by
  cases p <;> cases q <;> simp [sameScalars, withoutChildren, and_assoc]

@[simp] lemma withoutChildren_mapChildren (f : NodeId → NodeId) (p : Payload) :
    (p.mapChildren f).withoutChildren = p.withoutChildren := by
  cases p <;> rfl

end Payload

/-! ## Answers that may be missing -/

section Answers

variable {α β γ : Type} {f : α → Option β} {g : γ → Option β} {xs : List α} {ys : List γ}

lemma mapM_eq_some_iff {bs : List β} : xs.mapM f = some bs ↔ xs.map f = bs.map some := by
  induction xs generalizing bs with
  | nil => cases bs <;> simp
  | cons x xs ih =>
    cases hx : f x with
    | none => cases bs <;> simp [List.mapM_cons, hx]
    | some b =>
      cases bs with
      | nil => simp [List.mapM_cons, hx, Option.bind_eq_some_iff]
      | cons c cs => simp [List.mapM_cons, hx, Option.bind_eq_some_iff, ih, and_comm]

/-- All answers are there if each is. -/
lemma exists_mapM_iff : (∃ bs, xs.mapM f = some bs) ↔ ∀ x ∈ xs, ∃ b, f x = some b := by
  induction xs with
  | nil => simp
  | cons x xs ih =>
    rw [List.forall_mem_cons, ← ih]
    cases hx : f x <;> simp [List.mapM_cons, hx, Option.bind_eq_some_iff]

lemma mapM_congr {f' : α → Option β} (h : ∀ x ∈ xs, f x = f' x) : xs.mapM f = xs.mapM f' := by
  have hmap : xs.map f = xs.map f' := List.map_congr_left h
  refine Option.ext fun bs => ?_
  rw [mapM_eq_some_iff, hmap, mapM_eq_some_iff]

/-- Two lists of answers that are there are the same if the answers are. -/
lemma mapM_eq_mapM_iff (hxs : ∃ bs, xs.mapM f = some bs) (hys : ∃ bs, ys.mapM g = some bs) :
    xs.mapM f = ys.mapM g ↔ xs.map f = ys.map g := by
  obtain ⟨bs, hbs⟩ := hxs
  obtain ⟨cs, hcs⟩ := hys
  rw [hbs, hcs, mapM_eq_some_iff.mp hbs, mapM_eq_some_iff.mp hcs, Option.some.injEq]
  exact (List.map_inj_right fun _ _ => Option.some.inj).symm

end Answers

/-- The answer is there, and it says whether the proposition holds. -/
def Decides (answer : Option Bool) (p : Prop) : Prop :=
  answer = some true ∧ p ∨ answer = some false ∧ ¬ p

namespace Decides

variable {answer answer' : Option Bool} {p q : Prop}

lemma congr (h : Decides answer p) (hpq : p ↔ q) : Decides answer q := by
  rwa [← hpq]

lemma eq_true_iff (h : Decides answer p) : answer = some true ↔ p := by
  rcases h with ⟨rfl, hp⟩ | ⟨rfl, hp⟩ <;> simp [hp]

/-- There is only one right answer. -/
lemma unique (h : Decides answer p) (h' : Decides answer' p) : answer = answer' := by
  rcases h with ⟨rfl, hp⟩ | ⟨rfl, hp⟩ <;> rcases h' with ⟨rfl, hp'⟩ | ⟨rfl, hp'⟩ <;> trivial

end Decides

/-- Asking pair by pair decides whether two lists of one length show the same. -/
lemma decides_allPairs {α : Type} {same : NodeId → NodeId → Option Bool} {g h : NodeId → α}
    {as bs : List NodeId} (hlength : as.length = bs.length)
    (hsame : ∀ a ∈ as, ∀ b ∈ bs, Decides (same a b) (g a = h b)) :
    Decides (allPairs same as bs) (as.map g = bs.map h) := by
  induction as generalizing bs with
  | nil =>
    obtain rfl := List.length_eq_zero_iff.mp hlength.symm
    exact .inl ⟨rfl, rfl⟩
  | cons a as ih =>
    obtain ⟨b, bs, rfl⟩ := List.exists_cons_of_length_eq_add_one hlength.symm
    have hrest := ih (Nat.succ.inj hlength) fun c hc d hd =>
      hsame c (List.mem_cons_of_mem a hc) d (List.mem_cons_of_mem b hd)
    rw [List.map_cons, List.map_cons, List.cons.injEq, allPairs]
    rcases hsame a List.mem_cons_self b List.mem_cons_self with ⟨heq, hab⟩ | ⟨heq, hab⟩
    · rw [heq]
      exact hrest.congr (by simp [hab])
    · rw [heq]
      exact .inr ⟨rfl, fun hboth => hab hboth.1⟩

/-- Asking slot by slot decides what is to hold of all. -/
lemma decides_allSlots {same : Slot → Option Bool} {p : Slot → Prop} {slots : List Slot}
    (hsame : ∀ slot ∈ slots, Decides (same slot) (p slot)) :
    Decides (allSlots same slots) (∀ slot ∈ slots, p slot) := by
  induction slots with
  | nil => exact .inl ⟨rfl, nofun⟩
  | cons slot slots ih =>
    obtain ⟨hfirst, hrest⟩ := List.forall_mem_cons.mp hsame
    rw [List.forall_mem_cons, allSlots]
    rcases hfirst with ⟨heq, hp⟩ | ⟨heq, hp⟩
    · rw [heq]
      exact (ih hrest).congr (by simp [hp])
    · rw [heq]
      exact .inr ⟨rfl, fun hboth => hp hboth.1⟩

namespace Store

variable {σ τ : Store} {x y : NodeId} {n m : Node} {depth : Nat}

/-! ## What unfolds -/

/-- Every way down from the node meets nodes only, and none comes back to where it was. -/
structure Unfolds (σ : Store) (x : NodeId) : Prop where
  allocated : ∀ {y}, σ.Reaches x y → σ.Allocated y
  acyclic : ∀ {y}, σ.Reaches x y → ¬ σ.ReachesBelow y y

lemma Trail.reachesBelow_of_mem {above : List NodeId} (h : σ.Trail x y above) {z : NodeId}
    (hz : z ∈ above) : σ.ReachesBelow z y := by
  induction h with
  | root => cases hz
  | child htrail hchild ih =>
    have hstep := mem_children.mpr ⟨_, hchild⟩
    rcases List.mem_cons.mp hz with rfl | hz
    · exact .single hstep
    · exact .tail (ih hz) hstep

/-- A way down meets no node twice where none comes back to where it was. -/
lemma Trail.nodup (hacyclic : ∀ {y}, σ.Reaches x y → ¬ σ.ReachesBelow y y) {above : List NodeId}
    (h : σ.Trail x y above) : (y :: above).Nodup := by
  induction h with
  | root => exact List.nodup_singleton x
  | child htrail hchild ih =>
    have htrail' := htrail.child hchild
    exact List.nodup_cons.mpr
      ⟨fun hmem => hacyclic htrail'.reaches (htrail'.reachesBelow_of_mem hmem), ih⟩

/-- **What unfolds does so within as many levels as the store has nodes.** -/
theorem Unfolds.unfoldsWithin (h : σ.Unfolds x) : σ.UnfoldsWithin σ.size x :=
  unfoldsWithin_of_trail h.allocated (Trail.nodup h.acyclic) .root (Nat.le_add_right _ _)

lemma UnfoldsWithin.allocated (h : σ.UnfoldsWithin depth x) : σ.Allocated x := by
  cases depth with
  | zero => exact h.elim
  | succ depth => exact h.1

lemma UnfoldsWithin.unfolds (h : σ.UnfoldsWithin depth x) : σ.Unfolds x := by
  have hreached : ∀ {y}, σ.Reaches x y → ∃ less, σ.UnfoldsWithin less y := by
    intro y hy
    rcases Relation.reflTransGen_iff_eq_or_transGen.mp hy with rfl | hbelow
    · exact ⟨depth, h⟩
    · obtain ⟨less, -, hless⟩ := h.below hbelow
      exact ⟨less, hless⟩
  constructor
  · intro y hy
    obtain ⟨less, hless⟩ := hreached hy
    exact hless.allocated
  · intro y hy
    obtain ⟨less, hless⟩ := hreached hy
    exact hless.not_reachesBelow_self

lemma TreeAt.unfolds (ht : σ.TreeAt x) : σ.Unfolds x := ht.unfoldsWithin.unfolds

lemma Forest.unfolds (hf : σ.Forest) (hx : σ.Allocated x) : σ.Unfolds x := (hf.treeAt hx).unfolds

/-! ## Plain trees -/

/-- The plain tree of a node that unfolds within so many levels. -/
def treeWithin (σ : Store) : (depth : Nat) → (id : NodeId) → Option PlainTree
  | 0, _ => none
  | depth + 1, id => do
    let n ← σ.node? id
    let below ← n.kind.slots.mapM fun slot =>
      (n.payload.childrenIn slot).mapM (σ.treeWithin depth)
    return .node n.payload.withoutChildren n.span below

/-- The plain tree of a node that unfolds. -/
def tree? (σ : Store) (id : NodeId) : Option PlainTree := σ.treeWithin σ.size id

lemma treeWithin_succ (hn : σ.node? x = some n) :
    σ.treeWithin (depth + 1) x =
      (n.kind.slots.mapM fun slot => (n.payload.childrenIn slot).mapM (σ.treeWithin depth)).map
        (PlainTree.node n.payload.withoutChildren n.span) := by
  simp only [treeWithin, hn, Option.map_eq_bind]
  rfl

lemma mem_children_of_node? (hn : σ.node? x = some n) {c : NodeId} :
    c ∈ σ.children x ↔ ∃ slot ∈ n.kind.slots, c ∈ n.payload.childrenIn slot := by
  rw [children_of_node? hn, Payload.children_eq_flatMap, List.mem_flatMap]
  rfl

/-- The children of what unfolds do so within one level less. -/
lemma UnfoldsWithin.child (h : σ.UnfoldsWithin (depth + 1) x) (hn : σ.node? x = some n) :
    ∀ slot ∈ n.kind.slots, ∀ c ∈ n.payload.childrenIn slot, σ.UnfoldsWithin depth c :=
  fun slot hslot c hc => h.2 c ((mem_children_of_node? hn).mpr ⟨slot, hslot, hc⟩)

lemma exists_treeWithin_iff : (∃ t, σ.treeWithin depth x = some t) ↔ σ.UnfoldsWithin depth x := by
  induction depth generalizing x with
  | zero => simp [treeWithin, UnfoldsWithin]
  | succ depth ih =>
    rw [UnfoldsWithin]
    cases hn : σ.node? x with
    | none => simp [treeWithin, hn, node?_eq_none_iff.mp hn]
    | some n =>
      have hbelow : (∃ t, σ.treeWithin (depth + 1) x = some t) ↔
          ∃ below, (n.kind.slots.mapM fun slot =>
            (n.payload.childrenIn slot).mapM (σ.treeWithin depth)) = some below := by
        rw [treeWithin_succ hn]
        simp
      rw [hbelow, exists_mapM_iff]
      simp only [exists_mapM_iff, ih, allocated_of_node? hn, true_and, mem_children_of_node? hn]
      constructor
      · rintro h c ⟨slot, hslot, hc⟩
        exact h slot hslot c hc
      · exact fun h slot hslot c hc => h c ⟨slot, hslot, hc⟩

/-- Looking deeper shows the same tree. -/
lemma UnfoldsWithin.treeWithin_eq {deeper : Nat} (h : σ.UnfoldsWithin depth x)
    (hle : depth ≤ deeper) : σ.treeWithin deeper x = σ.treeWithin depth x := by
  induction depth generalizing x deeper with
  | zero => exact h.elim
  | succ depth ih =>
    obtain ⟨deeper, rfl⟩ : ∃ k, deeper = k + 1 := ⟨deeper - 1, by omega⟩
    obtain ⟨n, hn⟩ := exists_node_iff.mpr h.1
    rw [treeWithin_succ hn, treeWithin_succ hn]
    congr 1
    refine mapM_congr fun slot hslot => mapM_congr fun c hc => ?_
    exact ih (h.child hn slot hslot c hc) (by omega)

/-- Each slot of what unfolds has its plain trees. -/
lemma UnfoldsWithin.exists_trees (h : σ.UnfoldsWithin (depth + 1) x) (hn : σ.node? x = some n) :
    ∀ slot ∈ n.kind.slots,
      ∃ ts, (n.payload.childrenIn slot).mapM (σ.treeWithin depth) = some ts :=
  fun slot hslot => exists_mapM_iff.mpr fun c hc =>
    exists_treeWithin_iff.mpr (h.child hn slot hslot c hc)

/-- **The nodes that unfold are those with a plain tree.** -/
theorem exists_tree?_iff : (∃ t, σ.tree? x = some t) ↔ σ.Unfolds x :=
  exists_treeWithin_iff.trans ⟨UnfoldsWithin.unfolds, Unfolds.unfoldsWithin⟩

lemma UnfoldsWithin.treeWithin_eq_tree? (h : σ.UnfoldsWithin depth x) :
    σ.treeWithin depth x = σ.tree? x := by
  rcases Nat.le_total depth σ.size with hle | hle
  · exact (h.treeWithin_eq hle).symm
  · exact h.unfolds.unfoldsWithin.treeWithin_eq hle

/-- **A plain tree: the scalar fields and the span of the node and, slot by slot, the plain trees of
its children.** -/
theorem Unfolds.tree?_eq (h : σ.Unfolds x) (hn : σ.node? x = some n) :
    σ.tree? x = (n.kind.slots.mapM fun slot => (n.payload.childrenIn slot).mapM σ.tree?).map
      (PlainTree.node n.payload.withoutChildren n.span) := by
  have hdepth := h.unfoldsWithin.mono (Nat.le_succ σ.size)
  rw [← hdepth.treeWithin_eq_tree?]
  exact treeWithin_succ hn

/-! ## Comparing -/

/-- Two plain trees are the same if the nodes agree and, slot by slot, the trees below them do. -/
lemma treeWithin_eq_iff (hx : σ.UnfoldsWithin (depth + 1) x) (hy : τ.UnfoldsWithin (depth + 1) y)
    (hn : σ.node? x = some n) (hm : τ.node? y = some m) :
    σ.treeWithin (depth + 1) x = τ.treeWithin (depth + 1) y ↔
      n.payload.sameScalars m.payload = true ∧ n.span = m.span ∧
      ∀ slot ∈ n.kind.slots, (n.payload.childrenIn slot).map (σ.treeWithin depth) =
        (m.payload.childrenIn slot).map (τ.treeWithin depth) := by
  have hslots := hx.exists_trees hn
  have hslots' := hy.exists_trees hm
  obtain ⟨below, hbelow⟩ := exists_mapM_iff.mpr hslots
  obtain ⟨below', hbelow'⟩ := exists_mapM_iff.mpr hslots'
  rw [treeWithin_succ hn, treeWithin_succ hm, hbelow, hbelow', Option.map_some, Option.map_some,
    Option.some.injEq, PlainTree.node.injEq, ← Payload.sameScalars_iff]
  refine and_congr_right fun hsame => and_congr_right fun _ => ?_
  -- nodes of one kind have the same slots
  have hkind : m.kind = n.kind := Payload.kind_eq_of_sameScalars hsame
  rw [hkind] at hslots' hbelow'
  rw [← Option.some.injEq, ← hbelow, ← hbelow', mapM_eq_mapM_iff ⟨_, hbelow⟩ ⟨_, hbelow'⟩,
    List.map_inj_left]
  exact forall₂_congr fun slot hslot => mapM_eq_mapM_iff (hslots slot hslot) (hslots' slot hslot)

/-- **Going down two subtrees together decides whether their plain trees are the same.** -/
theorem decides_equalTo (hx : σ.UnfoldsWithin depth x) (hy : τ.UnfoldsWithin depth y) :
    Decides (σ.equalTo τ depth x y) (σ.treeWithin depth x = τ.treeWithin depth y) := by
  induction depth generalizing x y with
  | zero => exact hx.elim
  | succ depth ih =>
    obtain ⟨n, hn⟩ := exists_node_iff.mpr hx.1
    obtain ⟨m, hm⟩ := exists_node_iff.mpr hy.1
    have hnodes := treeWithin_eq_iff hx hy hn hm
    simp only [equalTo, hn, hm]
    split_ifs with hdiffer
    · refine .inr ⟨rfl, fun heq => ?_⟩
      obtain ⟨hscalars, hspan, -⟩ := hnodes.mp heq
      rcases hdiffer with hne | hne
      · exact hne hspan
      · simp [hscalars] at hne
    · have hspan : n.span = m.span := by_contra fun hne => hdiffer (.inl hne)
      have hscalars : n.payload.sameScalars m.payload = true := by
        simpa using fun hne => hdiffer (.inr hne)
      suffices hslots : Decides _ (∀ slot ∈ n.kind.slots,
          (n.payload.childrenIn slot).map (σ.treeWithin depth) =
            (m.payload.childrenIn slot).map (τ.treeWithin depth)) from
        hslots.congr (by simp [hnodes, hscalars, hspan])
      refine decides_allSlots fun slot hslot => ?_
      split_ifs with hlength
      · refine decides_allPairs hlength fun c hc d hd => ?_
        have hslot' : slot ∈ m.kind.slots := by
          rwa [show m.kind = n.kind from Payload.kind_eq_of_sameScalars hscalars]
        exact ih (hx.child hn slot hslot c hc) (hy.child hm slot hslot' d hd)
      · exact .inr ⟨rfl, fun heq => hlength (by simpa using congrArg List.length heq)⟩

/-- The bound of the comparison is enough for what unfolds. -/
lemma Unfolds.decides_structurallyEqual (hx : σ.Unfolds x) (hy : τ.Unfolds y) :
    Decides (σ.structurallyEqual x τ y) (σ.tree? x = τ.tree? y) := by
  have hσ : 0 < σ.size := Nat.zero_lt_of_lt (hx.allocated .refl)
  have hτ : 0 < τ.size := Nat.zero_lt_of_lt (hy.allocated .refl)
  have hx' := hx.unfoldsWithin.mono (Nat.le_succ_of_le (Nat.le_mul_of_pos_right σ.size hτ))
  have hy' := hy.unfoldsWithin.mono (Nat.le_succ_of_le (Nat.le_mul_of_pos_left τ.size hσ))
  rw [← hx'.treeWithin_eq_tree?, ← hy'.treeWithin_eq_tree?]
  exact decides_equalTo hx' hy'

/-- What is no node is equal to nothing. -/
lemma structurallyEqual_of_not_allocated (h : ¬ σ.Allocated x ∨ ¬ τ.Allocated y) :
    σ.structurallyEqual x τ y = some false := by
  rw [structurallyEqual, equalTo]
  rcases h with hx | hy
  · rw [node?_eq_none_iff.mpr hx]
  · rw [node?_eq_none_iff.mpr hy]
    cases σ.node? x <;> rfl

/-! ### Identifiers and parent links play no role -/

/-- What is reached from `x` in `σ` stands in `τ` with `f y` for each node `y`, as far as payloads
and spans go. -/
structure Relabels (σ : Store) (x : NodeId) (τ : Store) (f : NodeId → NodeId) : Prop where
  payload_eq : ∀ {y}, σ.Reaches x y →
    τ.payload? (f y) = (σ.payload? y).map (Payload.mapChildren f)
  span_eq : ∀ {y}, σ.Reaches x y → τ.span? (f y) = σ.span? y

namespace Relabels

variable {f : NodeId → NodeId} (h : σ.Relabels x τ f)
include h

lemma node?_eq (hy : σ.Reaches x y) (hn : σ.node? y = some n) :
    ∃ m, τ.node? (f y) = some m ∧ m.payload = n.payload.mapChildren f ∧ m.span = n.span := by
  have hpayload := h.payload_eq hy
  have hspan := h.span_eq hy
  rw [payload?, payload?, hn] at hpayload
  obtain ⟨m, hm, hmn⟩ := Option.map_eq_some_iff.mp hpayload
  rw [span?, span?, hn, hm] at hspan
  exact ⟨m, hm, hmn, Option.some.inj hspan⟩

lemma treeWithin_eq (hy : σ.Reaches x y) : τ.treeWithin depth (f y) = σ.treeWithin depth y := by
  induction depth generalizing y with
  | zero => rfl
  | succ depth ih =>
    cases hn : σ.node? y with
    | none =>
      have hpayload := h.payload_eq hy
      rw [payload?, payload?, hn] at hpayload
      rw [treeWithin, treeWithin, hn, Option.map_eq_none_iff.mp hpayload]
      rfl
    | some n =>
      obtain ⟨m, hm, hpayload, hspan⟩ := h.node?_eq hy hn
      have hkind : m.kind = n.kind := by
        rw [Node.kind, hpayload, Payload.kind_mapChildren, Node.kind]
      rw [treeWithin_succ hm, treeWithin_succ hn, hkind, hpayload, hspan,
        Payload.withoutChildren_mapChildren]
      congr 1
      refine mapM_congr fun slot hslot => ?_
      rw [Payload.childrenIn_mapChildren, List.mapM_map]
      refine mapM_congr fun c hc => ih ?_
      exact Relation.ReflTransGen.tail hy ((mem_children_of_node? hn).mpr ⟨slot, hslot, hc⟩)

lemma unfolds (hx : σ.Unfolds x) : τ.Unfolds (f x) ∧ τ.tree? (f x) = σ.tree? x := by
  obtain ⟨t, ht⟩ := exists_treeWithin_iff.mpr hx.unfoldsWithin
  have heq : τ.treeWithin σ.size (f x) = σ.treeWithin σ.size x := h.treeWithin_eq .refl
  have hdepth := exists_treeWithin_iff.mp ⟨t, heq.trans ht⟩
  exact ⟨hdepth.unfolds, hdepth.treeWithin_eq_tree?.symm.trans heq⟩

end Relabels

/-- Everything that is reached from the node in `σ` has the same payload and span in `τ`. -/
def SameBelow (σ τ : Store) (x : NodeId) : Prop :=
  ∀ y, σ.Reaches x y → τ.payload? y = σ.payload? y ∧ τ.span? y = σ.span? y

namespace SameBelow

variable {ρ : Store} (h : σ.SameBelow τ x)
include h

lemma relabels : σ.Relabels x τ id where
  payload_eq := by
    intro y hy
    rw [id, (h y hy).1]
    cases σ.payload? y with
    | none => rfl
    | some p => exact congrArg some (Payload.mapChildren_id p).symm
  span_eq := fun hy => (h _ hy).2

/-- Nothing else is reached. -/
lemma reaches (hy : τ.Reaches x y) : σ.Reaches x y := by
  induction hy with
  | refl => exact .refl
  | tail _ hchild ih =>
    rw [children, (h _ ih).1] at hchild
    exact Relation.ReflTransGen.tail ih hchild

/-- Comparing with the node finds what it found. -/
lemma structurallyEqual_eq (hy : ρ.Unfolds y) (hx : σ.Unfolds x) :
    ρ.structurallyEqual y τ x = ρ.structurallyEqual y σ x := by
  obtain ⟨hx', htree⟩ := h.relabels.unfolds hx
  have hafter := hy.decides_structurallyEqual hx'
  rw [htree] at hafter
  exact hafter.unique (hy.decides_structurallyEqual hx)

end SameBelow

/-! ### Whole subtrees -/

/-- A node that unfolds, in some store. -/
structure Subtree where
  /-- The store. -/
  store : Store
  /-- The node. -/
  root : NodeId
  /-- It unfolds. -/
  unfolds : store.Unfolds root

/-- The comparison finds no difference. -/
def Subtree.Same (s t : Subtree) : Prop :=
  s.store.structurallyEqual s.root t.store t.root = some true

lemma Subtree.same_iff {s t : Subtree} : s.Same t ↔ s.store.tree? s.root = t.store.tree? t.root :=
  (s.unfolds.decides_structurallyEqual t.unfolds).eq_true_iff

lemma Subtree.equivalence_same : Equivalence Subtree.Same where
  refl _ := same_iff.mpr rfl
  symm h := same_iff.mpr (same_iff.mp h).symm
  trans h h' := same_iff.mpr ((same_iff.mp h).trans (same_iff.mp h'))

/-- **Structural equality is equality of plain trees.**  It is defined for all nodes that unfold, in
one store or in two; among these it is an equivalence, and no change of identifiers or parent links
makes a difference to it.  What is no node is not equal to anything. -/
theorem compares_plainTrees :
    (∀ {σ : Store} {x : NodeId}, (∃ t, σ.tree? x = some t) ↔ σ.Unfolds x) ∧
    (∀ {σ : Store} {x : NodeId} {n : Node}, σ.Unfolds x → σ.node? x = some n →
      σ.tree? x = (n.kind.slots.mapM fun slot => (n.payload.childrenIn slot).mapM σ.tree?).map
        (PlainTree.node n.payload.withoutChildren n.span)) ∧
    (∀ {σ τ : Store} {x y : NodeId}, σ.Unfolds x → τ.Unfolds y →
      Decides (σ.structurallyEqual x τ y) (σ.tree? x = τ.tree? y)) ∧
    Equivalence Subtree.Same ∧
    (∀ {σ σ' τ : Store} {x y : NodeId} {f : NodeId → NodeId},
      σ.Unfolds x → τ.Unfolds y → σ.Relabels x σ' f →
      σ'.structurallyEqual (f x) τ y = σ.structurallyEqual x τ y ∧
      τ.structurallyEqual y σ' (f x) = τ.structurallyEqual y σ x) ∧
    (∀ {σ τ : Store} {x y : NodeId}, ¬ σ.Allocated x ∨ ¬ τ.Allocated y →
      σ.structurallyEqual x τ y = some false) := by
  refine ⟨exists_tree?_iff, Unfolds.tree?_eq, Unfolds.decides_structurallyEqual,
    Subtree.equivalence_same, ?_, structurallyEqual_of_not_allocated⟩
  intro σ σ' τ x y f hx hy h
  obtain ⟨hx', htree⟩ := h.unfolds hx
  have hleft := hx'.decides_structurallyEqual hy
  have hright := hy.decides_structurallyEqual hx'
  rw [htree] at hleft hright
  exact ⟨hleft.unique (hx.decides_structurallyEqual hy),
    hright.unique (hy.decides_structurallyEqual hx)⟩

/-- One field in two places of a type, without any parent link, compares as two fields do, each
with a node and a parent link of its own; so it does in a store that numbers its nodes otherwise. -/
theorem compares_plainTrees_of_shared_field : ∃ (σ σ' τ : Store) (f : NodeId → NodeId),
    σ.childrenIn ⟨1⟩ .members = [⟨0⟩, ⟨0⟩] ∧ τ.childrenIn ⟨2⟩ .members = [⟨0⟩, ⟨1⟩] ∧
    σ.Unfolds ⟨1⟩ ∧ τ.Unfolds ⟨2⟩ ∧ σ.structurallyEqual ⟨1⟩ τ ⟨2⟩ = some true ∧
    f ⟨1⟩ = ⟨0⟩ ∧ σ'.structurallyEqual (f ⟨1⟩) τ ⟨2⟩ = some true ∧
    σ.structurallyEqual ⟨2⟩ τ ⟨2⟩ = some false := by
  let type (members : List NodeId) : Payload := .type ⟨.classForm, "A", ⟨"A"⟩, members⟩
  let field : Payload := .field ⟨"a", "int"⟩
  let σ : Store := ⟨#[⟨field, .dummy, none⟩, ⟨type [⟨0⟩, ⟨0⟩], .dummy, none⟩], by decide⟩
  let σ' : Store := ⟨#[⟨type [⟨1⟩, ⟨1⟩], .dummy, none⟩, ⟨field, .dummy, none⟩], by decide⟩
  let τ : Store := ⟨#[⟨field, .dummy, some ⟨⟨2⟩, .members⟩⟩,
    ⟨field, .dummy, some ⟨⟨2⟩, .members⟩⟩, ⟨type [⟨0⟩, ⟨1⟩], .dummy, none⟩], by decide⟩
  let leaf : PlainTree := .node field .dummy []
  let tree : PlainTree := .node (type []) .dummy [[leaf, leaf]]
  have hleft : σ.tree? ⟨1⟩ = some tree := rfl
  have hright : τ.tree? ⟨2⟩ = some tree := rfl
  obtain ⟨hunfolds, -, hdecides, -, hrelabels, hunknown⟩ := compares_plainTrees
  have hσ : σ.Unfolds ⟨1⟩ := hunfolds.mp ⟨tree, hleft⟩
  have hτ : τ.Unfolds ⟨2⟩ := hunfolds.mp ⟨tree, hright⟩
  have hequal : σ.structurallyEqual ⟨1⟩ τ ⟨2⟩ = some true :=
    (hdecides hσ hτ).eq_true_iff.mpr (hleft.trans hright.symm)
  let f (id : NodeId) : NodeId := ⟨1 - id.index⟩
  have hf : σ.Relabels ⟨1⟩ σ' f := by
    have hids : ∀ {y}, σ.Reaches ⟨1⟩ y → y = ⟨0⟩ ∨ y = ⟨1⟩ := by
      rintro ⟨y⟩ hy
      have hlt : y < 2 := hσ.allocated hy
      simp only [NodeId.mk.injEq]
      omega
    constructor <;> intro y hy <;> obtain rfl | rfl := hids hy <;> rfl
  exact ⟨σ, σ', τ, f, rfl, rfl, hσ, hτ, hequal, rfl, (hrelabels hσ hτ hf).1.trans hequal,
    hunknown (.inl (by decide))⟩

end Store

end DeclTree
