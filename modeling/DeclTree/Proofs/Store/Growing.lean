import DeclTree.Proofs.Store.Attachment
import DeclTree.Proofs.Store.Copying
import DeclTree.Store.Update

/-!
# Edits that create or update nodes

Creating a node and updating its scalar fields leave both records of the structure alone, so a
forest stays one by `Forest.of_same_structure`.  Copies come with a structure of their own, which
is that of the originals under other identifiers: `Forest.of_copies`.  This holds of copies for
which the identifiers did not last, too.

Copying into a slot alternates copies and attachments.  It may be refused halfway, and
`Forest.copyFrom` covers the stores that are left then as well.
-/

namespace DeclTree.Store

variable {ρ σ τ : Store} {roots order : List NodeId} {x y : NodeId}

/-! ## Slots and parent links as before -/

/-- A store with the slots and parent links of a forest is a forest. -/
lemma Forest.of_same_structure (hf : σ.Forest) (hextends : σ.Extends τ)
    (hchildren : ∀ o s, τ.childrenIn o s = σ.childrenIn o s)
    (hparent : ∀ id, τ.parent? id = σ.parent? id) : τ.Forest where
  admitted := by
    intro o s c hc
    rw [hchildren] at hc
    obtain ⟨n, hn, hadmits⟩ := hf.admitted hc
    obtain ⟨m, hm, hkind, -⟩ := hextends c n hn
    exact ⟨m, hm, by rw [hkind]; exact hadmits⟩
  linked := by
    intro o s c hc
    rw [hchildren] at hc
    rw [hparent, hf.linked hc]
  nodup := by
    intro o s
    rw [hchildren]
    exact hf.nodup o s
  held := by
    intro c link hlink
    rw [hparent] at hlink
    rw [hchildren]
    exact hf.held hlink
  acyclic := by
    intro id hunder
    have howned : ∀ c o, τ.OwnedBy c o → σ.OwnedBy c o := by
      rintro c o ⟨s, hs⟩
      exact ⟨s, by rw [← hparent, hs]⟩
    exact hf.acyclic id (Relation.TransGen.mono howned _ _ hunder)

section Alloc

variable (σ : Store) (p : Payload) (span : Span)

/-- A new node is put behind the others, or refused. -/
lemma alloc_cases : (∃ room, σ.alloc p span =
      (.ok σ.nextId, σ.push ⟨p.withoutChildren, span, none⟩ room)) ∨
    σ.size = NodeId.bound ∧ σ.alloc p span = (.error .arenaFull, σ) := by
  by_cases room : σ.HasRoom 1
  · exact .inl ⟨room, alloc_of_room p span room⟩
  · exact .inr ⟨size_of_full room, alloc_of_full p span room⟩

lemma retains_alloc : σ.Retains (σ.alloc p span).2 := by
  rcases alloc_cases σ p span with ⟨room, heq⟩ | ⟨-, heq⟩
  · rw [heq]
    exact retains_push σ _ room
  · rw [heq]
    exact Retains.refl σ

lemma childrenIn_alloc (o : NodeId) (s : Slot) :
    (σ.alloc p span).2.childrenIn o s = σ.childrenIn o s := by
  rcases alloc_cases σ p span with ⟨room, heq⟩ | ⟨-, heq⟩
  · rw [heq, childrenIn_push]
    by_cases ho : o = σ.nextId
    · rw [if_pos ho, ho, Payload.childrenIn_withoutChildren, childrenIn, payload?, node?_nextId]
      rfl
    · rw [if_neg ho]
  · rw [heq]

lemma parent?_alloc (id : NodeId) : (σ.alloc p span).2.parent? id = σ.parent? id := by
  rcases alloc_cases σ p span with ⟨room, heq⟩ | ⟨-, heq⟩
  · rw [heq, parent?, node?_push, parent?]
    by_cases hid : id = σ.nextId
    · simp [hid, node?_nextId]
    · simp [hid]
  · rw [heq]

/-- **A new node stands alone.** -/
theorem Forest.alloc {σ : Store} (hf : σ.Forest) (p : Payload) (span : Span) :
    (σ.alloc p span).2.Forest :=
  hf.of_same_structure (retains_alloc σ p span).extends (childrenIn_alloc σ p span)
    (parent?_alloc σ p span)

end Alloc

section Update

variable {α : Type} (f : Payload → α × Payload)

/-- What an update of a node answers and leaves behind. -/
lemma update_of_node? {id : NodeId} {n : Node} (hn : σ.node? id = some n) :
    σ.update id f =
      if (f n.payload).2.kind = n.kind then
        (.ok (f n.payload).1, σ.setPayload id ((f n.payload).2.withSlotsOf n.payload))
      else (.error (.kindChanged id n.kind (f n.payload).2.kind), σ) := by
  simp only [update, node, hn, bind, Except.bind, pure, Except.pure]
  show _ = if (f n.payload).2.kind = n.payload.kind then _ else _
  by_cases hkind : n.payload.kind = (f n.payload).2.kind
  · rw [if_neg (not_not.mpr hkind), if_pos hkind.symm]
    rfl
  · rw [if_pos hkind, if_neg (Ne.symm hkind)]
    rfl

lemma update_of_unknown {id : NodeId} (hn : σ.node? id = none) :
    σ.update id f = (.error (.unknownNode id), σ) := by
  simp only [update, node, hn]
  rfl

/-- An update is refused, or it writes scalar fields of the same kind beside the old slots. -/
lemma update_cases (σ : Store) (id : NodeId) :
    (∃ e, σ.update id f = (.error e, σ)) ∨
    ∃ n, σ.node? id = some n ∧ n.payload.kind = (f n.payload).2.kind ∧
      σ.update id f =
        (.ok (f n.payload).1, σ.setPayload id ((f n.payload).2.withSlotsOf n.payload)) := by
  cases hn : σ.node? id with
  | none => exact Or.inl ⟨_, update_of_unknown f hn⟩
  | some n =>
    rw [update_of_node? f hn]
    split_ifs with hkind
    · exact Or.inr ⟨n, rfl, hkind.symm, rfl⟩
    · exact Or.inl ⟨_, rfl⟩

variable {n : Node} {p : Payload}

lemma extends_setPayload (hn : σ.node? x = some n) (hkind : n.payload.kind = p.kind) :
    σ.Extends (σ.setPayload x p) := by
  intro id m hm
  rw [setPayload, node?_modify]
  by_cases hid : x = id
  · subst hid
    rw [hn] at hm
    obtain rfl := Option.some.inj hm
    exact ⟨{ n with payload := p }, by simp [hn], hkind.symm, rfl⟩
  · exact ⟨m, by simp [hid, hm], rfl, rfl⟩

lemma childrenIn_setPayload (hn : σ.node? x = some n)
    (hsame : ∀ s, p.childrenIn s = n.payload.childrenIn s) (o : NodeId) (s : Slot) :
    (σ.setPayload x p).childrenIn o s = σ.childrenIn o s := by
  refine childrenIn_modify (fun m hm t => ?_) o s
  obtain rfl := Option.some.inj (hn.symm.trans hm)
  exact hsame t

lemma extends_update (σ : Store) (id : NodeId) : σ.Extends (σ.update id f).2 := by
  rcases update_cases f σ id with ⟨e, heq⟩ | ⟨n, hn, hkind, heq⟩
  · rw [heq]
    exact Extends.refl σ
  · rw [heq]
    exact extends_setPayload hn (by rw [Payload.kind_withSlotsOf, hkind])

lemma childrenIn_update (σ : Store) (id o : NodeId) (s : Slot) :
    (σ.update id f).2.childrenIn o s = σ.childrenIn o s := by
  rcases update_cases f σ id with ⟨e, heq⟩ | ⟨n, hn, hkind, heq⟩
  · rw [heq]
  · rw [heq]
    exact childrenIn_setPayload hn (Payload.childrenIn_withSlotsOf hkind) o s

lemma parent?_update (σ : Store) (id other : NodeId) :
    (σ.update id f).2.parent? other = σ.parent? other := by
  rcases update_cases f σ id with ⟨e, heq⟩ | ⟨n, hn, hkind, heq⟩
  · rw [heq]
  · rw [heq]
    refine parent?_modify (fun n => ?_) id other
    rfl

/-- **An update keeps the structure, whatever slots the new payload shows.** -/
theorem Forest.update (hf : σ.Forest) (id : NodeId) : (σ.update id f).2.Forest :=
  hf.of_same_structure (extends_update f σ id) (childrenIn_update f σ id) (parent?_update f σ id)

end Update

/-! ## Copies -/

namespace Copies

/-- A node after copying is one of before or a copy. -/
lemma node_cases (h : ρ.Copies roots order σ τ) (hnodup : order.Nodup) {id : NodeId} {m : Node}
    (hm : τ.node? id = some m) :
    σ.node? id = some m ∨ ∃ y ∈ order, id = copyId σ.size order y := by
  by_cases hold : id.index < σ.size
  · obtain ⟨n, hn⟩ := exists_node_iff.mpr (show σ.Allocated id from hold)
    have hkept := h.kept id n hn
    rw [hm] at hkept
    exact Or.inl (hkept ▸ hn)
  · right
    have hlt : id.index < τ.size := allocated_of_node? hm
    rw [h.size_eq] at hlt
    obtain ⟨y, hy, heq⟩ := exists_copyId_eq hnodup (Nat.le_of_not_lt hold) hlt
    exact ⟨y, hy, heq.symm⟩

/-! ### The structure of copies -/

section Structure

variable (h : ρ.Copies roots order σ τ) (hr : ρ.Region roots order)
include h hr

/-- A child after copying is one of before or the copy of a child. -/
lemma mem_childrenIn_cases {o c : NodeId} {s : Slot} (hc : c ∈ τ.childrenIn o s) :
    (σ.Allocated o ∧ c ∈ σ.childrenIn o s) ∨
    ∃ y ∈ order, ∃ d ∈ ρ.childrenIn y s,
      o = copyId σ.size order y ∧ c = copyId σ.size order d := by
  obtain ⟨m, hm, -⟩ := exists_node_of_mem_childrenIn hc
  rcases h.node_cases hr.nodup hm with hold | ⟨y, hy, rfl⟩
  · have halloc := allocated_of_node? hold
    rw [h.childrenIn_kept halloc] at hc
    exact Or.inl ⟨halloc, hc⟩
  · rw [h.childrenIn_copy hy] at hc
    obtain ⟨d, hd, rfl⟩ := List.mem_map.mp hc
    exact Or.inr ⟨y, hy, d, hd, rfl, rfl⟩

/-- A parent link after copying is one of before or the image of one. -/
lemma parent?_cases {c : NodeId} {link : ParentLink} (hlink : τ.parent? c = some link) :
    σ.parent? c = some link ∨
    ∃ y ∈ order, y ∉ roots ∧ ∃ link', ρ.parent? y = some link' ∧ link'.owner ∈ order ∧
      y ∈ ρ.childrenIn link'.owner link'.slot ∧ c = copyId σ.size order y ∧
      link = link'.mapOwner (copyId σ.size order) := by
  obtain ⟨m, hm, -⟩ := exists_node_of_parent? hlink
  rcases h.node_cases hr.nodup hm with hold | ⟨y, hy, rfl⟩
  · rw [h.parent?_kept (allocated_of_node? hold)] at hlink
    exact Or.inl hlink
  · rw [h.parent?_copy hy] at hlink
    split_ifs at hlink with hroot
    obtain ⟨link', hlink', howner, hheld⟩ := hr.owner_mem hy hroot
    rw [hlink'] at hlink
    exact Or.inr ⟨y, hy, hroot, link', hlink', howner, hheld, rfl,
      (Option.some.inj hlink).symm⟩

/-- A chain of owners after copying is one of before or the image of one. -/
lemma under_cases (hf : σ.Forest) {c o : NodeId} (hunder : τ.Under c o) :
    σ.Under c o ∨ ∃ y ∈ order, ∃ z ∈ order, ρ.Under y z ∧
      c = copyId σ.size order y ∧ o = copyId σ.size order z := by
  have hstep : ∀ {c o}, τ.OwnedBy c o → σ.OwnedBy c o ∨ ∃ y ∈ order, ∃ z ∈ order,
      ρ.OwnedBy y z ∧ c = copyId σ.size order y ∧ o = copyId σ.size order z := by
    rintro c o ⟨s, hs⟩
    rcases h.parent?_cases hr hs with hold | ⟨y, hy, -, link', hlink', howner, -, rfl, heq⟩
    · exact Or.inl ⟨s, hold⟩
    · exact Or.inr ⟨y, hy, link'.owner, howner, ⟨link'.slot, hlink'⟩, rfl,
        congrArg ParentLink.owner heq⟩
  -- nodes of before are no copies, so a chain does not change sides
  have hapart : ∀ {y z}, σ.Allocated z → z ≠ copyId σ.size order y := by
    rintro y z halloc rfl
    exact absurd halloc (Nat.not_lt.mpr le_copyId_index)
  induction hunder with
  | single hfirst =>
    rcases hstep hfirst with hold | ⟨y, hy, z, hz, hyz, rfl, rfl⟩
    · exact Or.inl (.single hold)
    · exact Or.inr ⟨y, hy, z, hz, .single hyz, rfl, rfl⟩
  | tail _ hlast ih =>
    rcases ih with hold | ⟨y, hy, z, hz, hyz, rfl, rfl⟩ <;>
      rcases hstep hlast with hold' | ⟨y', hy', z', hz', hyz', heq, rfl⟩
    · exact Or.inl (.tail hold hold')
    · exact absurd heq (hapart (hf.allocated_of_under hold))
    · obtain ⟨s, hs⟩ := hold'
      obtain ⟨n, hn, -⟩ := exists_node_of_parent? hs
      exact absurd rfl (hapart (y := z) (allocated_of_node? hn))
    · obtain rfl := copyId_inj hz heq
      exact Or.inr ⟨y, hy, z', hz', .tail hyz hyz', rfl, rfl⟩

end Structure

end Copies

/-- **Copies behind a forest make a forest.** -/
theorem Forest.of_copies (hf : σ.Forest) (hρ : ρ.Forest) (hr : ρ.Region roots order)
    (h : ρ.Copies roots order σ τ) : τ.Forest where
  admitted := by
    intro o s c hc
    rcases h.mem_childrenIn_cases hr hc with ⟨-, hold⟩ | ⟨y, hy, d, hd, rfl, rfl⟩
    · obtain ⟨n, hn, hadmits⟩ := hf.admitted hold
      exact ⟨n, h.kept c n hn, hadmits⟩
    · obtain ⟨n, hn, hadmits⟩ := hρ.admitted hd
      have hmem := hr.child_mem hy (mem_children.mpr ⟨s, hd⟩)
      obtain ⟨n', m, hn', hm, hsame, -⟩ := h.scalars_copy hmem
      obtain rfl := Option.some.inj (hn.symm.trans hn')
      have hkind : m.kind = n.kind := Payload.kind_eq_of_sameScalars hsame
      exact ⟨m, hm, by rw [hkind]; exact hadmits⟩
  linked := by
    intro o s c hc
    rcases h.mem_childrenIn_cases hr hc with ⟨-, hold⟩ | ⟨y, hy, d, hd, rfl, rfl⟩
    · rw [h.parent?_kept (hf.allocated_held hold), hf.linked hold]
    · have hchild : d ∈ ρ.children y := mem_children.mpr ⟨s, hd⟩
      rw [h.parent?_copy (hr.child_mem hy hchild), if_neg (hr.child_not_root hy hchild),
        hr.linked hy hd]
      rfl
  nodup := by
    intro o s
    -- any child tells whether the owner was there before or is a copy
    by_cases hempty : τ.childrenIn o s = []
    · rw [hempty]
      exact List.nodup_nil
    · obtain ⟨c, hc⟩ := List.exists_mem_of_ne_nil _ hempty
      rcases h.mem_childrenIn_cases hr hc with ⟨halloc, -⟩ | ⟨y, hy, d, hd, rfl, rfl⟩
      · rw [h.childrenIn_kept halloc]
        exact hf.nodup o s
      · rw [h.childrenIn_copy hy]
        refine (hρ.nodup y s).map_on fun c hc e _ heq => ?_
        exact copyId_inj (hr.child_mem hy (mem_children.mpr ⟨s, hc⟩)) heq
  held := by
    intro c link hlink
    rcases h.parent?_cases hr hlink with
      hold | ⟨y, hy, -, link', hlink', howner, hheld, rfl, rfl⟩
    · rw [h.childrenIn_kept (hf.allocated_owner hold)]
      exact hf.held hold
    · show copyId σ.size order y ∈ τ.childrenIn (copyId σ.size order link'.owner) link'.slot
      rw [h.childrenIn_copy howner]
      exact List.mem_map.mpr ⟨y, hheld, rfl⟩
  acyclic := by
    -- a circle would be one of before or the image of one
    intro id hunder
    rcases h.under_cases hr hf hunder with hold | ⟨y, hy, z, hz, hyz, rfl, heq⟩
    · exact hf.acyclic id hold
    · obtain rfl := copyId_inj hy heq
      exact hρ.acyclic y hyz

/-! ## Copying as an edit -/

/-- The edit ends, carried out or refused, and leaves a forest that extends the store. -/
def KeepsForest {α : Type} (σ : Store) (reply : Option (Reply α)) : Prop :=
  ∃ answer τ, reply = some (answer, τ) ∧ τ.Forest ∧ σ.Extends τ

lemma KeepsForest.map {α β : Type} {reply : Option (Reply α)} (f : α → β)
    (h : σ.KeepsForest reply) : σ.KeepsForest (reply.map (Reply.map f)) := by
  obtain ⟨answer, τ, rfl, hforest, hextends⟩ := h
  exact ⟨answer.map f, τ, rfl, hforest, hextends⟩

lemma KeepsForest.of_extends {α : Type} {reply : Option (Reply α)} (hextends : σ.Extends τ)
    (h : τ.KeepsForest reply) : σ.KeepsForest reply := by
  obtain ⟨answer, υ, heq, hforest, hextends'⟩ := h
  exact ⟨answer, υ, heq, hforest, hextends.trans hextends'⟩

namespace Forest

/-- A copy of a known node is made as far as the identifiers last, one of an unknown node is
refused. -/
lemma keepsForest_copySubtree (hf : σ.Forest) (x : NodeId) :
    σ.KeepsForest (σ.copySubtree x) := by
  by_cases hx : σ.Allocated x
  · obtain ⟨answer, τ, heq, hend⟩ := copySubtree_ends (hf.treeAt hx)
    obtain ⟨roots, done, -, hr, hcopies⟩ := hend.region (hf.treeAt hx)
    exact ⟨answer, τ, heq, hf.of_copies hf hr hcopies, hcopies.retains.extends⟩
  · exact ⟨_, σ, copySubtree_of_not_allocated hx, hf, Extends.refl σ⟩

lemma keepsForest_importSubtree (hf : σ.Forest) (hρ : ρ.Forest) (x : NodeId) :
    σ.KeepsForest (σ.importSubtree ρ x) := by
  by_cases hx : ρ.Allocated x
  · obtain ⟨answer, τ, heq, hend⟩ := importSubtree_ends σ (hρ.treeAt hx)
    obtain ⟨roots, done, -, hr, hcopies⟩ := hend.region (hρ.treeAt hx)
    exact ⟨answer, τ, heq, hf.of_copies hρ hr hcopies, hcopies.retains.extends⟩
  · exact ⟨_, σ, importSubtree_of_not_allocated σ hx, hf, Extends.refl σ⟩

lemma keepsForest_moved {α : Type} (hf : σ.Forest) {reply : Reply α} (h : σ.Moves reply.2) :
    σ.KeepsForest (some reply) :=
  ⟨reply.1, reply.2, rfl, hf.of_moves h, h.retains.extends⟩

/-- Each source is copied and its copy appended, until one is refused. -/
lemma keepsForest_appendCopies (hf : σ.Forest) (hρ : ρ.Forest) (owner : NodeId) (slot : Slot)
    (sources : List NodeId) : σ.KeepsForest (σ.appendCopies owner slot ρ sources) := by
  induction sources generalizing σ with
  | nil => exact ⟨.ok (), σ, rfl, hf, Extends.refl σ⟩
  | cons x rest ih =>
    obtain ⟨answer, grown, himport, hgrown, hextends⟩ := hf.keepsForest_importSubtree hρ x
    rw [appendCopies, himport]
    cases answer with
    | error e => exact ⟨.error e, grown, rfl, hgrown, hextends⟩
    | ok copy =>
      -- the copy stays even where it cannot be appended
      have hmoves := moves_pushChild hgrown owner slot copy
      have hafter := hgrown.of_moves hmoves
      have hextends' := hextends.trans hmoves.retains.extends
      obtain ⟨pushed, after, hpush⟩ : ∃ pushed after,
        grown.pushChild owner slot copy = (pushed, after) := ⟨_, _, rfl⟩
      rw [hpush] at hafter hextends'
      simp only [Option.bind_eq_bind, Option.bind_some, hpush]
      cases pushed with
      | error e => exact ⟨.error e, after, rfl, hafter, hextends'⟩
      | ok _ => exact (ih hafter).of_extends hextends'

/-- **Copying into a slot keeps a forest, also where it is refused halfway.** -/
theorem keepsForest_copyFrom (hf : σ.Forest) (hρ : ρ.Forest) (owner : NodeId) (slot : Slot)
    (sources : List NodeId) : σ.KeepsForest (σ.copyFrom owner slot ρ sources) := by
  unfold copyFrom
  cases ρ.firstUnknown? sources with
  | some x => exact ⟨_, σ, rfl, hf, Extends.refl σ⟩
  | none =>
    simp only
    by_cases hlist : slot.isList = true
    · rw [if_pos hlist]
      exact hf.keepsForest_appendCopies hρ owner slot sources
    · rw [if_neg hlist]
      match sources with
      | [] => exact (hf.keepsForest_moved (moves_setChild σ owner slot none)).map fun _ => ()
      | [x] =>
        obtain ⟨answer, grown, himport, hgrown, hextends⟩ := hf.keepsForest_importSubtree hρ x
        simp only [himport, Option.bind_eq_bind, Option.bind_some]
        cases answer with
        | error e => exact ⟨.error e, grown, rfl, hgrown, hextends⟩
        | ok copy =>
          have hset := hgrown.keepsForest_moved (moves_setChild grown owner slot (some copy))
          exact (hset.map fun _ => ()).of_extends hextends
      | _ :: _ :: _ => exact ⟨_, σ, rfl, hf, Extends.refl σ⟩

end Forest

end DeclTree.Store
