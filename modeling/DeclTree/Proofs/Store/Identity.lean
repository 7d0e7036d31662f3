import DeclTree.Proofs.Store.Runs

/-!
# Nodes keep their identity

Whatever clients do to a store, a node keeps its identifier, its kind and its span, and its scalar
fields change only when an update of that very node succeeds.  New nodes are numbered behind those
that are there, in the order of their creation, and are refused only when all identifiers are
issued.

All of this holds of every store, also of one that disagrees with itself: it rests on what each
write does, and not on the forest.  One edit is `Edit.keepsNodes_apply`, a run of edits with the
answers that they get is a `Store.History`, and `Store.History.keeps_identities` says it of runs.
-/

namespace DeclTree

open Store

/-! ## Computations that grow a store -/

namespace Growth

variable {α β : Type} {x : Growth α} {f : α → Growth β} {σ τ : Store}

/-- What comes of two steps: the first fails, or the second goes on from what it left. -/
lemma exists_of_bind {answer : Except TreeError β} (h : (x >>= f) σ = some (answer, τ)) :
    (∃ e, x σ = some (.error e, τ) ∧ answer = .error e) ∨
    ∃ a υ, x σ = some (.ok a, υ) ∧ f a υ = some (answer, τ) := by
  cases hx : x σ with
  | none =>
    simp only [bind, ExceptT.bind, ExceptT.mk, StateT.bind, hx] at h
    cases h
  | some reply =>
    obtain ⟨e | a, υ⟩ := reply
    · rw [bind_of_error hx] at h
      obtain ⟨rfl, rfl⟩ := Prod.mk.inj (Option.some.inj h)
      exact Or.inl ⟨e, rfl, rfl⟩
    · rw [bind_of_ok hx] at h
      exact Or.inr ⟨a, υ, rfl, h⟩

/-- The computation only adds nodes. -/
structure Orderly (x : Growth α) : Prop where
  /-- Whatever comes of it, the nodes that were there keep their scalar fields and spans. -/
  retains : ∀ {σ answer τ}, x σ = some (answer, τ) → σ.Retains τ
  /-- It runs out of identifiers only when all are issued. -/
  full : ∀ {σ τ}, x σ = some (.error .arenaFull, τ) → τ.size = NodeId.bound

lemma orderly_pure (a : α) : (pure a : Growth α).Orderly where
  retains := by
    intro σ answer τ h
    obtain ⟨-, rfl⟩ := Prod.mk.inj (Option.some.inj h)
    exact Retains.refl σ
  full := nofun

lemma Orderly.bind (hx : x.Orderly) (hf : ∀ a, (f a).Orderly) : (x >>= f).Orderly where
  retains := by
    intro σ answer τ h
    rcases exists_of_bind h with ⟨e, hfail, -⟩ | ⟨a, υ, hfirst, hrest⟩
    · exact hx.retains hfail
    · exact (hx.retains hfirst).trans ((hf a).retains hrest)
  full := by
    intro σ τ h
    rcases exists_of_bind h with ⟨e, hfail, herror⟩ | ⟨a, υ, hfirst, hrest⟩
    · obtain rfl := Except.error.inj herror
      exact hx.full hfail
    · exact (hf a).full hrest

lemma orderly_source (src : CopySource) (id : NodeId) : (source src id).Orderly where
  retains := by
    intro σ answer τ h
    obtain ⟨-, rfl⟩ := Prod.mk.inj (Option.some.inj h)
    exact Retains.refl σ
  full := by
    intro σ τ h
    obtain ⟨herror, -⟩ := Prod.mk.inj (Option.some.inj h)
    rw [node] at herror
    split at herror <;> cases herror

section Children

variable {copy : NodeId → Growth NodeId} (hcopy : ∀ c, (copy c).Orderly)
include hcopy

lemma orderly_mapM (cs : List NodeId) : (cs.mapM copy : Growth (List NodeId)).Orderly := by
  induction cs with
  | nil => exact orderly_pure []
  | cons c cs ih =>
    rw [List.mapM_cons]
    exact (hcopy c).bind fun _ => ih.bind fun _ => orderly_pure _

lemma orderly_mapChildrenM (p : Payload) : (p.mapChildrenM copy : Growth Payload).Orderly := by
  rw [Payload.mapChildrenM_eq]
  exact (orderly_mapM hcopy p.children).bind fun _ => orderly_pure _

end Children

end Growth

namespace Store

variable {σ τ υ : Store} {x : NodeId}

lemma Extends.size_le (h : σ.Extends τ) : σ.size ≤ τ.size := by
  by_contra hlt
  -- the first identifier that `τ` does not have would be that of a node of `σ`
  have hknown : σ.Allocated ⟨τ.size⟩ := Nat.lt_of_not_le hlt
  obtain ⟨n, hn⟩ := exists_node_iff.mpr hknown
  obtain ⟨m, hm, -⟩ := h ⟨τ.size⟩ n hn
  exact absurd (allocated_of_node? hm) (Nat.lt_irrefl τ.size)

lemma Retains.size_le (h : σ.Retains τ) : σ.size ≤ τ.size := h.extends.size_le

lemma retains_setLinks (σ : Store) (owner : NodeId) (links : List (Slot × NodeId)) :
    σ.Retains (σ.setLinks owner links) := by
  induction links generalizing σ with
  | nil => exact Retains.refl σ
  | cons entry links ih => exact (retains_setParent σ entry.2 _).trans (ih _)

end Store

lemma Growth.orderly_adopt (p : Payload) (span : Span) : (Growth.adopt p span).Orderly where
  retains := by
    intro σ answer τ h
    by_cases room : σ.HasRoom 1
    · rw [Growth.adopt, adopt_of_room room] at h
      obtain ⟨-, rfl⟩ := Prod.mk.inj (Option.some.inj h)
      exact (retains_push σ _ room).trans (retains_setLinks _ _ _)
    · rw [Growth.adopt, adopt_of_full p span room] at h
      obtain ⟨-, rfl⟩ := Prod.mk.inj (Option.some.inj h)
      exact Retains.refl σ
  full := by
    intro σ τ h
    by_cases room : σ.HasRoom 1
    · rw [Growth.adopt, adopt_of_room room] at h
      cases h
    · rw [Growth.adopt, adopt_of_full p span room] at h
      obtain ⟨-, rfl⟩ := Prod.mk.inj (Option.some.inj h)
      exact size_of_full room

section Copying

variable {src : CopySource} {ρ σ τ : Store} {x copy : NodeId} {depth : Nat}

/-- A copy changes no node that was there, even where it fails. -/
lemma orderly_copyNode (src : CopySource) (depth : Nat) (x : NodeId) :
    (copyNode src depth x).Orderly := by
  induction depth generalizing x with
  | zero => exact ⟨nofun, nofun⟩
  | succ depth ih =>
    rw [copyNode]
    exact (Growth.orderly_source src x).bind fun n =>
      (Growth.orderly_mapChildrenM ih n.payload).bind fun p => Growth.orderly_adopt p n.span

/-- The copy of a node is made last, behind all that was there. -/
lemma last_of_copyNode (h : copyNode src depth x σ = some (.ok copy, τ)) :
    σ.size ≤ copy.index ∧ τ.size = copy.index + 1 := by
  cases depth with
  | zero => cases h
  | succ depth =>
    rw [copyNode] at h
    rcases Growth.exists_of_bind h with ⟨e, -, herror⟩ | ⟨n, υ, hsource, h⟩
    · cases herror
    · rcases Growth.exists_of_bind h with ⟨e, -, herror⟩ | ⟨p, υ', hchildren, hadopt⟩
      · cases herror
      · have hbefore : σ.size ≤ υ.size := ((Growth.orderly_source src x).retains hsource).size_le
        have hcopied : υ.size ≤ υ'.size :=
          ((Growth.orderly_mapChildrenM (orderly_copyNode src depth) n.payload).retains
            hchildren).size_le
        by_cases room : υ'.HasRoom 1
        · have hsize := size_adopt room p n.span
          rw [Growth.adopt, adopt_of_room room] at hadopt
          rw [adopt_of_room room] at hsize
          obtain ⟨hid, rfl⟩ := Prod.mk.inj (Option.some.inj hadopt)
          obtain rfl : υ'.nextId = copy := Except.ok.inj hid
          exact ⟨Nat.le_trans hbefore hcopied, hsize⟩
        · rw [Growth.adopt, adopt_of_full p n.span room] at hadopt
          cases hadopt

end Copying

namespace Store

variable {ρ σ τ υ : Store}

/-! ## Edits that move children -/

/-- The same nodes with the same scalar fields and spans; slots and parent links may differ. -/
structure SameNodes (σ τ : Store) : Prop where
  retains : σ.Retains τ
  size_eq : τ.size = σ.size

namespace SameNodes

lemma refl (σ : Store) : σ.SameNodes σ := ⟨Retains.refl σ, rfl⟩

lemma trans (h : σ.SameNodes τ) (h' : τ.SameNodes υ) : σ.SameNodes υ :=
  ⟨h.retains.trans h'.retains, h'.size_eq.trans h.size_eq⟩

lemma setParent (h : σ.SameNodes τ) (id : NodeId) (link : Option ParentLink) :
    σ.SameNodes (τ.setParent id link) :=
  h.trans ⟨retains_setParent τ id link, size_setParent τ id link⟩

lemma setParents (h : σ.SameNodes τ) (ids : List NodeId) (link : Option ParentLink) :
    σ.SameNodes (τ.setParents ids link) :=
  h.trans ⟨retains_setParents τ link ids, size_setParents τ link ids⟩

end SameNodes

lemma sameNodes_setSlot (σ : Store) (owner : NodeId) (slot : Slot) (content : SlotContent) :
    σ.SameNodes (σ.setSlot owner slot content) :=
  ⟨retains_setSlot σ owner slot content, size_setSlot σ owner slot content⟩

section Moving

variable (σ : Store) (owner : NodeId) (slot : Slot)

lemma sameNodes_setChild (child : Option NodeId) :
    σ.SameNodes (σ.setChild owner slot child).2 := by
  rcases σ.setChild_cases owner slot child with
    ⟨e, heq⟩ | ⟨previous, -, ⟨-, -, heq⟩ | ⟨-, -, heq⟩⟩ <;> rw [heq]
  · exact .refl σ
  · exact .refl σ
  · exact ((sameNodes_setSlot σ owner slot _).setParents _ _).setParents _ _

lemma sameNodes_insertChild (index : Nat) (child : NodeId) :
    σ.SameNodes (σ.insertChild owner slot index child).2 := by
  rcases σ.insertChild_cases owner slot index child with ⟨e, heq⟩ | ⟨present, -, -, -, heq⟩ <;>
    rw [heq]
  · exact .refl σ
  · exact (sameNodes_setSlot σ owner slot _).setParent _ _

lemma sameNodes_pushChild (child : NodeId) : σ.SameNodes (σ.pushChild owner slot child).2 := by
  rcases σ.pushChild_cases owner slot child with ⟨e, heq⟩ | ⟨index, heq⟩ <;> rw [heq]
  · exact .refl σ
  · exact sameNodes_insertChild σ owner slot index child

lemma sameNodes_removeChild (index : Nat) :
    σ.SameNodes (σ.removeChild owner slot index).2 := by
  rcases σ.removeChild_cases owner slot index with ⟨e, heq⟩ | ⟨present, removed, -, -, heq⟩ <;>
    rw [heq]
  · exact .refl σ
  · exact (sameNodes_setSlot σ owner slot _).setParent _ _

lemma sameNodes_detach (id : NodeId) : σ.SameNodes (σ.detach id).2 := by
  rcases σ.detach_cases id with ⟨answer, heq⟩ | ⟨link, content, -, -, heq⟩ <;> rw [heq]
  · exact .refl σ
  · exact (sameNodes_setSlot σ link.owner link.slot _).setParent _ _

lemma sameNodes_replace (old new : NodeId) : σ.SameNodes (σ.replace old new).2 := by
  rcases σ.replace_cases old new with ⟨answer, heq⟩ | ⟨link, content, -, -, -, -, heq⟩ <;>
    rw [heq]
  · exact .refl σ
  · exact ((sameNodes_setSlot σ link.owner link.slot _).setParent _ _).setParent _ _

end Moving

/-! ## Edits that copy -/

lemma retains_appendCopies {owner : NodeId} {slot : Slot} {sources : List NodeId}
    {answer : Except TreeError Unit}
    (h : σ.appendCopies owner slot ρ sources = some (answer, τ)) : σ.Retains τ := by
  induction sources generalizing σ with
  | nil =>
    obtain ⟨-, rfl⟩ := Prod.mk.inj (Option.some.inj h)
    exact Retains.refl σ
  | cons x rest ih =>
    rw [appendCopies] at h
    obtain ⟨⟨imported, grown⟩, himport, h⟩ := Option.bind_eq_some_iff.mp h
    have hgrown : σ.Retains grown := (orderly_copyNode _ _ _).retains himport
    cases imported with
    | error e =>
      obtain ⟨-, rfl⟩ := Prod.mk.inj (Option.some.inj h)
      exact hgrown
    | ok copy =>
      have hafter := hgrown.trans (sameNodes_pushChild grown owner slot copy).retains
      obtain ⟨pushed, after, hpush⟩ : ∃ pushed after,
        grown.pushChild owner slot copy = (pushed, after) := ⟨_, _, rfl⟩
      rw [hpush] at hafter
      simp only [hpush] at h
      cases pushed with
      | error e =>
        obtain ⟨-, rfl⟩ := Prod.mk.inj (Option.some.inj h)
        exact hafter
      | ok _ => exact hafter.trans (ih h)

lemma retains_copyFrom {owner : NodeId} {slot : Slot} {sources : List NodeId}
    {answer : Except TreeError Unit}
    (h : σ.copyFrom owner slot ρ sources = some (answer, τ)) : σ.Retains τ := by
  unfold copyFrom at h
  cases hunknown : ρ.firstUnknown? sources with
  | some x =>
    rw [hunknown] at h
    obtain ⟨-, rfl⟩ := Prod.mk.inj (Option.some.inj h)
    exact Retains.refl σ
  | none =>
    simp only [hunknown] at h
    by_cases hlist : slot.isList = true
    · rw [if_pos hlist] at h
      exact retains_appendCopies h
    · rw [if_neg hlist] at h
      match sources, h with
      | [], h =>
        obtain ⟨-, rfl⟩ := Prod.mk.inj (Option.some.inj h)
        exact (sameNodes_setChild σ owner slot none).retains
      | [x], h =>
        obtain ⟨⟨imported, grown⟩, himport, h⟩ := Option.bind_eq_some_iff.mp h
        have hgrown : σ.Retains grown := (orderly_copyNode _ _ _).retains himport
        cases imported with
        | error e =>
          obtain ⟨-, rfl⟩ := Prod.mk.inj (Option.some.inj h)
          exact hgrown
        | ok copy =>
          obtain ⟨-, rfl⟩ := Prod.mk.inj (Option.some.inj h)
          exact hgrown.trans (sameNodes_setChild grown owner slot (some copy)).retains
      | _ :: _ :: _, h =>
        obtain ⟨-, rfl⟩ := Prod.mk.inj (Option.some.inj h)
        exact Retains.refl σ

end Store

/-! ## One edit -/

namespace Edit

/-- The edit is an update of the node, and it succeeded. -/
def Updated (edit : Edit) (answer : Except TreeError Answer) (id : NodeId) : Prop :=
  ∃ f a, edit = .update id f ∧ answer = .ok a

/-- The new node that the edit answers with: the one created, or the root of the copy. -/
def created? : Edit → Except TreeError Answer → Option NodeId
  | alloc _ _, .ok (.node id) => some id
  | copySubtree _, .ok (.node id) => some id
  | importSubtree _ _, .ok (.node id) => some id
  | _, _ => none

/-- How the edit numbers nodes when it takes `σ` to `τ`: a new node gets the number of nodes as its
identifier, a copy is made behind the nodes that are there and its root comes last, and the other
edits create nothing.  The identifiers are said to have run out only when all are issued. -/
def Numbers (σ : Store) (answer : Except TreeError Answer) (τ : Store) : Edit → Prop
  | alloc _ _ => (answer = .ok (.node σ.nextId) ∧ τ.size = σ.size + 1) ∨
      (answer = .error .arenaFull ∧ σ.size = NodeId.bound ∧ τ = σ)
  | copySubtree _ | importSubtree _ _ => σ.size ≤ τ.size ∧
      (∀ copy, answer = .ok (.node copy) → σ.size ≤ copy.index ∧ τ.size = copy.index + 1) ∧
      (answer = .error .arenaFull → τ.size = NodeId.bound)
  | copyFrom _ _ _ _ => σ.size ≤ τ.size
  | _ => τ.size = σ.size

variable {edit : Edit} {σ τ : Store} {answer : Except TreeError Answer}

lemma Numbers.size_le (h : edit.Numbers σ answer τ) : σ.size ≤ τ.size := by
  cases edit with
  | alloc =>
    rcases h with ⟨-, hsize⟩ | ⟨-, -, rfl⟩
    · exact hsize ▸ Nat.le_succ σ.size
    · exact Nat.le_refl _
  | copySubtree | importSubtree => exact h.1
  | copyFrom => exact h
  | _ => exact Nat.le_of_eq h.symm

/-- What is created is the last node, and it was not there. -/
lemma Numbers.created (h : edit.Numbers σ answer τ) {id : NodeId}
    (hcreated : edit.created? answer = some id) :
    σ.size ≤ id.index ∧ τ.size = id.index + 1 := by
  cases edit with
  | alloc p span =>
    rcases h with ⟨rfl, hsize⟩ | ⟨rfl, -, -⟩
    · obtain rfl := Option.some.inj hcreated
      exact ⟨Nat.le_refl σ.size, hsize⟩
    · cases hcreated
  | copySubtree | importSubtree =>
    match answer, hcreated with
    | .ok (.node copy), hcreated =>
      obtain rfl := Option.some.inj hcreated
      exact h.2.1 copy rfl
  | _ => cases hcreated

/-- The root of a copy in the numbering of the store. -/
lemma numbers_of_copyNode {src : CopySource} {depth : Nat} {x : NodeId}
    (h : (copyNode src depth x σ).map (Reply.map Answer.node) = some (answer, τ)) :
    σ.size ≤ τ.size ∧
      (∀ copy, answer = .ok (.node copy) → σ.size ≤ copy.index ∧ τ.size = copy.index + 1) ∧
      (answer = .error .arenaFull → τ.size = NodeId.bound) := by
  obtain ⟨⟨copied, τ'⟩, hcopy, hreply⟩ := Option.map_eq_some_iff.mp h
  obtain ⟨rfl, rfl⟩ := Prod.mk.inj hreply
  have horderly := orderly_copyNode src depth x
  refine ⟨(horderly.retains hcopy).size_le, fun copy hanswer => ?_, fun hanswer => ?_⟩
  · cases copied with
    | error e => cases hanswer
    | ok root =>
      obtain rfl : root = copy := Answer.node.inj (Except.ok.inj hanswer)
      exact last_of_copyNode hcopy
  · cases copied with
    | error e =>
      obtain rfl : e = .arenaFull := Except.error.inj hanswer
      exact horderly.full hcopy
    | ok root => cases hanswer

/-- What one edit does to the nodes that are there: it numbers new ones behind them, and keeps their
kinds and spans and, unless it is an update of the node that succeeds, their scalar fields. -/
structure KeepsNodes (edit : Edit) (σ : Store) (answer : Except TreeError Answer) (τ : Store) :
    Prop where
  numbers : edit.Numbers σ answer τ
  extended : σ.Extends τ
  scalars : ∀ {id n m}, σ.node? id = some n → τ.node? id = some m →
    n.payload.sameScalars m.payload = true ∨ edit.Updated answer id

lemma keepsNodes_of_retains (hnumbers : edit.Numbers σ answer τ) (h : σ.Retains τ) :
    edit.KeepsNodes σ answer τ where
  numbers := hnumbers
  extended := h.extends
  scalars := by
    intro id n m hn hm
    obtain ⟨m', hm', hsame, -⟩ := h id n hn
    obtain rfl := Option.some.inj (hm.symm.trans hm')
    exact Or.inl hsame

lemma keepsNodes_update {id : NodeId} {f : Payload → Payload}
    (happly : (update id f).apply σ = some (answer, τ)) :
    (update id f).KeepsNodes σ answer τ := by
  have hextends := Store.extends_update (fun p => ((), f p)) σ id
  obtain ⟨rfl, rfl⟩ := Prod.mk.inj (Option.some.inj happly)
  rcases Store.update_cases (fun p => ((), f p)) σ id with ⟨e, heq⟩ | ⟨n, hn, -, heq⟩
  · rw [heq]
    exact keepsNodes_of_retains rfl (Retains.refl σ)
  · rw [heq] at hextends ⊢
    refine ⟨size_modify σ id _, hextends, ?_⟩
    intro other n' m hn' hm
    by_cases hid : id = other
    · exact Or.inr ⟨f, .done, by rw [hid], rfl⟩
    · rw [setPayload, node?_modify, if_neg hid, hn'] at hm
      obtain rfl := Option.some.inj hm
      exact Or.inl (Payload.sameScalars_refl _)

/-- **Every edit keeps the nodes**, whether it is carried out or refused. -/
theorem keepsNodes_apply (edit : Edit) (happly : edit.apply σ = some (answer, τ)) :
    edit.KeepsNodes σ answer τ := by
  cases edit with
  | alloc p span =>
    obtain ⟨rfl, rfl⟩ := Prod.mk.inj (Option.some.inj happly)
    refine keepsNodes_of_retains ?_ (retains_alloc σ p span)
    rcases alloc_cases σ p span with ⟨room, heq⟩ | ⟨hfull, heq⟩ <;> rw [heq]
    · exact .inl ⟨rfl, size_push σ _ room⟩
    · exact .inr ⟨rfl, hfull, rfl⟩
  | update id f => exact keepsNodes_update happly
  | setChild owner slot child =>
    obtain ⟨rfl, rfl⟩ := Prod.mk.inj (Option.some.inj happly)
    have hsame := sameNodes_setChild σ owner slot child
    exact keepsNodes_of_retains hsame.size_eq hsame.retains
  | pushChild owner slot child =>
    obtain ⟨rfl, rfl⟩ := Prod.mk.inj (Option.some.inj happly)
    have hsame := sameNodes_pushChild σ owner slot child
    exact keepsNodes_of_retains hsame.size_eq hsame.retains
  | insertChild owner slot index child =>
    obtain ⟨rfl, rfl⟩ := Prod.mk.inj (Option.some.inj happly)
    have hsame := sameNodes_insertChild σ owner slot index child
    exact keepsNodes_of_retains hsame.size_eq hsame.retains
  | removeChild owner slot index =>
    obtain ⟨rfl, rfl⟩ := Prod.mk.inj (Option.some.inj happly)
    have hsame := sameNodes_removeChild σ owner slot index
    exact keepsNodes_of_retains hsame.size_eq hsame.retains
  | detach id =>
    obtain ⟨rfl, rfl⟩ := Prod.mk.inj (Option.some.inj happly)
    have hsame := sameNodes_detach σ id
    exact keepsNodes_of_retains hsame.size_eq hsame.retains
  | replace old new =>
    obtain ⟨rfl, rfl⟩ := Prod.mk.inj (Option.some.inj happly)
    have hsame := sameNodes_replace σ old new
    exact keepsNodes_of_retains hsame.size_eq hsame.retains
  | copySubtree id =>
    have hnumbers := numbers_of_copyNode happly
    obtain ⟨reply, hcopy, hreply⟩ := Option.map_eq_some_iff.mp happly
    obtain ⟨-, rfl⟩ := Prod.mk.inj hreply
    exact keepsNodes_of_retains hnumbers ((orderly_copyNode _ _ _).retains hcopy)
  | importSubtree source id =>
    have hnumbers := numbers_of_copyNode happly
    obtain ⟨reply, hcopy, hreply⟩ := Option.map_eq_some_iff.mp happly
    obtain ⟨-, rfl⟩ := Prod.mk.inj hreply
    exact keepsNodes_of_retains hnumbers ((orderly_copyNode _ _ _).retains hcopy)
  | copyFrom owner slot source sources =>
    obtain ⟨reply, hcopy, hreply⟩ := Option.map_eq_some_iff.mp happly
    obtain ⟨-, rfl⟩ := Prod.mk.inj hreply
    have hretains := retains_copyFrom hcopy
    exact keepsNodes_of_retains hretains.size_le hretains

end Edit

/-! ## Runs of edits -/

namespace Store

/-- An edit with the answer that it got. -/
abbrev EditCall := Edit × Except TreeError Answer

/-- The calls take `σ` to `τ`, one after the other. -/
inductive History : Store → List EditCall → Store → Prop
  | nil (σ : Store) : History σ [] σ
  | cons {σ υ τ : Store} {answer : Except TreeError Answer} {calls : List EditCall} (edit : Edit)
    (happly : edit.apply σ = some (answer, υ)) (rest : History υ calls τ) :
    History σ ((edit, answer) :: calls) τ

/-- The new nodes that the calls answered with, in order. -/
def created (calls : List EditCall) : List NodeId :=
  calls.filterMap fun call => call.1.created? call.2

variable {σ υ τ : Store} {calls before rest : List EditCall}

lemma History.exists_of_append (h : σ.History (before ++ rest) τ) :
    ∃ υ, σ.History before υ ∧ υ.History rest τ := by
  induction before generalizing σ with
  | nil => exact ⟨σ, .nil σ, h⟩
  | cons call before ih =>
    cases h with
    | cons edit happly h =>
      obtain ⟨υ, hbefore, hrest⟩ := ih h
      exact ⟨υ, .cons edit happly hbefore, hrest⟩

lemma History.extends (h : σ.History calls τ) : σ.Extends τ := by
  induction h with
  | nil σ => exact Extends.refl σ
  | cons edit happly _ ih => exact (edit.keepsNodes_apply happly).extended.trans ih

/-- New nodes are numbered behind those that are there, in the order of their creation. -/
lemma History.created_ascending (h : σ.History calls τ) :
    (created calls).Pairwise (·.index < ·.index) ∧
      ∀ id ∈ created calls, σ.size ≤ id.index ∧ id.index < τ.size := by
  induction h with
  | nil σ => exact ⟨List.Pairwise.nil, nofun⟩
  | @cons σ υ τ answer calls edit happly hrest ih =>
    have hnumbers := (edit.keepsNodes_apply happly).numbers
    have hgrown : ∀ id ∈ created calls, σ.size ≤ id.index ∧ id.index < τ.size := fun id hid =>
      ⟨Nat.le_trans hnumbers.size_le (ih.2 id hid).1, (ih.2 id hid).2⟩
    cases hcreated : edit.created? answer with
    | none =>
      have heq : created ((edit, answer) :: calls) = created calls :=
        List.filterMap_cons_none hcreated
      rw [heq]
      exact ⟨ih.1, hgrown⟩
    | some new =>
      have heq : created ((edit, answer) :: calls) = new :: created calls :=
        List.filterMap_cons_some hcreated
      -- the new node is the last one before the rest of the run
      obtain ⟨hnew, hlast⟩ := hnumbers.created hcreated
      rw [heq]
      constructor
      · refine List.pairwise_cons.mpr ⟨fun id hid => ?_, ih.1⟩
        have hbehind := (ih.2 id hid).1
        omega
      · have hsize := hrest.extends.size_le
        intro id hid
        rcases List.mem_cons.mp hid with rfl | hid
        · omega
        · exact hgrown id hid

/-- Scalar fields change by successful updates of the node itself. -/
lemma History.scalars (h : σ.History calls τ) {id : NodeId} {n m : Node}
    (hn : σ.node? id = some n) (hm : τ.node? id = some m) :
    n.payload.sameScalars m.payload = true ∨ ∃ f a, (Edit.update id f, .ok a) ∈ calls := by
  induction h generalizing n with
  | nil σ =>
    obtain rfl := Option.some.inj (hn.symm.trans hm)
    exact Or.inl (Payload.sameScalars_refl _)
  | cons edit happly _ ih =>
    have hstep := edit.keepsNodes_apply happly
    obtain ⟨k, hk, -⟩ := hstep.extended id n hn
    rcases hstep.scalars hn hk with hsame | ⟨f, a, rfl, rfl⟩
    · rcases ih hk hm with hrest | ⟨f, a, hmem⟩
      · exact Or.inl (Payload.sameScalars_trans hsame hrest)
      · exact Or.inr ⟨f, a, List.mem_cons_of_mem _ hmem⟩
    · exact Or.inr ⟨f, a, List.mem_cons_self⟩

/-- What a run of edits from `σ` to `τ` does to the identity of nodes. -/
structure Identities (σ : Store) (calls : List EditCall) (τ : Store) : Prop where
  /-- Identifiers are dense, and there are only so many. -/
  dense : (∀ id, (∃ n, τ.node? id = some n) ↔ id.index < τ.size) ∧ τ.size ≤ NodeId.bound
  /-- No identifier is lost. -/
  size_le : σ.size ≤ τ.size
  /-- None is used again. -/
  ascending : (created calls).Pairwise (·.index < ·.index)
  /-- What is created was not there, and stays. -/
  fresh : ∀ id ∈ created calls, σ.size ≤ id.index ∧ id.index < τ.size
  /-- Each call numbers new nodes from the number of nodes on. -/
  numbers : ∀ {before edit answer rest}, calls = before ++ (edit, answer) :: rest →
    ∃ υ ω, σ.History before υ ∧ edit.apply υ = some (answer, ω) ∧ ω.History rest τ ∧
      edit.Numbers υ answer ω
  /-- Kinds and spans stay, and scalar fields unless the node was updated with success. -/
  kept : ∀ {id n}, σ.node? id = some n → ∃ m, τ.node? id = some m ∧
    m.kind = n.kind ∧ m.span = n.span ∧
    (n.payload.sameScalars m.payload = true ∨ ∃ f a, (Edit.update id f, .ok a) ∈ calls)

/-- **Nodes keep their identity in every run of edits.**  A part of a run is a run, so this holds
between any two moments of one. -/
theorem History.keeps_identities (h : σ.History calls τ) : σ.Identities calls τ where
  dense := ⟨fun _ => exists_node_iff, τ.size_le_bound⟩
  size_le := h.extends.size_le
  ascending := h.created_ascending.1
  fresh := h.created_ascending.2
  numbers := by
    rintro before edit answer rest rfl
    obtain ⟨υ, hbefore, hcall⟩ := h.exists_of_append
    cases hcall with
    | @cons _ ω _ _ _ _ happly hrest =>
      exact ⟨υ, ω, hbefore, happly, hrest, (edit.keepsNodes_apply happly).numbers⟩
  kept := by
    intro id n hn
    obtain ⟨m, hm, hkind, hspan⟩ := h.extends id n hn
    exact ⟨m, hm, hkind, hspan, h.scalars hn hm⟩

/-- A type takes over the payload of another one, slots included, its method refuses to become a
type, and the type is copied. -/
theorem keeps_identities_of_updates : ∃ (σ τ : Store) (calls : List EditCall), σ.History calls τ ∧
    σ.childrenIn ⟨0⟩ .members = [⟨1⟩] ∧ τ.childrenIn ⟨0⟩ .members = [⟨1⟩] ∧
    created calls = [⟨3⟩] ∧ τ.size = 4 ∧ σ.Identities calls τ := by
  let type (name : String) (members : List NodeId) : Payload :=
    .type ⟨.classForm, name, ⟨name⟩, members⟩
  let method : Payload := .method ⟨"run", [], false⟩
  let σ : Store := ⟨#[⟨type "A" [⟨1⟩], .dummy, none⟩, ⟨method, .dummy, some ⟨⟨0⟩, .members⟩⟩],
    by decide⟩
  have hrun := History.cons (σ := σ) (.update ⟨0⟩ fun _ => type "B" [⟨7⟩, ⟨0⟩]) rfl <|
    .cons (.update ⟨1⟩ fun _ => type "run" []) rfl <| .cons (.copySubtree ⟨0⟩) rfl <| .nil _
  exact ⟨σ, _, _, hrun, rfl, by decide +kernel, rfl, by decide +kernel, hrun.keeps_identities⟩

end Store

end DeclTree
