import DeclTree.Proofs.Store.Runs

/-!
# Parts of a store that edits do not mix

An edit also touches nodes that it does not name: the occupant of a slot that is filled anew, or the
owner that a parent link leads to.  All of these hang together with the nodes that it names.  So if
the nodes fall into two parts and no slot leads from one to the other, `Store.Apart`, an edit that
names nodes of one part only changes nothing in the other, and the parts stay apart.  This is
`Apart.frames_apply`, which goes through the edits once, and `Apart.frames_run` for runs.

A deep copy is apart from all that was there before, whence `Reachable.copies_independent`.
-/

namespace DeclTree

/-- The identifiers by which an edit names nodes of the store that it changes. -/
def Edit.names : Edit → List NodeId
  | alloc _ _ => []
  | update id _ => [id]
  | setChild owner _ child => owner :: child.toList
  | pushChild owner _ child => [owner, child]
  | insertChild owner _ _ child => [owner, child]
  | removeChild owner _ _ => [owner]
  | detach id => [id]
  | replace old new => [old, new]
  | copySubtree id => [id]
  | importSubtree _ _ => []
  | copyFrom owner _ _ _ => [owner]

namespace Store

variable {P : NodeId → Prop} {ρ σ τ υ : Store} {owner child x : NodeId} {slot : Slot}

/-! ## Frames -/

/-- The records of the nodes outside of `P` are as before. -/
def Frames (P : NodeId → Prop) (σ τ : Store) : Prop := ∀ id, ¬ P id → τ.node? id = σ.node? id

lemma Frames.refl (P : NodeId → Prop) (σ : Store) : Frames P σ σ := fun _ _ => rfl

lemma Frames.trans (h₁ : Frames P σ τ) (h₂ : Frames P τ υ) : Frames P σ υ :=
  fun id hid => (h₂ id hid).trans (h₁ id hid)

lemma frames_modify {f : Node → Node} (hx : P x) : Frames P σ (σ.modify x f) := by
  intro id hid
  have hne : x ≠ id := by
    rintro rfl
    exact hid hx
  rw [node?_modify, if_neg hne]

lemma frames_setParents {ids : List NodeId} (link : Option ParentLink) (hids : ∀ id ∈ ids, P id) :
    Frames P σ (σ.setParents ids link) := by
  induction ids generalizing σ with
  | nil => exact Frames.refl P σ
  | cons id ids ih =>
    obtain ⟨hid, hrest⟩ := List.forall_mem_cons.mp hids
    have hfirst : Frames P σ (σ.setParent id link) := frames_modify hid
    exact hfirst.trans (ih hrest)

/-- A slot and the parent link of one node are written. -/
lemma frames_setSlot_setParent {content : SlotContent} {link : Option ParentLink} (howner : P owner)
    (hx : P x) : Frames P σ ((σ.setSlot owner slot content).setParent x link) := by
  have hslot : Frames P σ (σ.setSlot owner slot content) := frames_modify howner
  exact hslot.trans (frames_modify hx)

lemma Forest.of_importSubtree (hf : σ.Forest) (hρ : ρ.Forest) {answer : Except TreeError NodeId}
    (himport : σ.importSubtree ρ x = some (answer, τ)) : τ.Forest := by
  obtain ⟨answer', τ', heq, hforest, -⟩ := hf.keepsForest_importSubtree hρ x
  rw [himport] at heq
  obtain ⟨-, rfl⟩ := Prod.mk.inj (Option.some.inj heq)
  exact hforest

/-! ## Two parts -/

/-- No slot leads into `P` or out of it, and identifiers that are not in use are in `P`. -/
structure Apart (P : NodeId → Prop) (σ : Store) : Prop where
  closed : ∀ {owner slot child}, child ∈ σ.childrenIn owner slot → (P child ↔ P owner)
  fresh : ∀ {id}, ¬ σ.Allocated id → P id

namespace Apart

/-- What grows behind the nodes changes none of them. -/
lemma frames_of_kept (h : Apart P σ) (hkept : ∀ id n, σ.node? id = some n → τ.node? id = some n) :
    Frames P σ τ := by
  intro id hid
  obtain ⟨n, hn⟩ := exists_node_iff.mpr (by_contra fun hfresh => hid (h.fresh hfresh))
  rw [hn, hkept id n hn]

/-- Forests cannot come together while one part keeps its records: a node of that part has its
parent link, and its owner has its slots. -/
lemma of_frames (hf : σ.Forest) (h : Apart P σ) (hτ : τ.Forest) (hframes : Frames P σ τ) :
    Apart P τ where
  closed := by
    intro owner slot child hchild
    constructor
    · intro hin
      by_contra hout
      have hold : child ∈ σ.childrenIn owner slot := by
        rwa [childrenIn, payload?, hframes owner hout] at hchild
      exact hout ((h.closed hold).mp hin)
    · intro hin
      by_contra hout
      have hlink : σ.parent? child = some ⟨owner, slot⟩ := by
        have hnew := hτ.linked hchild
        rwa [parent?, hframes child hout] at hnew
      exact hout ((h.closed (hf.held hlink)).mpr hin)
  fresh := by
    intro id hid
    by_contra hout
    have hold : ¬ σ.Allocated id := by
      rwa [← node?_eq_none_iff, ← hframes id hout, node?_eq_none_iff]
    exact hout (h.fresh hold)

/-! ## Edits that name nodes of one part -/

/-- What a slot of the part holds is in the part. -/
lemma of_mem_slotContent (h : Apart P σ) (howner : P owner) {content : SlotContent}
    (hcontent : σ.slotContent owner slot = .ok content) : ∀ c ∈ content.toList, P c := by
  intro c hc
  rw [← childrenIn_of_slotContent hcontent] at hc
  exact (h.closed hc).mpr howner

/-- The owner of a node of the part is in the part. -/
lemma owner_of_parent? (hf : σ.Forest) (h : Apart P σ) (hx : P x) {link : ParentLink}
    (hlink : σ.parent? x = some link) : P link.owner :=
  (h.closed (hf.held hlink)).mp hx

lemma frames_setChild (h : Apart P σ) (howner : P owner) {child : Option NodeId}
    (hchild : ∀ c ∈ child.toList, P c) : Frames P σ (σ.setChild owner slot child).2 := by
  rcases σ.setChild_cases owner slot child with
    ⟨e, heq⟩ | ⟨previous, hcontent, ⟨-, -, heq⟩ | ⟨-, -, heq⟩⟩
  · rw [heq]
    exact Frames.refl P σ
  · rw [heq]
    exact Frames.refl P σ
  · rw [heq]
    have hslot : Frames P σ (σ.setSlot owner slot (.link child)) := frames_modify howner
    have hprevious := h.of_mem_slotContent howner hcontent
    exact (hslot.trans (frames_setParents none hprevious)).trans (frames_setParents _ hchild)

lemma frames_insertChild (howner : P owner) (hchild : P child) (index : Nat) :
    Frames P σ (σ.insertChild owner slot index child).2 := by
  rcases σ.insertChild_cases owner slot index child with ⟨e, heq⟩ | ⟨present, -, -, -, heq⟩
  · rw [heq]
    exact Frames.refl P σ
  · rw [heq]
    exact frames_setSlot_setParent howner hchild

lemma frames_pushChild (howner : P owner) (hchild : P child) :
    Frames P σ (σ.pushChild owner slot child).2 := by
  rcases σ.pushChild_cases owner slot child with ⟨e, heq⟩ | ⟨index, heq⟩
  · rw [heq]
    exact Frames.refl P σ
  · rw [heq]
    exact frames_insertChild howner hchild index

lemma frames_removeChild (h : Apart P σ) (howner : P owner) (index : Nat) :
    Frames P σ (σ.removeChild owner slot index).2 := by
  rcases σ.removeChild_cases owner slot index with
    ⟨e, heq⟩ | ⟨present, removed, hcontent, hindex, heq⟩
  · rw [heq]
    exact Frames.refl P σ
  · rw [heq]
    have hremoved := h.of_mem_slotContent howner hcontent removed (List.mem_of_getElem? hindex)
    exact frames_setSlot_setParent howner hremoved

lemma frames_detach (hf : σ.Forest) (h : Apart P σ) (hx : P x) : Frames P σ (σ.detach x).2 := by
  rcases σ.detach_cases x with ⟨answer, heq⟩ | ⟨link, content, hlink, -, heq⟩
  · rw [heq]
    exact Frames.refl P σ
  · rw [heq]
    exact frames_setSlot_setParent (h.owner_of_parent? hf hx hlink) hx

lemma frames_replace (hf : σ.Forest) (h : Apart P σ) {old new : NodeId} (hold : P old)
    (hnew : P new) : Frames P σ (σ.replace old new).2 := by
  rcases σ.replace_cases old new with ⟨answer, heq⟩ | ⟨link, content, hlink, -, -, -, heq⟩
  · rw [heq]
    exact Frames.refl P σ
  · rw [heq]
    have howner := h.owner_of_parent? hf hold hlink
    exact (frames_setSlot_setParent howner hold).trans (frames_modify hnew)

lemma frames_update {α : Type} (f : Payload → α × Payload) (hx : P x) :
    Frames P σ (σ.update x f).2 := by
  rcases update_cases f σ x with ⟨e, heq⟩ | ⟨n, -, -, heq⟩
  · rw [heq]
    exact Frames.refl P σ
  · rw [heq]
    exact frames_modify hx

lemma frames_alloc (h : Apart P σ) (p : Payload) (span : Span) :
    Frames P σ (σ.alloc p span).2 := by
  rcases alloc_cases σ p span with ⟨room, heq⟩ | ⟨-, heq⟩ <;> rw [heq]
  · exact h.frames_of_kept fun id n hn => node?_push_of_node? _ room hn
  · exact Frames.refl P σ

/-- A copy is put behind the nodes, and so is in the part of what is to come. -/
lemma frames_importSubtree (h : Apart P σ) (hρ : ρ.Forest) {answer : Except TreeError NodeId}
    (himport : σ.importSubtree ρ x = some (answer, τ)) :
    Frames P σ τ ∧ ∀ copy, answer = .ok copy → P copy := by
  rcases hρ.importSubtree_cases himport with ⟨-, rfl, rfl⟩ | ⟨-, hend⟩
  · exact ⟨Frames.refl P τ, nofun⟩
  · refine ⟨h.frames_of_kept hend.kept, ?_⟩
    rintro copy rfl
    cases hend
    exact h.fresh (Nat.not_lt.mpr le_copyId_index)

lemma frames_copySubtree (hf : σ.Forest) (h : Apart P σ) {answer : Except TreeError NodeId}
    (hcopy : σ.copySubtree x = some (answer, τ)) : Frames P σ τ := by
  rcases hf.copySubtree_cases hcopy with ⟨-, -, rfl⟩ | ⟨-, hend⟩
  · exact Frames.refl P τ
  · exact h.frames_of_kept hend.kept

/-- Each copy is attached within the part, until one is refused. -/
lemma frames_appendCopies (hf : σ.Forest) (h : Apart P σ) (hρ : ρ.Forest) (howner : P owner)
    {sources : List NodeId} {answer : Except TreeError Unit}
    (hcopy : σ.appendCopies owner slot ρ sources = some (answer, τ)) : Frames P σ τ := by
  induction sources generalizing σ with
  | nil =>
    obtain ⟨-, rfl⟩ := Prod.mk.inj (Option.some.inj hcopy)
    exact Frames.refl P σ
  | cons x rest ih =>
    obtain ⟨imported, grown, himport, -⟩ := hf.keepsForest_importSubtree hρ x
    obtain ⟨hgrown, hcopied⟩ := h.frames_importSubtree hρ himport
    rw [appendCopies, himport] at hcopy
    cases imported with
    | error e =>
      obtain ⟨-, rfl⟩ := Prod.mk.inj (Option.some.inj hcopy)
      exact hgrown
    | ok copy =>
      have hforest := hf.of_importSubtree hρ himport
      have happart := h.of_frames hf hforest hgrown
      have hpushed : Frames P grown (grown.pushChild owner slot copy).2 :=
        frames_pushChild howner (hcopied copy rfl)
      have hforest' := hforest.of_moves (moves_pushChild hforest owner slot copy)
      obtain ⟨pushed, after, hpush⟩ : ∃ pushed after,
        grown.pushChild owner slot copy = (pushed, after) := ⟨_, _, rfl⟩
      rw [hpush] at hpushed hforest'
      simp only [Option.bind_eq_bind, Option.bind_some, hpush] at hcopy
      cases pushed with
      | error e =>
        obtain ⟨-, rfl⟩ := Prod.mk.inj (Option.some.inj hcopy)
        exact hgrown.trans hpushed
      | ok _ =>
        have hrest := ih hforest' (happart.of_frames hforest hforest' hpushed) hcopy
        exact (hgrown.trans hpushed).trans hrest

lemma frames_copyFrom (hf : σ.Forest) (h : Apart P σ) (hρ : ρ.Forest) (howner : P owner)
    {sources : List NodeId} {answer : Except TreeError Unit}
    (hcopy : σ.copyFrom owner slot ρ sources = some (answer, τ)) : Frames P σ τ := by
  unfold copyFrom at hcopy
  cases hknown : ρ.firstUnknown? sources with
  | some x =>
    rw [hknown] at hcopy
    obtain ⟨-, rfl⟩ := Prod.mk.inj (Option.some.inj hcopy)
    exact Frames.refl P σ
  | none =>
    rw [hknown] at hcopy
    simp only at hcopy
    split_ifs at hcopy
    · exact h.frames_appendCopies hf hρ howner hcopy
    · match sources with
      | [] =>
        obtain ⟨-, rfl⟩ := Prod.mk.inj (Option.some.inj hcopy)
        exact h.frames_setChild howner nofun
      | [x] =>
        obtain ⟨imported, grown, himport, -⟩ := hf.keepsForest_importSubtree hρ x
        obtain ⟨hgrown, hcopied⟩ := h.frames_importSubtree hρ himport
        simp only [himport, Option.bind_eq_bind, Option.bind_some] at hcopy
        cases imported with
        | error e =>
          obtain ⟨-, rfl⟩ := Prod.mk.inj (Option.some.inj hcopy)
          exact hgrown
        | ok copy =>
          obtain ⟨-, rfl⟩ := Prod.mk.inj (Option.some.inj hcopy)
          have happart := h.of_frames hf (hf.of_importSubtree hρ himport) hgrown
          refine hgrown.trans (happart.frames_setChild howner fun c hc => ?_)
          obtain rfl : c = copy := by simpa using hc
          exact hcopied c rfl
      | _ :: _ :: _ =>
        obtain ⟨-, rfl⟩ := Prod.mk.inj (Option.some.inj hcopy)
        exact Frames.refl P σ

/-- **An edit that names nodes of one part only leaves the records of the other.** -/
theorem frames_apply (hf : σ.Forest) (h : Apart P σ) {edit : Edit}
    (hnames : ∀ id ∈ edit.names, P id) (hsources : ∀ ρ ∈ edit.readsFrom, ρ.Forest)
    {answer : Except TreeError Answer} (happly : edit.apply σ = some (answer, τ)) :
    Frames P σ τ := by
  cases edit with
  | alloc p span =>
    obtain ⟨-, rfl⟩ := Prod.mk.inj (Option.some.inj happly)
    exact h.frames_alloc p span
  | update id f =>
    obtain ⟨-, rfl⟩ := Prod.mk.inj (Option.some.inj happly)
    exact frames_update _ (hnames id List.mem_cons_self)
  | setChild owner slot child =>
    obtain ⟨-, rfl⟩ := Prod.mk.inj (Option.some.inj happly)
    obtain ⟨howner, hchild⟩ := List.forall_mem_cons.mp hnames
    exact h.frames_setChild howner hchild
  | pushChild owner slot child =>
    obtain ⟨-, rfl⟩ := Prod.mk.inj (Option.some.inj happly)
    obtain ⟨howner, hchild⟩ := List.forall_mem_cons.mp hnames
    exact frames_pushChild howner (hchild child List.mem_cons_self)
  | insertChild owner slot index child =>
    obtain ⟨-, rfl⟩ := Prod.mk.inj (Option.some.inj happly)
    obtain ⟨howner, hchild⟩ := List.forall_mem_cons.mp hnames
    exact frames_insertChild howner (hchild child List.mem_cons_self) index
  | removeChild owner slot index =>
    obtain ⟨-, rfl⟩ := Prod.mk.inj (Option.some.inj happly)
    exact h.frames_removeChild (hnames owner List.mem_cons_self) index
  | detach id =>
    obtain ⟨-, rfl⟩ := Prod.mk.inj (Option.some.inj happly)
    exact h.frames_detach hf (hnames id List.mem_cons_self)
  | replace old new =>
    obtain ⟨-, rfl⟩ := Prod.mk.inj (Option.some.inj happly)
    obtain ⟨hold, hnew⟩ := List.forall_mem_cons.mp hnames
    exact h.frames_replace hf hold (hnew new List.mem_cons_self)
  | copySubtree id =>
    simp only [Edit.apply, Option.map_eq_some_iff, Prod.exists] at happly
    obtain ⟨copied, after, hcopy, hreply⟩ := happly
    obtain ⟨-, rfl⟩ := Prod.mk.inj hreply
    exact h.frames_copySubtree hf hcopy
  | importSubtree source id =>
    simp only [Edit.apply, Option.map_eq_some_iff, Prod.exists] at happly
    obtain ⟨imported, after, himport, hreply⟩ := happly
    obtain ⟨-, rfl⟩ := Prod.mk.inj hreply
    exact (h.frames_importSubtree (hsources source (List.mem_singleton.mpr rfl)) himport).1
  | copyFrom owner slot source sources =>
    simp only [Edit.apply, Option.map_eq_some_iff, Prod.exists] at happly
    obtain ⟨copied, after, hcopy, hreply⟩ := happly
    obtain ⟨-, rfl⟩ := Prod.mk.inj hreply
    exact h.frames_copyFrom hf (hsources source (List.mem_singleton.mpr rfl))
      (hnames owner List.mem_cons_self) hcopy

end Apart

/-! ## Runs -/

/-- One edit that names only nodes in `P` and reads from stores that clients can build. -/
def StepWithin (P : NodeId → Prop) (σ τ : Store) : Prop :=
  ∃ (edit : Edit) (answer : Except TreeError Answer), (∀ id ∈ edit.names, P id) ∧
    (∀ ρ ∈ edit.readsFrom, ρ.Reachable) ∧ edit.apply σ = some (answer, τ)

/-- Any number of such edits, each carried out or refused. -/
def RunWithin (P : NodeId → Prop) : Store → Store → Prop := Relation.ReflTransGen (StepWithin P)

/-- **A run that names nodes of one part only leaves the records of the other.** -/
theorem Apart.frames_run (hf : σ.Forest) (h : Apart P σ) (hrun : RunWithin P σ τ) :
    τ.Forest ∧ Apart P τ ∧ Frames P σ τ := by
  induction hrun with
  | refl => exact ⟨hf, h, Frames.refl P σ⟩
  | tail _ hstep ih =>
    obtain ⟨hforest, happart, hframes⟩ := ih
    obtain ⟨edit, answer, hnames, hsources, happly⟩ := hstep
    have hsources' : ∀ ρ ∈ edit.readsFrom, ρ.Forest := fun ρ hρ => (hsources ρ hρ).forest
    have hforest' := (hforest.of_apply hsources' happly).1
    have hframes' := happart.frames_apply hforest hnames hsources' happly
    exact ⟨hforest', happart.of_frames hforest hforest' hframes', hframes.trans hframes'⟩

/-! ## Copies -/

/-- `τ` is `σ` after an attempt to copy a subtree, from `σ` itself or from a store that clients can
build. -/
def CopiedInto (σ τ : Store) : Prop :=
  ∃ x answer, σ.copySubtree x = some (answer, τ) ∨
    ∃ ρ : Store, ρ.Reachable ∧ σ.importSubtree ρ x = some (answer, τ)

/-- The attempt is refused or leaves copies of a region, all of the subtree or less. -/
lemma CopiedInto.copies (hf : σ.Forest) (h : σ.CopiedInto τ) :
    τ = σ ∨ ∃ (ρ : Store) (roots order : List NodeId), ρ.Forest ∧ ρ.Region roots order ∧
      ρ.Copies roots order σ τ := by
  obtain ⟨x, answer, hcopy | ⟨ρ, hρ, himport⟩⟩ := h
  · rcases hf.copySubtree_cases hcopy with ⟨-, -, rfl⟩ | ⟨hx, hend⟩
    · exact Or.inl rfl
    · obtain ⟨roots, done, -, hregion, hcopies⟩ := hend.region (hf.treeAt hx)
      exact Or.inr ⟨σ, roots, done, hf, hregion, hcopies⟩
  · rcases hρ.forest.importSubtree_cases himport with ⟨-, -, rfl⟩ | ⟨hx, hend⟩
    · exact Or.inl rfl
    · obtain ⟨roots, done, -, hregion, hcopies⟩ := hend.region (hρ.forest.treeAt hx)
      exact Or.inr ⟨ρ, roots, done, hρ.forest, hregion, hcopies⟩

/-- `τ` is a forest that keeps the nodes of `σ`, and no slot leads from these to others or back. -/
structure GrownApart (σ τ : Store) : Prop where
  forest : τ.Forest
  size_le : σ.size ≤ τ.size
  kept : ∀ id n, σ.node? id = some n → τ.node? id = some n
  side_iff : ∀ {owner slot child}, child ∈ τ.childrenIn owner slot →
    (σ.size ≤ child.index ↔ σ.size ≤ owner.index)

lemma Forest.grownApart_self (hf : σ.Forest) : GrownApart σ σ where
  forest := hf
  size_le := Nat.le_refl _
  kept := fun _ _ hn => hn
  side_iff := by
    intro owner slot child hchild
    obtain ⟨n, hn, -⟩ := hf.admitted hchild
    obtain ⟨m, hm, -⟩ := exists_node_of_mem_childrenIn hchild
    exact iff_of_false (Nat.not_le.mpr (allocated_of_node? hn))
      (Nat.not_le.mpr (allocated_of_node? hm))

lemma CopiedInto.grownApart (hf : σ.Forest) (h : σ.CopiedInto τ) : GrownApart σ τ := by
  rcases h.copies hf with rfl | ⟨ρ, roots, order, hρ, hregion, hcopies⟩
  · exact hf.grownApart_self
  · refine ⟨hf.of_copies hρ hregion hcopies, ?_, hcopies.kept, fun hchild => ?_⟩
    · rw [hcopies.size_eq]
      exact Nat.le_add_right _ _
    · -- a child is one of before or the copy of a child
      rcases hcopies.mem_childrenIn_cases hregion hchild with
        ⟨-, hold⟩ | ⟨y, -, d, -, rfl, rfl⟩
      · exact hf.grownApart_self.side_iff hold
      · exact iff_of_true le_copyId_index le_copyId_index

/-- **A copy and what was there before are independent for ever.**  Edits that name the copy or
later nodes only leave all records of before; edits that do not name the copy leave its records. -/
theorem Reachable.copies_independent (h : σ.Reachable) (hcopy : σ.CopiedInto τ) :
    (∀ υ, RunWithin (fun id => σ.size ≤ id.index) τ υ →
      ∀ id, id.index < σ.size → υ.node? id = σ.node? id) ∧
    ∀ υ, RunWithin (fun id => ¬ (σ.size ≤ id.index ∧ id.index < τ.size)) τ υ →
      ∀ id, σ.size ≤ id.index → id.index < τ.size → υ.node? id = τ.node? id := by
  have hgrown := hcopy.grownApart h.forest
  have hsize := hgrown.size_le
  constructor
  · intro υ hrun id hid
    have happart : Apart (fun id => σ.size ≤ id.index) τ :=
      ⟨hgrown.side_iff, fun hfresh => Nat.le_trans hsize (Nat.le_of_not_lt hfresh)⟩
    obtain ⟨-, -, hframes⟩ := happart.frames_run hgrown.forest hrun
    obtain ⟨n, hn⟩ := exists_node_iff.mpr (show σ.Allocated id from hid)
    rw [hframes id (Nat.not_le.mpr hid), hgrown.kept id n hn, hn]
  · intro υ hrun id hle hlt
    have happart : Apart (fun id => ¬ (σ.size ≤ id.index ∧ id.index < τ.size)) τ := by
      refine ⟨fun {owner slot child} hchild => ?_, fun hfresh hid => hfresh hid.2⟩
      obtain ⟨n, hn, -⟩ := hgrown.forest.admitted hchild
      obtain ⟨m, hm, -⟩ := exists_node_of_mem_childrenIn hchild
      have hchildLt : child.index < τ.size := allocated_of_node? hn
      have hownerLt : owner.index < τ.size := allocated_of_node? hm
      have hside := hgrown.side_iff hchild
      omega
    obtain ⟨-, -, hframes⟩ := happart.frames_run hgrown.forest hrun
    exact hframes id (not_not.mpr ⟨hle, hlt⟩)

/-- A type with a method is copied.  Then the method is taken out of the copy, or out of the
original; the other of the two keeps its method. -/
theorem copies_independent_of_detach : ∃ σ τ υ υ' : Store, σ.Reachable ∧ σ.CopiedInto τ ∧
    τ.childrenIn ⟨0⟩ .members = [⟨1⟩] ∧ τ.childrenIn ⟨3⟩ .members = [⟨2⟩] ∧
    RunWithin (fun id => σ.size ≤ id.index) τ υ ∧ υ.childrenIn ⟨3⟩ .members = [] ∧
    υ.node? ⟨0⟩ = σ.node? ⟨0⟩ ∧
    RunWithin (fun id => ¬ (σ.size ≤ id.index ∧ id.index < τ.size)) τ υ' ∧
    υ'.childrenIn ⟨0⟩ .members = [] ∧ υ'.node? ⟨3⟩ = τ.node? ⟨3⟩ := by
  let type (members : List NodeId) : Payload := .type ⟨.classForm, "A", ⟨"A"⟩, members⟩
  let method : Payload := .method ⟨"run", [], false⟩
  let σ : Store := ⟨#[⟨type [⟨1⟩], .dummy, none⟩, ⟨method, .dummy, some ⟨⟨0⟩, .members⟩⟩],
    by decide⟩
  let τ : Store := ⟨#[⟨type [⟨1⟩], .dummy, none⟩, ⟨method, .dummy, some ⟨⟨0⟩, .members⟩⟩,
    ⟨method, .dummy, some ⟨⟨3⟩, .members⟩⟩, ⟨type [⟨2⟩], .dummy, none⟩], by decide⟩
  have hσ : σ.Reachable := by
    have hone := Reachable.empty.step (.alloc (type []) .dummy) nofun rfl
    have htwo := hone.step (.alloc method .dummy) nofun rfl
    exact htwo.step (.pushChild ⟨0⟩ .members ⟨1⟩) nofun rfl
  have hcopied : σ.CopiedInto τ := ⟨⟨0⟩, .ok ⟨3⟩, Or.inl rfl⟩
  obtain ⟨hbefore, hcopy⟩ := hσ.copies_independent hcopied
  have hrun : RunWithin (fun id => σ.size ≤ id.index) τ (τ.detach ⟨2⟩).2 :=
    .single ⟨.detach ⟨2⟩, _, by decide, nofun, rfl⟩
  have hrun' : RunWithin (fun id => ¬ (σ.size ≤ id.index ∧ id.index < τ.size)) τ
      (τ.detach ⟨1⟩).2 := .single ⟨.detach ⟨1⟩, _, by decide, nofun, rfl⟩
  exact ⟨σ, τ, _, _, hσ, hcopied, rfl, rfl, hrun, rfl, hbefore _ hrun ⟨0⟩ (by decide), hrun', rfl,
    hcopy _ hrun' ⟨3⟩ (by decide) (by decide)⟩

end Store

end DeclTree
