import DeclTree.Proofs.Store.CopyAgreement
import DeclTree.Proofs.Store.Legality

/-!
# Edits that name a slot that is not there

An edit may name an owner that is no node, or a slot that the owner's kind does not have.  The edits
that look the slot up first refuse that, and say which of the two it is.

The bulk copy looks at the owner only when it attaches a copy, and then the owner may have become a
node: the copies get the next identifiers.  It is refused all the same.  Either the owner is no node
still, or it has no such slot still, or it is one of the new nodes; and those lie at or below the
copy that is to be attached, `Grows.not_attachable`.  Without a copy nothing is looked at, and a
bulk copy of nothing into a sequence is accepted for any owner.
-/

namespace DeclTree.Store

variable {ρ σ τ : Store} {owner child copy x y : NodeId} {slot : Slot}

/-! ## Looking the slot up -/

/-- Why a slot that is not there is refused. -/
def addressFault (σ : Store) (owner : NodeId) (slot : Slot) : TreeError :=
  match σ.kind? owner with
  | none => .unknownNode owner
  | some kind => .noSuchSlot owner kind slot

lemma slotContent_of_missing (h : ¬ σ.HasSlot owner slot) :
    σ.slotContent owner slot = .error (σ.addressFault owner slot) := by
  cases hn : σ.node? owner with
  | none => simp [slotContent, node, addressFault, kind?, hn, bind, Except.bind]
  | some n =>
    have hnone : n.payload.slot? slot = none := by
      cases hslot : n.payload.slot? slot with
      | none => rfl
      | some content =>
        exact absurd (hasSlot_of_slotContent (slotContent_eq_ok_iff.mpr ⟨n, hn, hslot⟩)) h
    simp [slotContent, node, addressFault, kind?, hn, hnone, bind, Except.bind]

section Missing

variable (h : ¬ σ.HasSlot owner slot)
include h

lemma sequenceIn_of_missing : σ.sequenceIn owner slot = .error (σ.addressFault owner slot) := by
  rw [sequenceIn, slotContent_of_missing h]
  rfl

lemma setChild_of_missing (child : Option NodeId) :
    σ.setChild owner slot child = (.error (σ.addressFault owner slot), σ) := by
  rw [setChild, occupantOf, slotContent_of_missing h]
  rfl

lemma pushChild_of_missing (child : NodeId) :
    σ.pushChild owner slot child = (.error (σ.addressFault owner slot), σ) := by
  rw [pushChild, sequenceIn_of_missing h]

lemma insertChild_of_missing (index : Nat) (child : NodeId) :
    σ.insertChild owner slot index child = (.error (σ.addressFault owner slot), σ) := by
  rw [insertChild, sequenceIn_of_missing h]
  rfl

lemma removeChild_of_missing (index : Nat) :
    σ.removeChild owner slot index = (.error (σ.addressFault owner slot), σ) := by
  rw [removeChild, sequenceIn_of_missing h]
  rfl

end Missing

/-! ## The owner may come with the copy -/

namespace Grows

/-- What is new lies below the copy. -/
lemma mem_ancestors (h : σ.Grows τ [copy]) (hnew : σ.size ≤ y.index) (hlt : y.index < τ.size)
    (hne : y ≠ copy) : copy ∈ τ.ancestors y := by
  -- each owner is numbered behind the node, so the way up is no longer than the store
  have hclimb : ∀ {k y}, τ.size ≤ y.index + k → σ.size ≤ y.index → y.index < τ.size → y ≠ copy →
      copy ∈ τ.ownersAbove k y := by
    intro k
    induction k with
    | zero =>
      intro y hbound _ hlt _
      omega
    | succ k ih =>
      intro y hbound hnew hlt hne
      obtain ⟨link, hlink, habove, howner⟩ := h.owned hnew hlt fun hmem =>
        hne (List.mem_singleton.mp hmem)
      simp only [ownersAbove, hlink]
      by_cases hlast : link.owner = copy
      · rw [hlast]
        exact List.mem_cons_self
      · exact List.mem_cons_of_mem _ (ih (by omega) (by omega) howner hlast)
  exact hclimb (Nat.le_add_left _ _) hnew hlt hne

/-- A node that has the slot now, but not before, is new. -/
lemma new_of_hasSlot (h : σ.Grows τ [copy]) (hbefore : ¬ σ.HasSlot owner slot)
    (hafter : τ.HasSlot owner slot) : σ.size ≤ owner.index ∧ owner.index < τ.size := by
  refine ⟨?_, hafter.allocated⟩
  by_contra hlt
  obtain ⟨n, hn⟩ := exists_node_iff.mpr (show σ.Allocated owner from Nat.lt_of_not_le hlt)
  obtain ⟨m, hm, hslot⟩ := hafter
  rw [h.kept owner n hn] at hm
  obtain rfl := Option.some.inj hm
  exact hbefore ⟨n, hn, hslot⟩

/-- **A slot that was missing before the copy takes the copy in no case.** -/
theorem not_attachable (h : σ.Grows τ [copy]) (hslot : ¬ σ.HasSlot owner slot) :
    ¬ τ.Attachable owner slot copy := by
  intro hatt
  obtain ⟨content, hcontent⟩ := hatt.hasSlot
  obtain ⟨hnew, hlt⟩ := h.new_of_hasSlot hslot (hasSlot_of_slotContent hcontent)
  exact hatt.not_ancestor (h.mem_ancestors hnew hlt hatt.ne_owner)

/-- Nor does it hold the copy already: what is new holds nodes from before it. -/
lemma not_mem_childrenIn (h : σ.Grows τ [copy]) (hlast : τ.size = copy.index + 1)
    (hslot : ¬ σ.HasSlot owner slot) : copy ∉ τ.childrenIn owner slot := by
  intro hmem
  obtain ⟨hnew, hlt⟩ := h.new_of_hasSlot hslot (hasSlot_of_mem hmem)
  have hbefore := h.below hnew (mem_children.mpr ⟨slot, hmem⟩)
  omega

end Grows

lemma pushChild_of_not_attachable (h : ¬ σ.Attachable owner slot child) :
    ∃ e, σ.pushChild owner slot child = (.error e, σ) := by
  rcases σ.pushChild_cases owner slot child with hrefused | ⟨index, hinsert⟩
  · exact hrefused
  · rcases σ.insertChild_cases owner slot index child with ⟨e, heq⟩ | ⟨_, -, -, hatt, -⟩
    · exact ⟨e, hinsert.trans heq⟩
    · exact absurd hatt h

lemma setChild_of_not_attachable (h : ¬ σ.Attachable owner slot child)
    (hother : child ∉ σ.childrenIn owner slot) :
    ∃ e, σ.setChild owner slot (some child) = (.error e, σ) := by
  rcases σ.setChild_cases owner slot (some child) with
    hrefused | ⟨previous, hcontent, ⟨-, hsame, -⟩ | ⟨-, hatt, -⟩⟩
  · exact hrefused
  · rw [childrenIn_of_slotContent hcontent, SlotContent.toList_link, ← hsame] at hother
    exact absurd List.mem_cons_self hother
  · exact absurd (hatt child rfl) h

/-- The first of the copies is refused, if it is ever finished. -/
lemma copyFrom_of_missing (h : ¬ σ.HasSlot owner slot) {rest : List NodeId}
    (hknown : ∀ z ∈ x :: rest, ρ.Allocated z) :
    (σ.importSubtree ρ x = none ∧ σ.copyFrom owner slot ρ (x :: rest) = none) ∨
    ∃ e τ, σ.copyFrom owner slot ρ (x :: rest) = some (.error e, τ) := by
  have hrefused : ∀ {copy grown}, σ.importSubtree ρ x = some (.ok copy, grown) →
      ¬ grown.Attachable owner slot copy ∧ copy ∉ grown.childrenIn owner slot := by
    intro copy grown himport
    have hgrows : σ.Grows grown [copy] := grows_of_copyNode himport
    exact ⟨hgrows.not_attachable h, hgrows.not_mem_childrenIn (last_of_copyNode himport).2 h⟩
  cases hlist : slot.isList with
  | true =>
    rw [copyFrom_sequence hknown hlist, appendCopies_cons]
    cases himport : σ.importSubtree ρ x with
    | none => exact Or.inl ⟨rfl, rfl⟩
    | some reply =>
      obtain ⟨e | copy, grown⟩ := reply
      · exact Or.inr ⟨e, grown, rfl⟩
      · obtain ⟨e, hpush⟩ := pushChild_of_not_attachable (hrefused himport).1
        refine Or.inr ⟨e, grown, ?_⟩
        simp only [hpush]
  | false =>
    cases rest with
    | cons y rest => exact Or.inr ⟨_, σ, copyFrom_link_many hlist hknown⟩
    | nil =>
      rw [copyFrom_link_singleton hlist (hknown x List.mem_cons_self)]
      cases himport : σ.importSubtree ρ x with
      | none => exact Or.inl ⟨rfl, rfl⟩
      | some reply =>
        obtain ⟨e | copy, grown⟩ := reply
        · exact Or.inr ⟨e, grown, rfl⟩
        · obtain ⟨hatt, hother⟩ := hrefused himport
          obtain ⟨e, hset⟩ := setChild_of_not_attachable hatt hother
          refine Or.inr ⟨e, grown, ?_⟩
          simp only [hset]
          rfl

/-! ## Copies that end -/

/-- No way down from the node comes back to where it was. -/
def NoCircleBelow (σ : Store) (x : NodeId) : Prop :=
  ∀ y, σ.Reaches x y → ¬ σ.ReachesBelow y y

/-- The copy of what has no circle below it ends, if only with an error. -/
lemma NoCircleBelow.importSubtree (h : ρ.NoCircleBelow x) (σ : Store) :
    ∃ answer τ, σ.importSubtree ρ x = some (answer, τ) := by
  -- by induction on the depth that is left; a way down as long as that has a node twice
  have hends : ∀ {depth y above σ}, ρ.Trail x y above → ρ.size < depth + above.length →
      Growth.Answers (fun _ : Unit => copyNode (.across ρ) depth y) σ
        (fun copy τ => σ.Grows τ [copy]) (· ≠ none) := by
    intro depth
    induction depth with
    | zero =>
      intro y above σ htrail hdepth
      have hbound := length_le_size_of_nodup (htrail.nodup (h _)).of_cons htrail.allocated_above
      omega
    | succ depth ih =>
      intro y above σ htrail hdepth
      refine answers_copyNode (I := fun _ copies υ => σ.Grows υ copies) (fun _ => rfl)
        (fun _ => nofun) (Grows.refl σ) ?_ fun n q υ _ hq =>
          answers_adopt hq n.span (fun _ _ hcopy _ => hcopy) fun _ => nofun
      intro n hn done c rest copies υ hsplit hgrows
      have hc : c ∈ n.payload.children := hsplit ▸ List.mem_append_right done List.mem_cons_self
      obtain ⟨slot, hslot⟩ := Payload.mem_children.mp hc
      rw [← childrenIn_of_node? hn] at hslot
      have hcopy := ih (σ := υ) (.child htrail hslot) (by rw [List.length_cons]; omega)
      exact hcopy.mono (fun copy τ hcopy => hgrows.append hcopy) fun _ h => h
  have hcopy := hends (σ := σ) .root (Nat.lt_succ_self ρ.size)
  cases hcopy with
  | ok h _ => exact ⟨_, _, h ()⟩
  | error h _ => exact ⟨_, _, h ()⟩
  | nothing _ hstop => exact absurd rfl hstop

/-! ## What is refused and what is not -/

/-- **Edits that name a slot that is not there are refused**, on every store and with whatever
arguments, but for one.  The edits that set, append, insert or remove a child leave the store as it
is and say what is missing.  A bulk copy of one node or more answers with an error if it answers,
and it answers if no circle hangs below the nodes.  A bulk copy of nothing is refused for a slot for
at most one child, and accepted for a sequence. -/
theorem missing_slot_refused (h : ¬ σ.HasSlot owner slot) :
    (∀ child, σ.setChild owner slot child = (.error (σ.addressFault owner slot), σ)) ∧
    (∀ child, σ.pushChild owner slot child = (.error (σ.addressFault owner slot), σ)) ∧
    (∀ index child,
      σ.insertChild owner slot index child = (.error (σ.addressFault owner slot), σ)) ∧
    (∀ index, σ.removeChild owner slot index = (.error (σ.addressFault owner slot), σ)) ∧
    (∀ (ρ : Store) (sources : List NodeId), sources ≠ [] → (∀ x ∈ sources, ρ.Allocated x) →
      (∀ answer τ, σ.copyFrom owner slot ρ sources = some (answer, τ) → ∃ e, answer = .error e) ∧
      ((∀ x ∈ sources, ρ.NoCircleBelow x) →
        ∃ e τ, σ.copyFrom owner slot ρ sources = some (.error e, τ))) ∧
    ∀ ρ : Store, σ.copyFrom owner slot ρ [] =
      if slot.isList then some (.ok (), σ) else some (.error (σ.addressFault owner slot), σ) := by
  refine ⟨setChild_of_missing h, pushChild_of_missing h, insertChild_of_missing h,
    removeChild_of_missing h, fun ρ sources hsome hknown => ?_, fun ρ => ?_⟩
  · obtain ⟨x, rest, rfl⟩ := List.exists_cons_of_ne_nil hsome
    rcases copyFrom_of_missing h hknown with ⟨himport, hnone⟩ | ⟨e, υ, herror⟩
    · refine ⟨fun answer τ hanswer => ?_, fun hends => ?_⟩
      · rw [hnone] at hanswer
        cases hanswer
      · obtain ⟨answer, τ, hanswer⟩ := (hends x List.mem_cons_self).importSubtree σ
        rw [himport] at hanswer
        cases hanswer
    · refine ⟨fun answer τ hanswer => ⟨e, ?_⟩, fun _ => ⟨e, υ, herror⟩⟩
      rw [herror] at hanswer
      exact (congrArg Prod.fst (Option.some.inj hanswer)).symm
  · cases hlist : slot.isList with
    | true =>
      rw [copyFrom_sequence (List.forall_mem_nil _) hlist]
      rfl
    | false =>
      rw [copyFrom_link_nil hlist, setChild_of_missing h]
      rfl

/-- The empty store has no node, so nothing goes below its first identifier.  A type that is copied
there gets that identifier, and it is refused as a member of its own. -/
theorem missing_slot_refused_of_first_node : ∃ ρ τ : Store,
    ¬ Store.empty.HasSlot ⟨0⟩ .members ∧ ρ.Allocated ⟨0⟩ ∧
    Store.empty.pushChild ⟨0⟩ .members ⟨0⟩ = (.error (.unknownNode ⟨0⟩), .empty) ∧
    Store.empty.copyFrom ⟨0⟩ .members ρ [⟨0⟩] = some (.error (.cycle ⟨0⟩ ⟨0⟩), τ) ∧
    τ.HasSlot ⟨0⟩ .members := by
  let type : Payload := .type ⟨.classForm, "A", ⟨"A"⟩, []⟩
  let ρ : Store := ⟨#[⟨type, .dummy, none⟩], by decide⟩
  have hmissing : ¬ Store.empty.HasSlot ⟨0⟩ .members := fun h => absurd h.allocated (by decide)
  have hknown : ∀ x ∈ [(⟨0⟩ : NodeId)], ρ.Allocated x := by decide
  obtain ⟨-, hpush, -, -, hcopy, -⟩ := missing_slot_refused hmissing
  obtain ⟨hrefused, -⟩ := hcopy ρ [⟨0⟩] (by decide) hknown
  obtain ⟨e, he⟩ := hrefused _ _ rfl
  obtain rfl : TreeError.cycle ⟨0⟩ ⟨0⟩ = e := Except.error.inj he
  exact ⟨ρ, _, hmissing, by decide, hpush ⟨0⟩, rfl, ⟨_, rfl, by decide⟩⟩

/-- A bulk copy of nothing is accepted for the members of a node that is not there, and for the
members of a method. -/
theorem copyFrom_nil_accepted : ∃ σ : Store,
    ¬ σ.Allocated ⟨1⟩ ∧ σ.kind? ⟨0⟩ = some .method ∧
    ¬ σ.HasSlot ⟨1⟩ .members ∧ σ.copyFrom ⟨1⟩ .members σ [] = some (.ok (), σ) ∧
    ¬ σ.HasSlot ⟨0⟩ .members ∧ σ.copyFrom ⟨0⟩ .members σ [] = some (.ok (), σ) := by
  refine ⟨⟨#[⟨.method ⟨"run", [], false⟩, .dummy, none⟩], by decide⟩, by decide, rfl,
    fun h => ?_, rfl, ?_, rfl⟩
  · exact absurd h.allocated (by decide)
  · rintro ⟨n, hn, hslot⟩
    obtain rfl := Option.some.inj hn
    exact absurd hslot (by decide)

end DeclTree.Store
