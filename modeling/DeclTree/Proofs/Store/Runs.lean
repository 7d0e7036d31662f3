import Mathlib.Logic.Function.Basic
import DeclTree.Proofs.Store.Growing
import DeclTree.Store.Edit

/-!
# Runs of edits

Whatever clients do with edits, each store stays a forest.  One step is `Forest.keepsForest_apply`,
which goes through the edits once.  Two notions of a run are built on it: `Store.FamilyRun` follows
a family of stores that are edited in turn and copied from each other, and `Store.Reachable` says of
a single store that such a run may have built it.
-/

namespace DeclTree.Store

variable {σ τ ρ : Store} {x : NodeId}

/-! ## One edit -/

/-- **An edit of a forest ends, carried out or refused, and leaves a forest that extends it.** -/
theorem Forest.keepsForest_apply (hf : σ.Forest) (edit : Edit)
    (hsources : ∀ ρ ∈ edit.readsFrom, ρ.Forest) : σ.KeepsForest (edit.apply σ) := by
  cases edit with
  | alloc p span => exact ⟨_, _, rfl, hf.alloc p span, (retains_alloc σ p span).extends⟩
  | update id f =>
    exact ⟨_, _, rfl, hf.update (fun p => ((), f p)) id, extends_update (fun p => ((), f p)) σ id⟩
  | setChild owner slot child =>
    exact (hf.keepsForest_moved (moves_setChild σ owner slot child)).map Answer.occupant
  | pushChild owner slot child =>
    exact (hf.keepsForest_moved (moves_pushChild hf owner slot child)).map fun _ => Answer.done
  | insertChild owner slot index child =>
    exact (hf.keepsForest_moved (moves_insertChild hf owner slot index child)).map fun _ =>
      Answer.done
  | removeChild owner slot index =>
    exact (hf.keepsForest_moved (moves_removeChild hf owner slot index)).map Answer.node
  | detach id => exact (hf.keepsForest_moved (moves_detach hf id)).map Answer.link
  | replace old new =>
    exact (hf.keepsForest_moved (moves_replace hf old new)).map fun _ => Answer.done
  | copySubtree id => exact (hf.keepsForest_copySubtree id).map Answer.node
  | importSubtree source id =>
    have hsource : source.Forest := hsources source (List.mem_singleton.mpr rfl)
    exact (hf.keepsForest_importSubtree hsource id).map Answer.node
  | copyFrom owner slot source sources =>
    have hsource : source.Forest := hsources source (List.mem_singleton.mpr rfl)
    exact (hf.keepsForest_copyFrom hsource owner slot sources).map fun _ => Answer.done

lemma Forest.of_apply (hf : σ.Forest) {edit : Edit} {answer : Except TreeError Answer}
    (hsources : ∀ ρ ∈ edit.readsFrom, ρ.Forest) (happly : edit.apply σ = some (answer, τ)) :
    τ.Forest ∧ σ.Extends τ := by
  obtain ⟨answer', τ', happly', hforest, hextends⟩ := hf.keepsForest_apply edit hsources
  rw [happly] at happly'
  obtain ⟨-, rfl⟩ := Prod.mk.inj (Option.some.inj happly')
  exact ⟨hforest, hextends⟩

/-! ## Stores that clients can build -/

/-- The store can be built from an empty one by edits that read from such stores only. -/
inductive Reachable : Store → Prop
  | empty : Reachable .empty
  | step {σ τ : Store} {answer : Except TreeError Answer} (h : Reachable σ) (edit : Edit)
    (hsources : ∀ ρ ∈ edit.readsFrom, Reachable ρ) (happly : edit.apply σ = some (answer, τ)) :
    Reachable τ

theorem Reachable.forest (h : σ.Reachable) : σ.Forest := by
  induction h with
  | empty => exact forest_empty
  | step _ _ _ happly ih ihsources => exact (ih.of_apply ihsources happly).1

lemma Reachable.extends_of_apply (h : σ.Reachable) {edit : Edit}
    {answer : Except TreeError Answer} (hsources : ∀ ρ ∈ edit.readsFrom, ρ.Reachable)
    (happly : edit.apply σ = some (answer, τ)) : σ.Extends τ :=
  (h.forest.of_apply (fun ρ hρ => (hsources ρ hρ).forest) happly).2

/-! ## Families of stores -/

/-- The stores of the family are built from empty ones by edits, one edit of one store at a time;
an edit reads from stores of the family only. -/
inductive FamilyRun {ι : Type} [DecidableEq ι] : (ι → Store) → Prop
  | start : FamilyRun fun _ => .empty
  | step {family : ι → Store} {answer : Except TreeError Answer} {after : Store}
    (h : FamilyRun family) (i : ι) (edit : Edit)
    (hsources : ∀ ρ ∈ edit.readsFrom, ∃ j, ρ = family j)
    (happly : edit.apply (family i) = some (answer, after)) :
    FamilyRun (Function.update family i after)

section Family

variable {ι : Type} [DecidableEq ι] {family : ι → Store}

/-- Every store of a family is one that clients can build. -/
lemma FamilyRun.reachable (h : FamilyRun family) (i : ι) : (family i).Reachable := by
  induction h generalizing i with
  | start => exact .empty
  | @step family _ _ _ j edit hsources happly ih =>
    -- only store `j` changes, and what it reads are stores of before
    by_cases hij : i = j
    · subst hij
      rw [Function.update_self]
      refine .step (ih i) edit (fun ρ hρ => ?_) happly
      obtain ⟨k, rfl⟩ := hsources ρ hρ
      exact ih k
    · rw [Function.update_of_ne hij]
      exact ih i

/-- What `detach` asserts about the link that it clears: the occupant is the node to detach. -/
def DetachAssertion (σ : Store) : Prop :=
  ∀ {id link occupant}, σ.parent? id = some link →
    σ.slotContent link.owner link.slot = .ok (.link occupant) → occupant = some id

lemma Forest.detachAssertion (hf : σ.Forest) : σ.DetachAssertion := by
  intro id link occupant hlink hcontent
  have hheld := hf.held hlink
  rw [childrenIn_of_slotContent hcontent] at hheld
  simpa using hheld

/-- **Every store of a family is a forest after every run.**  The run may have edits that were
refused, and copies that stopped halfway for want of identifiers and left the nodes made so far.
The next edit ends whatever it is, an identifier stands at one position at most, and `detach` finds
what it asserts. -/
theorem FamilyRun.wellFormed (h : FamilyRun family) (i : ι) :
    (family i).Forest ∧
    (∀ {o₁ o₂ s₁ s₂ c} {k₁ k₂ : Nat}, ((family i).childrenIn o₁ s₁)[k₁]? = some c →
      ((family i).childrenIn o₂ s₂)[k₂]? = some c → o₁ = o₂ ∧ s₁ = s₂ ∧ k₁ = k₂) ∧
    (family i).DetachAssertion ∧
    ∀ edit : Edit, (∀ ρ ∈ edit.readsFrom, ∃ j, ρ = family j) →
      ∃ answer after, edit.apply (family i) = some (answer, after) := by
  have hforest := (h.reachable i).forest
  refine ⟨hforest, hforest.position_unique, hforest.detachAssertion, fun edit hsources => ?_⟩
  have hsources' : ∀ ρ ∈ edit.readsFrom, ρ.Forest := by
    intro ρ hρ
    obtain ⟨j, rfl⟩ := hsources ρ hρ
    exact (h.reachable j).forest
  obtain ⟨answer, after, happly, -⟩ := hforest.keepsForest_apply edit hsources'
  exact ⟨answer, after, happly⟩

/-- A method is attached to a type of one store, and the type is copied into another. -/
theorem familyRun_wellFormed_of_import : ∃ family : Bool → Store, FamilyRun family ∧
    (family true).childrenIn ⟨1⟩ .members = [⟨0⟩] ∧ (family true).Forest := by
  let type : Payload := .type ⟨.classForm, "A", ⟨"A"⟩, []⟩
  let method : Payload := .method ⟨"run", [], false⟩
  have hrun : FamilyRun fun _ : Bool => Store.empty := .start
  have hrun := hrun.step false (.alloc type .dummy) nofun rfl
  have hrun := hrun.step false (.alloc method .dummy) nofun rfl
  have hrun := hrun.step false (.pushChild ⟨0⟩ .members ⟨1⟩) nofun rfl
  have hrun := hrun.step true (.importSubtree _ ⟨0⟩)
    (fun ρ hρ => ⟨false, List.mem_singleton.mp hρ⟩) rfl
  exact ⟨_, hrun, by decide +kernel, (hrun.wellFormed true).1⟩

end Family

/-! ## Deep copies -/

/-- Stores fill up. -/
lemma Reachable.exists_size (h : σ.Reachable) {size : Nat} (hle : σ.size ≤ size)
    (hbound : size ≤ NodeId.bound) : ∃ τ : Store, τ.Reachable ∧ τ.size = size ∧
      ∀ id n, σ.node? id = some n → τ.node? id = some n := by
  induction hle with
  | refl => exact ⟨σ, h, rfl, fun _ _ hn => hn⟩
  | step _ ih =>
    obtain ⟨τ, hτ, rfl, hkept⟩ := ih (Nat.le_of_succ_le hbound)
    have room : τ.HasRoom 1 := hbound
    have hnext := hτ.step (.alloc (.package ⟨""⟩) .dummy) nofun rfl
    rw [alloc_of_room _ _ room] at hnext
    exact ⟨_, hnext, size_push τ _ room, fun id n hn => node?_push_of_node? _ room (hkept id n hn)⟩

/-- A type with a method in it, in a store with one identifier left: no room for a copy. -/
lemma exists_reachable_without_room : ∃ σ : Store, σ.Reachable ∧ σ.Allocated ⟨0⟩ ∧
    σ.childrenIn ⟨0⟩ .members = [⟨1⟩] ∧ σ.size + 1 = NodeId.bound ∧
    ¬ σ.HasRoom (σ.postOrder ⟨0⟩).length := by
  have hσ := Reachable.empty.step (.alloc (.type ⟨.classForm, "A", ⟨"A"⟩, []⟩) .dummy) nofun rfl
  have hσ := hσ.step (.alloc (.method ⟨"run", [], false⟩) .dummy) nofun rfl
  have hσ := hσ.step (.pushChild ⟨0⟩ .members ⟨1⟩) nofun rfl
  have hbound : NodeId.bound - 1 ≤ NodeId.bound := Nat.sub_le _ 1
  obtain ⟨σ, hσ', hsize, hkept⟩ := hσ.exists_size (by decide) hbound
  have hfull : σ.size + 1 = NodeId.bound := by
    rw [hsize]
    decide
  have htype := hkept ⟨0⟩ _ rfl
  have hmembers : σ.childrenIn ⟨0⟩ .members = [⟨1⟩] := childrenIn_of_node? htype .members
  have halloc := allocated_of_node? htype
  refine ⟨σ, hσ', halloc, hmembers, hfull, fun room => ?_⟩
  -- the type and its method are two nodes
  have htree := hσ'.forest.treeAt halloc
  have hmethod : σ.Reaches ⟨0⟩ ⟨1⟩ :=
    .single (mem_children.mpr ⟨.members, hmembers ▸ List.mem_singleton.mpr rfl⟩)
  have hsub : [⟨0⟩, ⟨1⟩] ⊆ σ.postOrder ⟨0⟩ := by
    simp only [List.cons_subset, List.nil_subset, and_true]
    exact ⟨htree.mem_postOrder.mpr .refl, htree.mem_postOrder.mpr hmethod⟩
  have htwo : 2 ≤ (σ.postOrder ⟨0⟩).length := (List.Nodup.subperm (by decide) hsub).length_le
  rw [HasRoom] at room
  omega

end DeclTree.Store
