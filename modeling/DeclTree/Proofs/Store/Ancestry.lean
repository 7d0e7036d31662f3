import DeclTree.Proofs.Store.Descendants
import DeclTree.Proofs.Store.Runs

/-!
# Looking up and looking down

Parent links and slots are two records of one structure, and two listings read them: `ancestors`
follows parent links upwards and marks nothing, `descendants` goes down the slots.  In a forest the
way up ends, at a node that is not attached, and both listings tell the same: `x` is above `y`
exactly if `y` is below `x`.  So every node belongs to the tree of one unattached node.
-/

namespace DeclTree.Store

variable {σ : Store} {x y r : NodeId} {above : List NodeId}

/-! ## The way up -/

/-- The owners above a node, each the owner of the one before, up to a node that is not attached. -/
inductive OwnerChain (σ : Store) : (id : NodeId) → (above : List NodeId) → Prop
  | top {id : NodeId} (h : σ.parent? id = none) : OwnerChain σ id []
  | owned {id owner : NodeId} {slot : Slot} {above : List NodeId}
    (h : σ.parent? id = some ⟨owner, slot⟩) (hrest : OwnerChain σ owner above) :
    OwnerChain σ id (owner :: above)

namespace OwnerChain

lemma parent?_last (h : σ.OwnerChain y above) : σ.parent? (above.getLastD y) = none := by
  induction h with
  | top h => exact h
  | owned _ _ ih => rwa [List.getLastD_cons]

/-- There is one way up. -/
lemma eq_last_of_climbs (h : σ.OwnerChain y above)
    (hclimbs : Relation.ReflTransGen σ.OwnedBy y r) (hr : σ.parent? r = none) :
    r = above.getLastD y := by
  induction h with
  | top h =>
    rcases Relation.ReflTransGen.cases_head hclimbs with rfl | ⟨owner, ⟨slot, hslot⟩, -⟩
    · rfl
    · rw [h] at hslot
      cases hslot
  | owned h _ ih =>
    rw [List.getLastD_cons]
    rcases Relation.ReflTransGen.cases_head hclimbs with rfl | ⟨owner, ⟨slot, hslot⟩, hrest⟩
    · rw [h] at hr
      cases hr
    · rw [h] at hslot
      obtain ⟨rfl, -⟩ := ParentLink.mk.inj (Option.some.inj hslot)
      exact ih hrest

end OwnerChain

/-- Looking at so many owners shows all of them, or so many. -/
lemma ownerChain_or_length (σ : Store) (k : Nat) (x : NodeId) :
    σ.OwnerChain x (σ.ownersAbove k x) ∨ (σ.ownersAbove k x).length = k := by
  induction k generalizing x with
  | zero => exact Or.inr rfl
  | succ k ih =>
    cases hp : σ.parent? x with
    | none =>
      rw [ownersAbove, hp]
      exact Or.inl (.top hp)
    | some link =>
      simp only [ownersAbove, hp, List.length_cons, Nat.add_right_cancel_iff]
      exact (ih link.owner).imp_left (.owned hp)

namespace Forest

/-- A node and the nodes above it are nodes of the store. -/
lemma allocated_of_mem_ancestors (hf : σ.Forest) (hy : σ.Allocated y)
    (hx : x ∈ y :: σ.ancestors y) : σ.Allocated x := by
  rcases List.mem_cons.mp hx with rfl | hx
  · exact hy
  · exact hf.allocated_of_under (under_of_mem_ownersAbove hx)

/-- There are fewer nodes above a node than there are nodes. -/
lemma length_ancestors_lt (hf : σ.Forest) (hy : σ.Allocated y) :
    (σ.ancestors y).length < σ.size :=
  length_le_size_of_nodup (hf.nodup_ownersAbove σ.size y) fun _ =>
    hf.allocated_of_mem_ancestors hy

/-- **The way up from a node of a forest ends, and `ancestors` lists all of it.** -/
theorem ownerChain_ancestors (hf : σ.Forest) (hy : σ.Allocated y) :
    σ.OwnerChain y (σ.ancestors y) := by
  rcases σ.ownerChain_or_length σ.size y with hchain | hlength
  · exact hchain
  · exact absurd hlength (Nat.ne_of_lt (hf.length_ancestors_lt hy))

/-- The topmost node is not attached. -/
lemma unattached_last (hf : σ.Forest) (hy : σ.Allocated y) :
    ∃ n, σ.node? ((σ.ancestors y).getLastD y) = some n ∧ n.parent = none := by
  obtain ⟨n, hn⟩ := exists_node_iff.mpr
    (hf.allocated_of_mem_ancestors hy List.getLastD_mem_cons)
  refine ⟨n, hn, ?_⟩
  rw [← parent?_of_node? hn, (hf.ownerChain_ancestors hy).parent?_last]

/-! ## Both ways -/

/-- **A node is above another exactly if the other is below it.** -/
theorem mem_ancestors_iff_mem_descendants (hf : σ.Forest) (hy : σ.Allocated y) :
    x ∈ σ.ancestors y ↔ x ≠ y ∧ y ∈ σ.descendants x := by
  rw [mem_descendants_iff, hf.reaches_iff]
  constructor
  · intro hmem
    have hne : x ≠ y := by
      rintro rfl
      exact hf.acyclic x (hf.mem_ancestors_iff.mp hmem)
    exact ⟨hne, Or.inr hmem, hy⟩
  · rintro ⟨hne, rfl | hmem, -⟩
    · exact absurd rfl hne
    · exact hmem

/-- **Every node is below exactly one unattached node**, the topmost on its way up. -/
theorem existsUnique_root (hf : σ.Forest) (hy : σ.Allocated y) :
    ∃! r, (∃ n, σ.node? r = some n ∧ n.parent = none) ∧ y ∈ σ.descendants r := by
  have habove : σ.Reaches ((σ.ancestors y).getLastD y) y :=
    hf.reaches_iff.mpr ((List.mem_cons.mp List.getLastD_mem_cons).imp_left Eq.symm)
  refine ⟨_, ⟨hf.unattached_last hy, mem_descendants_iff.mpr ⟨habove, hy⟩⟩, ?_⟩
  rintro r ⟨⟨n, hn, hparent⟩, hbelow⟩
  have hclimbs := hf.climbs_of_reaches (mem_descendants_iff.mp hbelow).1
  rw [← parent?_of_node? hn] at hparent
  exact (hf.ownerChain_ancestors hy).eq_last_of_climbs hclimbs hparent

end Forest

/-- **Parent links and slots describe the same forest**, on every store that clients can build.  The
way up from a node ends at an unattached node and meets no node twice; what is above a node has the
node below it and the other way round; and every node is below exactly one unattached node. -/
theorem Reachable.up_and_down_agree (h : σ.Reachable) :
    (∀ y, σ.Allocated y → σ.OwnerChain y (σ.ancestors y) ∧ (y :: σ.ancestors y).Nodup ∧
      (σ.ancestors y).length < σ.size ∧
      ∃ n, σ.node? ((σ.ancestors y).getLastD y) = some n ∧ n.parent = none) ∧
    (∀ x y, σ.Allocated x → σ.Allocated y →
      (x ∈ σ.ancestors y ↔ x ≠ y ∧ y ∈ σ.descendants x)) ∧
    ∀ y, σ.Allocated y →
      ∃! r, (∃ n, σ.node? r = some n ∧ n.parent = none) ∧ y ∈ σ.descendants r := by
  have hf := h.forest
  refine ⟨fun y hy => ⟨hf.ownerChain_ancestors hy, hf.nodup_ownersAbove σ.size y,
    hf.length_ancestors_lt hy, hf.unattached_last hy⟩, fun x y _ hy => ?_, fun y hy => ?_⟩
  · exact hf.mem_ancestors_iff_mem_descendants hy
  · exact hf.existsUnique_root hy

/-- A method in a nested type, beside a loose method. -/
theorem up_and_down_agree_of_nested_type : ∃ σ : Store, σ.Reachable ∧
    σ.ancestors ⟨2⟩ = [⟨1⟩, ⟨0⟩] ∧ σ.OwnerChain ⟨2⟩ [⟨1⟩, ⟨0⟩] ∧ ⟨2⟩ ∈ σ.descendants ⟨0⟩ ∧
    ∃! r, (∃ n, σ.node? r = some n ∧ n.parent = none) ∧ ⟨2⟩ ∈ σ.descendants r := by
  let type (members : List NodeId) : Payload := .type ⟨.classForm, "A", ⟨"A"⟩, members⟩
  let method : Payload := .method ⟨"run", [], false⟩
  let σ : Store := ⟨#[⟨type [⟨1⟩], .dummy, none⟩, ⟨type [⟨2⟩], .dummy, some ⟨⟨0⟩, .members⟩⟩,
    ⟨method, .dummy, some ⟨⟨1⟩, .members⟩⟩, ⟨method, .dummy, none⟩], by decide⟩
  have hσ : σ.Reachable := by
    have hσ := Reachable.empty.step (.alloc (type []) .dummy) nofun rfl
    have hσ := hσ.step (.alloc (type []) .dummy) nofun rfl
    have hσ := hσ.step (.alloc method .dummy) nofun rfl
    have hσ := hσ.step (.alloc method .dummy) nofun rfl
    have hσ := hσ.step (.pushChild ⟨0⟩ .members ⟨1⟩) nofun rfl
    have hσ := hσ.step (.pushChild ⟨1⟩ .members ⟨2⟩) nofun rfl
    obtain ⟨τ, hτ, rfl⟩ : ∃ τ : Store, τ.Reachable ∧ τ = σ := ⟨_, hσ, by decide +kernel⟩
    exact hτ
  obtain ⟨hup, hboth, hroot⟩ := hσ.up_and_down_agree
  have habove : σ.ancestors ⟨2⟩ = [⟨1⟩, ⟨0⟩] := rfl
  have hchain := (hup ⟨2⟩ (by decide)).1
  have hbelow := (hboth ⟨0⟩ ⟨2⟩ (by decide) (by decide)).mp (habove ▸ by decide)
  exact ⟨σ, hσ, habove, habove ▸ hchain, hbelow.2, hroot ⟨2⟩ (by decide)⟩

end DeclTree.Store
