import DeclTree.Store.Basic

/-!
# Reachable nodes

The nodes below a node are collected with a stack of identifiers still to look at.  An
identifier is marked when it is taken from the stack, so the collection ends on every store:
each step marks a node that was not marked before or shortens the stack.
-/

namespace DeclTree.Store

/-- The number of nodes that are not among `seen`. -/
def unseenCount (σ : Store) (seen : List NodeId) : Nat :=
  (σ.ids.filter fun id => decide (id ∉ seen)).length

theorem mem_ids {σ : Store} {id : NodeId} : id ∈ σ.ids ↔ σ.Allocated id := by
  constructor
  · intro h
    obtain ⟨i, hi, rfl⟩ := List.mem_map.1 h
    exact List.mem_range.1 hi
  · intro h
    exact List.mem_map.2 ⟨id.index, List.mem_range.2 h, rfl⟩

/-- Marking more nodes never raises the number of unmarked ones. -/
theorem unseenCount_cons_le (σ : Store) (id : NodeId) (seen : List NodeId) :
    σ.unseenCount (id :: seen) ≤ σ.unseenCount seen := by
  unfold unseenCount
  rw [← List.countP_eq_length_filter, ← List.countP_eq_length_filter]
  refine List.countP_mono_left fun x _ h => ?_
  simp at h ⊢
  exact h.2

/-- Marking a node that was not marked lowers the number of unmarked ones. -/
theorem unseenCount_cons_lt {σ : Store} {id : NodeId} {seen : List NodeId}
    (known : σ.Allocated id) (fresh : id ∉ seen) :
    σ.unseenCount (id :: seen) < σ.unseenCount seen := by
  unfold unseenCount
  have split : σ.ids.filter (fun x => decide (x ∉ id :: seen)) =
      (σ.ids.filter fun x => decide (x ∉ seen)).filter fun x => decide (x ≠ id) := by
    rw [List.filter_filter]
    refine List.filter_congr fun x _ => ?_
    simp
  rw [split]
  refine List.length_filter_lt_length_iff_exists.2 ⟨id, ?_, by simp⟩
  exact List.mem_filter.2 ⟨mem_ids.2 known, by simpa using fresh⟩

/-- Collects the nodes that can be reached from a stack of identifiers, in addition to those
collected so far; `seen` holds the latter, the latest first. -/
def collect (σ : Store) : (stack : List NodeId) → (seen : List NodeId) → List NodeId
  | [], seen => seen.reverse
  | id :: stack, seen =>
    if σ.Allocated id ∧ id ∉ seen then
      σ.collect (σ.children id ++ stack) (id :: seen)
    else
      σ.collect stack seen
termination_by stack seen => (σ.unseenCount seen, stack.length)
decreasing_by
  · rename_i h
    exact Prod.Lex.left _ _ (unseenCount_cons_lt h.1 h.2)
  · exact Prod.Lex.right _ (by simp)

/-- The nodes that can be reached from `root` through slots, the root first, in pre-order. -/
def descendants (σ : Store) (root : NodeId) : List NodeId := σ.collect [root] []

end DeclTree.Store
