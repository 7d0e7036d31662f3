import Mathlib.Algebra.GroupWithZero.Nat
import Mathlib.Logic.Function.Iterate
import DeclTree.Proofs.Store.Descendants

/-!
# Collecting is a depth-first search

The collection of `DeclTree.Store.Descendants` is a loop: it keeps a stack on which an identifier
may stand many times, and it marks an identifier when it takes it from the stack.  The recursive
search has no stack: it marks a node, and then goes to its children one after the other, each search
knowing what the searches before it have met.  On every store both meet the same nodes in the same
order.

The loop with the stack `ids` is the recursive search from each of `ids` in turn: the stack holds
what the pending searches have still to go to, the innermost first.
-/

namespace DeclTree.Store

variable {σ : Store} {root id : NodeId} {ids ids' stack seen : List NodeId}

/-! ## The recursive search -/

mutual

/-- What has been met, the latest first, when the search from a node is over, if it begins with
what is `seen`. -/
def searchFrom (σ : Store) (id : NodeId) (seen : List NodeId) :
    {met : List NodeId // σ.unseenCount met ≤ σ.unseenCount seen} :=
  if _h : σ.Allocated id ∧ id ∉ seen then
    let met := searchEach σ (σ.children id) (id :: seen)
    ⟨met.1, Nat.le_trans met.2 (unseenCount_cons_le σ id seen)⟩
  else ⟨seen, Nat.le_refl _⟩
termination_by (σ.unseenCount seen, 0)
decreasing_by exact Prod.Lex.left _ _ (unseenCount_cons_lt _h.1 _h.2)

/-- The searches from several nodes, one after the other. -/
def searchEach (σ : Store) (ids : List NodeId) (seen : List NodeId) :
    {met : List NodeId // σ.unseenCount met ≤ σ.unseenCount seen} :=
  match ids with
  | [] => ⟨seen, Nat.le_refl _⟩
  | id :: rest =>
    let first := searchFrom σ id seen
    let met := searchEach σ rest first.1
    ⟨met.1, Nat.le_trans met.2 first.2⟩
termination_by (σ.unseenCount seen, ids.length)
decreasing_by
  · exact Prod.Lex.right _ (by simp)
  · exact Prod.Lex.right' _ first.2 (by simp)

end

/-- What has been met, the latest first, when the search from a node is over. -/
def search (σ : Store) (id : NodeId) (seen : List NodeId) : List NodeId := (searchFrom σ id seen).1

/-- The nodes in the order in which the recursive search from `root` meets them. -/
def depthFirst (σ : Store) (root : NodeId) : List NodeId := (σ.search root []).reverse

lemma searchEach_eq_foldl (σ : Store) (ids seen : List NodeId) :
    (searchEach σ ids seen).1 = ids.foldl (fun met id => σ.search id met) seen := by
  induction ids generalizing seen with
  | nil => rw [searchEach]; rfl
  | cons id rest ih => rw [searchEach]; exact ih _

/-- **The recursive search**: a node that is there and was not seen is met, and then what its
children lead to, one child after the other. -/
theorem search_eq (σ : Store) (id : NodeId) (seen : List NodeId) :
    σ.search id seen =
      if σ.Allocated id ∧ id ∉ seen then
        (σ.children id).foldl (fun met child => σ.search child met) (id :: seen)
      else seen := by
  rw [search, searchFrom]
  split_ifs
  · exact searchEach_eq_foldl σ _ _
  · rfl

/-! ## The loop -/

/-- The loop goes on with the searches from what is stacked. -/
lemma collect_eq_foldl (σ : Store) (stack seen : List NodeId) :
    σ.collect stack seen = (stack.foldl (fun met id => σ.search id met) seen).reverse := by
  induction stack, seen using collect.induct σ with
  | case1 seen => rw [collect, List.foldl_nil]
  | case2 id stack seen hid ih =>
    rw [collect_cons_of_fresh hid, ih, List.foldl_append, List.foldl_cons, search_eq, if_pos hid]
  | case3 id stack seen hid ih =>
    rw [collect_cons_of_not_fresh hid, ih, List.foldl_cons, search_eq, if_neg hid]

/-- One turn of the loop, on the stack and on what was collected so far, the latest first. -/
def collectStep (σ : Store) : List NodeId × List NodeId → List NodeId × List NodeId
  | ([], seen) => ([], seen)
  | (id :: stack, seen) =>
    if σ.Allocated id ∧ id ∉ seen then (σ.children id ++ stack, id :: seen) else (stack, seen)

/-- How many children the nodes have, all in all. -/
def childCount (σ : Store) (ids : List NodeId) : Nat :=
  (ids.map fun id => (σ.children id).length).sum

/-- Each turn takes one identifier from the stack, and only a node that is collected puts some
there. -/
lemma iterate_collectStep (σ : Store) (stack seen : List NodeId) :
    ∃ found, σ.collect stack seen = seen.reverse ++ found ∧
      σ.collectStep^[stack.length + σ.childCount found] (stack, seen) =
        ([], (σ.collect stack seen).reverse) := by
  induction stack, seen using collect.induct σ with
  | case1 seen => exact ⟨[], by simp [collect], by simp [collect, childCount]⟩
  | case2 id stack seen hid ih =>
    obtain ⟨found, hfound, hrun⟩ := ih
    rw [collect_cons_of_fresh hid]
    refine ⟨id :: found, by rw [hfound, List.reverse_cons, List.append_assoc]; rfl, ?_⟩
    have hcount : (id :: stack).length + σ.childCount (id :: found) =
        (σ.children id ++ stack).length + σ.childCount found + 1 := by
      simp only [childCount, List.map_cons, List.sum_cons, List.length_cons, List.length_append]
      omega
    rw [hcount, Function.iterate_succ_apply, collectStep, if_pos hid, hrun]
  | case3 id stack seen hid ih =>
    obtain ⟨found, hfound, hrun⟩ := ih
    rw [collect_cons_of_not_fresh hid]
    refine ⟨found, hfound, ?_⟩
    have hcount : (id :: stack).length + σ.childCount found =
        stack.length + σ.childCount found + 1 := by
      rw [List.length_cons]
      omega
    rw [hcount, Function.iterate_succ_apply, collectStep, if_neg hid, hrun]

/-- **Descendants are collected in depth-first order**, on every store, also on one with circles,
shared nodes and unknown identifiers.  The loop is over after one turn for the root and one for each
child of a descendant.  No descendant is listed twice; they are the nodes that can be reached, none
if the root is unknown; and they are listed in the order in which the recursive search meets them,
which skips what it has met before. -/
theorem descendants_depthFirst (σ : Store) (root : NodeId) :
    σ.collectStep^[1 + σ.childCount (σ.descendants root)] ([root], []) =
      ([], (σ.descendants root).reverse) ∧
    (σ.descendants root).Nodup ∧
    (∀ id, id ∈ σ.descendants root ↔ σ.Reaches root id ∧ σ.Allocated id) ∧
    (σ.descendants root = [] ↔ ¬ σ.Allocated root) ∧
    σ.descendants root = σ.depthFirst root ∧
    ∀ id seen, σ.search id seen =
      if σ.Allocated id ∧ id ∉ seen then
        (σ.children id).foldl (fun met child => σ.search child met) (id :: seen)
      else seen := by
  refine ⟨?_, σ.nodup_descendants root, fun id => mem_descendants_iff, ?_,
    σ.collect_eq_foldl [root] [], σ.search_eq⟩
  · obtain ⟨found, hfound, hrun⟩ := σ.iterate_collectStep [root] []
    obtain rfl : σ.descendants root = found := hfound
    exact hrun
  · constructor
    · intro hnone hroot
      have hmem := mem_descendants_iff.mpr ⟨.refl, hroot⟩
      rw [hnone] at hmem
      exact List.not_mem_nil hmem
    · intro hroot
      rw [descendants, collect_cons_of_not_fresh fun hfresh => hroot hfresh.1, collect]
      rfl

end DeclTree.Store
