import Mathlib.Tactic.Lemma
import Mathlib.Tactic.SplitIfs
import DeclTree.CompilationUnit.Walk

/-!
# The steps of a walk

A walk and the scripts of its hooks call each other.  The lemmas here say what each of them does
before it calls the next: one for each step of a script that may not answer, one for the children
still to walk, and one for the walk of a node.  Each comes as an equation and, for walks that end,
as an equivalence.  Proofs about all passes go through these and never look into a walk.
-/

namespace DeclTree

variable {S R : Type} {walk : NodeId → S → CompilationUnit → Option (S × CompilationUnit)}
  {u v : CompilationUnit}

namespace Script

lemma run_edit_eq_some_iff {change : UnitEdit} {next : Except TreeError Answer → Script S R}
    {result : R} :
    (Script.edit change next).run walk u = some (result, v) ↔
      ∃ answer after, change.apply u = some (answer, after) ∧
        (next answer).run walk after = some (result, v) := by
  rw [run]
  cases change.apply u with
  | none => simp
  | some reply =>
    obtain ⟨answer, after⟩ := reply
    simp [and_assoc]

lemma run_walk (id : NodeId) (state : S) (next : S → Script S R) :
    (Script.walk id state next).run walk u =
      (walk id state u).bind fun reply => (next reply.1).run walk reply.2 := by
  rw [run]
  cases walk id state u <;> rfl

lemma run_walk_eq_some_iff {id : NodeId} {state : S} {next : S → Script S R} {result : R} :
    (Script.walk id state next).run walk u = some (result, v) ↔
      ∃ state' after, walk id state u = some (state', after) ∧
        (next state').run walk after = some (result, v) := by
  rw [run_walk, Option.bind_eq_some_iff, Prod.exists]

end Script

namespace Visitor

/-- The first of the children is walked if it belongs to the owner still. -/
lemma walkChildren_cons (owner child : NodeId) (rest : List NodeId) (state : S) :
    walkChildren walk owner (child :: rest) state u =
      if (u.tree.parent? child).map ParentLink.owner = some owner then
        (walk child state u).bind fun reply => walkChildren walk owner rest reply.1 reply.2
      else walkChildren walk owner rest state u := by
  rw [walkChildren]
  split_ifs
  · cases walk child state u <;> rfl
  · rfl

lemma walkChildren_cons_eq_some_iff {owner child : NodeId} {rest : List NodeId}
    {state state' : S} :
    walkChildren walk owner (child :: rest) state u = some (state', v) ↔
      if (u.tree.parent? child).map ParentLink.owner = some owner then
        ∃ visited after, walk child state u = some (visited, after) ∧
          walkChildren walk owner rest visited after = some (state', v)
      else walkChildren walk owner rest state u = some (state', v) := by
  rw [walkChildren_cons]
  split_ifs
  · rw [Option.bind_eq_some_iff, Prod.exists]
  · rfl

variable (visitor : Visitor S) {depth : Nat} {id : NodeId} {state state' : S}

lemma walk_of_unknown (hid : u.tree.kind? id = none) :
    visitor.walk (depth + 1) id state u = some (state, u) := by
  rw [walk, hid]

/-- The part of a walk between the two hooks of a node: its children, if the visit wants them. -/
def walkBelow (visitor : Visitor S) (depth : Nat) (id : NodeId) (children : List NodeId)
    (descend : Bool) (state : S) (u : CompilationUnit) : Option (S × CompilationUnit) :=
  if descend then walkChildren (visitor.walk depth) id children state u else some (state, u)

/-- A node is visited, then the children that it had before, then it is left. -/
lemma walk_of_known {kind : Kind} (hid : u.tree.kind? id = some kind) :
    visitor.walk (depth + 1) id state u =
      ((visitor.visit kind id state).run (visitor.walk depth) u).bind fun visited =>
        (visitor.walkBelow depth id (u.tree.children id) visited.1.1 visited.1.2 visited.2).bind
          fun walked => (visitor.leave kind id walked.1).run (visitor.walk depth) walked.2 := by
  simp only [walk, hid]
  cases (visitor.visit kind id state).run (visitor.walk depth) u with
  | none => rfl
  | some reply =>
    obtain ⟨⟨descend, visited⟩, u₁⟩ := reply
    rw [Option.bind_some]
    generalize hbelow :
      visitor.walkBelow depth id (u.tree.children id) descend visited u₁ = below
    rw [walkBelow] at hbelow
    simp only [hbelow]
    cases below <;> rfl

lemma walk_eq_some_iff {kind : Kind} (hid : u.tree.kind? id = some kind) :
    visitor.walk (depth + 1) id state u = some (state', v) ↔
      ∃ descend visited u₁ walked u₂,
        (visitor.visit kind id state).run (visitor.walk depth) u = some ((descend, visited), u₁) ∧
        visitor.walkBelow depth id (u.tree.children id) descend visited u₁ = some (walked, u₂) ∧
        (visitor.leave kind id walked).run (visitor.walk depth) u₂ = some (state', v) := by
  simp only [visitor.walk_of_known hid, Option.bind_eq_some_iff, Prod.exists, exists_and_left]

end Visitor

end DeclTree
