import Mathlib.Tactic.Lemma
import Mathlib.Tactic.SplitIfs
import DeclTree.CompilationUnit.Walk

/-!
# Walks that are written down

A walk answers with the state of the pass and the unit.  `Visitor.walkLogged` is the same walk,
which also writes down what happens in its course: when hooks are called, what the visits answer,
and when the turn of a child comes.  Calls and turns come with the unit at that instant, for hooks
may change it between any two.

The log changes nothing: without it the answer is that of the walk, `Visitor.erase_walkLogged`.
-/

namespace DeclTree

/-- How a walk comes to a node. -/
inductive Entry
  /-- The walk was asked for, by a client or by a script. -/
  | asked
  /-- The node is a child of the node that is walked. -/
  | child
deriving DecidableEq

/-- What happens in the course of a walk. -/
inductive WalkEvent
  /-- The hook before the children is called. -/
  | visit (entry : Entry) (kind : Kind) (node : NodeId) (u : CompilationUnit)
  /-- The hook before the children has answered. -/
  | answer (descend : Bool)
  /-- The turn of a child has come. -/
  | turn (child : NodeId) (u : CompilationUnit)
  /-- The hook after the children is called. -/
  | leave (kind : Kind) (node : NodeId) (u : CompilationUnit)

/-- The log of a computation, its result and the unit after it; nothing if it does not end. -/
abbrev Logged (α : Type) := Option (List WalkEvent × α × CompilationUnit)

namespace Logged

variable {α β : Type} {x : Logged α} {f : α → CompilationUnit → Logged β} {log : List WalkEvent}
  {b : β} {v : CompilationUnit}

/-- A result, with nothing written down. -/
def result (a : α) (u : CompilationUnit) : Logged α := some ([], a, u)

/-- Writes down an event before a computation. -/
def after (event : WalkEvent) (x : Logged α) : Logged α :=
  match x with
  | none => none
  | some (log, reply) => some (event :: log, reply)

/-- Goes on after a computation; the second log follows the first. -/
def andThen (x : Logged α) (f : α → CompilationUnit → Logged β) : Logged β :=
  match x with
  | none => none
  | some (log, a, u) =>
    match f a u with
    | none => none
    | some (log', reply) => some (log ++ log', reply)

/-- The computation without its log. -/
def erase (x : Logged α) : Option (α × CompilationUnit) := x.map Prod.snd

lemma exists_of_after {event : WalkEvent} {reply : α × CompilationUnit}
    (h : x.after event = some (log, reply)) :
    ∃ rest, x = some (rest, reply) ∧ log = event :: rest := by
  cases x with
  | none => cases h
  | some logged =>
    obtain ⟨rfl, rfl⟩ := Prod.mk.inj (Option.some.inj h)
    exact ⟨logged.1, rfl, rfl⟩

lemma exists_of_andThen (h : x.andThen f = some (log, b, v)) :
    ∃ log₁ a u log₂, x = some (log₁, a, u) ∧ f a u = some (log₂, b, v) ∧ log = log₁ ++ log₂ := by
  cases x with
  | none => cases h
  | some logged =>
    obtain ⟨log₁, a, u⟩ := logged
    cases hf : f a u with
    | none => simp [andThen, hf] at h
    | some reply =>
      obtain ⟨log₂, reply⟩ := reply
      simp only [andThen, hf] at h
      obtain ⟨rfl, rfl⟩ := Prod.mk.inj (Option.some.inj h)
      exact ⟨log₁, a, u, log₂, rfl, hf, rfl⟩

lemma erase_after (event : WalkEvent) (x : Logged α) : (x.after event).erase = x.erase := by
  cases x <;> rfl

lemma erase_andThen (x : Logged α) (f : α → CompilationUnit → Logged β) :
    (x.andThen f).erase = x.erase.bind fun reply => (f reply.1 reply.2).erase := by
  cases x with
  | none => rfl
  | some logged =>
    obtain ⟨log, a, u⟩ := logged
    simp only [andThen, erase, Option.map_some, Option.bind_some]
    cases f a u <;> rfl

end Logged

variable {S R : Type}

/-- Runs a script and writes down what happens in the walks that it asks for. -/
def Script.runLogged (walk : NodeId → S → CompilationUnit → Logged S) :
    Script S R → CompilationUnit → Logged R
  | done result, u => .result result u
  | inspect next, u => (next u).runLogged walk u
  | edit change next, u =>
    match change.apply u with
    | none => none
    | some (answer, after) => (next answer).runLogged walk after
  | .walk id state next, u =>
    (walk id state u).andThen fun state' after => (next state').runLogged walk after

namespace Visitor

/-- Walks those of the given nodes that belong to `owner` when their turn comes, and writes down
each turn. -/
def walkChildrenLogged (walk : NodeId → S → CompilationUnit → Logged S) (owner : NodeId) :
    List NodeId → S → CompilationUnit → Logged S
  | [], state, u => .result state u
  | child :: rest, state, u =>
    let walked : Logged S :=
      if (u.tree.parent? child).map ParentLink.owner = some owner then
        (walk child state u).andThen fun state' u' => walkChildrenLogged walk owner rest state' u'
      else walkChildrenLogged walk owner rest state u
    walked.after (.turn child u)

/-- Walks the subtree of a node and writes down what happens. -/
def walkLogged (v : Visitor S) : (depth : Nat) → Entry → NodeId → S → CompilationUnit → Logged S
  | 0, _, _, _, _ => none
  | depth + 1, entry, id, state, u =>
    match u.tree.kind? id with
    | none => .result state u
    | some kind =>
      let visited := (v.visit kind id state).runLogged (v.walkLogged depth .asked) u
      let walked := visited.andThen fun answer u₁ =>
        let below : Logged S :=
          if answer.1 then
            walkChildrenLogged (v.walkLogged depth .child) id (u.tree.children id) answer.2 u₁
          else .result answer.2 u₁
        let left := below.andThen fun state' u₂ =>
          ((v.leave kind id state').runLogged (v.walkLogged depth .asked) u₂).after
            (.leave kind id u₂)
        left.after (.answer answer.1)
      walked.after (.visit entry kind id u)

/-! ## The log changes nothing -/

lemma erase_runLogged {walk : NodeId → S → CompilationUnit → Option (S × CompilationUnit)}
    {walkLogged : NodeId → S → CompilationUnit → Logged S}
    (hwalk : ∀ id state u, (walkLogged id state u).erase = walk id state u)
    (script : Script S R) (u : CompilationUnit) :
    (script.runLogged walkLogged u).erase = script.run walk u := by
  induction script generalizing u with
  | done result => rfl
  | inspect next ih => exact ih u u
  | edit change next ih =>
    rw [Script.runLogged, Script.run]
    cases change.apply u with
    | none => rfl
    | some reply => exact ih reply.1 reply.2
  | walk id state next ih =>
    rw [Script.runLogged, Script.run, Logged.erase_andThen, hwalk]
    cases walk id state u with
    | none => rfl
    | some reply => exact ih reply.1 reply.2

lemma erase_walkChildrenLogged
    {walk : NodeId → S → CompilationUnit → Option (S × CompilationUnit)}
    {walkLogged : NodeId → S → CompilationUnit → Logged S}
    (hwalk : ∀ id state u, (walkLogged id state u).erase = walk id state u)
    (owner : NodeId) (children : List NodeId) (state : S) (u : CompilationUnit) :
    (walkChildrenLogged walkLogged owner children state u).erase =
      walkChildren walk owner children state u := by
  induction children generalizing state u with
  | nil => rfl
  | cons child rest ih =>
    rw [walkChildrenLogged, walkChildren, Logged.erase_after]
    split_ifs
    · rw [Logged.erase_andThen, hwalk]
      cases walk child state u with
      | none => rfl
      | some reply => exact ih reply.1 reply.2
    · exact ih state u

/-- **Without its log a logged walk is the walk.** -/
theorem erase_walkLogged (v : Visitor S) (depth : Nat) (entry : Entry) (id : NodeId) (state : S)
    (u : CompilationUnit) :
    (v.walkLogged depth entry id state u).erase = v.walk depth id state u := by
  induction depth generalizing entry id state u with
  | zero => rfl
  | succ depth ih =>
    rw [walkLogged, walk]
    cases hkind : u.tree.kind? id with
    | none => rfl
    | some kind =>
      have hvisit := erase_runLogged (ih .asked) (v.visit kind id state) u
      simp only [Logged.erase_after, Logged.erase_andThen, hvisit]
      cases (v.visit kind id state).run (v.walk depth) u with
      | none => rfl
      | some reply =>
        obtain ⟨⟨descend, visited⟩, u₁⟩ := reply
        have hbelow := erase_walkChildrenLogged (ih .child) id (u.tree.children id) visited u₁
        have hleave := fun walked u₂ => erase_runLogged (ih .asked) (v.leave kind id walked) u₂
        simp only [Option.bind_some]
        cases descend with
        | false => exact hleave visited u₁
        | true =>
          simp only [if_true, hbelow, hleave]
          cases walkChildren (v.walk depth) id (u.tree.children id) visited u₁ <;> rfl

end Visitor

end DeclTree
