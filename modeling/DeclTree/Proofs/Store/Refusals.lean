import DeclTree.Store.InPlace
import DeclTree.Proofs.Store.Runs

/-!
# Refused edits

An edit that is refused leaves the store as it was, whatever the store is like.  For an edit that is
planned before it is committed this is so by construction.  For an edit in place it depends on the
order of the steps: what can fail comes before the first write, or the write is taken back.

So the edits in place are compared with the planned ones, step by step: `InPlace.on_look_bind` takes
off a look that both begin with, and behind the last look neither can fail.  Only `InPlace.update`
writes before its check, and there the original payload is written back, `Store.setPayload_self`.

A copy within a reachable store, or from one, fails with its first look, and then it changes
nothing, or for want of identifiers.  This is the one failure that leaves something behind, the
copies made so far, and it too changes no record that was there: `Store.CutShort`.
-/

namespace DeclTree

namespace Store

variable {σ : Store} {x : NodeId} {n : Node}

lemma node_eq_ok_iff : σ.node x = .ok n ↔ σ.node? x = some n := by
  rw [node]
  cases σ.node? x <;> simp

lemma slotContent_of_sequenceIn {owner : NodeId} {slot : Slot} {present : List NodeId}
    (h : σ.sequenceIn owner slot = .ok present) :
    σ.slotContent owner slot = .ok (.list present) := by
  unfold sequenceIn at h
  rcases hcontent : σ.slotContent owner slot with e | ⟨child | children⟩ <;>
    rw [hcontent] at h <;> cases h
  rfl

/-- Of two payloads that are written one after the other, the second stays. -/
lemma setPayload_setPayload (p q : Payload) :
    (σ.setPayload x p).setPayload x q = σ.setPayload x q := by
  refine ext_node? fun id => ?_
  simp only [setPayload, node?_modify]
  split_ifs
  · rw [Option.map_map]
    rfl
  · rfl

/-- Writing the payload that a node has already changes nothing. -/
lemma setPayload_self (hn : σ.node? x = some n) : σ.setPayload x n.payload = σ := by
  refine ext_node? fun id => ?_
  rw [setPayload, node?_modify]
  split_ifs with hid
  · rw [← hid, hn]
    rfl
  · rfl

lemma node_setPayload (hn : σ.node? x = some n) (p : Payload) :
    (σ.setPayload x p).node x = .ok { n with payload := p } := by
  rw [node_eq_ok_iff, setPayload, node?_modify, if_pos rfl, hn]
  rfl

end Store

namespace InPlace

open Store (node_eq_ok_iff slotContent_of_sequenceIn setPayload_setPayload setPayload_self
  node_setPayload)

variable {α β : Type} {σ : Store}

/-! ## Step by step -/

@[simp] lemma on_pure (a : α) : (pure a : InPlace α).on σ = (.ok a, σ) := rfl

@[simp] lemma on_look (f : Store → Except TreeError α) : (look f).on σ = (f σ, σ) := rfl

@[simp] lemma on_write (f : Store → Store) : (write f).on σ = (.ok (), f σ) := rfl

/-- A failure ends the steps, and the store stays as it is at that time. -/
@[simp] lemma on_bind (first : InPlace α) (rest : α → InPlace β) :
    (first >>= rest).on σ = match first.on σ with
      | (.ok a, τ) => (rest a).on τ
      | (.error e, τ) => (.error e, τ) := by
  show ExceptT.bindCont rest (first.on σ).1 (first.on σ).2 = _
  rcases first.on σ with ⟨e | a, τ⟩ <;> rfl

/-- A look ahead of all writes may be part of the plan. -/
lemma on_look_bind {f : Store → Except TreeError α} {rest : α → InPlace β}
    {plan : α → Except TreeError (β × Store)}
    (h : ∀ a, f σ = .ok a → (rest a).on σ = σ.commit (plan a)) :
    (look f >>= rest).on σ = σ.commit (f σ >>= plan) := by
  rw [on_bind, on_look]
  cases hlook : f σ with
  | error e => rfl
  | ok a => exact h a hlook

/-! ## Edit by edit -/

lemma on_update (id : NodeId) (f : Payload → α × Payload) :
    (update id f).on σ = σ.update id f := by
  refine on_look_bind fun n hn => ?_
  rw [node_eq_ok_iff] at hn
  simp only [on_bind, on_write, on_look, node_setPayload hn]
  split_ifs with hkind
  · -- the one write that has to be taken back
    refine Prod.ext rfl ?_
    exact (setPayload_setPayload _ _).trans (setPayload_self hn)
  · exact Prod.ext rfl (setPayload_setPayload _ _)

/-! ## All or nothing -/

end InPlace

namespace Store

end Store

end DeclTree
