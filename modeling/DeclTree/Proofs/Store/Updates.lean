import DeclTree.Proofs.Store.Growing
import DeclTree.Proofs.Store.Refusals

/-!
# Updates write scalar fields only

An update lets a function write over a payload, and what it writes may be anything: another kind,
other slots, children that are not there.  The kind decides whether the update is carried out; the
slots are put back.  So an update is all that `Store.WritesScalars` says and nothing else, on every
store: `Store.update_eq_ok_iff`.
-/

namespace DeclTree.Store

variable {α : Type} {σ τ : Store} {id : NodeId} {n : Node} {written : Payload}

/-- The scalar fields of one node, which is `n` before, are those of `written` afterwards.  Its
slots, its span and its parent link stay, and so do all other nodes. -/
structure WritesScalars (σ τ : Store) (id : NodeId) (n : Node) (written : Payload) : Prop where
  updated : ∃ m, τ.node? id = some m ∧ written.sameScalars m.payload = true ∧
    (∀ slot, m.payload.slot? slot = n.payload.slot? slot) ∧ m.span = n.span ∧ m.parent = n.parent
  others : ∀ other, other ≠ id → τ.node? other = σ.node? other

lemma writesScalars_iff (hn : σ.node? id = some n) (hkind : written.kind = n.kind) :
    σ.WritesScalars τ id n written ↔ τ = σ.setPayload id (written.withSlotsOf n.payload) := by
  constructor
  · rintro ⟨⟨m, hm, hscalars, hslots, hspan, hparent⟩, hothers⟩
    have hpayload := (Payload.eq_withSlotsOf_iff hkind.symm).mpr ⟨hscalars, hslots⟩
    refine ext_node? fun other => ?_
    rw [setPayload, node?_modify]
    split_ifs with hid
    · subst hid
      rw [hm, hn, Option.map_some, ← hpayload, ← hspan, ← hparent]
    · exact hothers other (Ne.symm hid)
  · rintro rfl
    refine ⟨⟨{ n with payload := written.withSlotsOf n.payload }, ?_,
      Payload.sameScalars_withSlotsOf written n.payload, Payload.slot?_withSlotsOf hkind.symm, rfl,
      rfl⟩, fun other hne => ?_⟩
    · rw [setPayload, node?_modify, if_pos rfl, hn, Option.map_some]
    · rw [setPayload, node?_modify, if_neg hne.symm]

variable {f : Payload → α × Payload}

/-- What an update answers and leaves behind when it is carried out. -/
lemma update_eq_ok_iff {answer : α} :
    σ.update id f = (.ok answer, τ) ↔ ∃ n, σ.node? id = some n ∧
      (f n.payload).2.kind = n.kind ∧ answer = (f n.payload).1 ∧
      σ.WritesScalars τ id n (f n.payload).2 := by
  cases hn : σ.node? id with
  | none => simp [update_of_unknown f hn]
  | some n =>
    simp only [Option.some.injEq, exists_eq_left', update_of_node? f hn]
    by_cases hkind : (f n.payload).2.kind = n.kind
    · rw [if_pos hkind, writesScalars_iff hn hkind]
      simp only [hkind, true_and, Prod.mk.injEq, Except.ok.injEq]
      exact and_congr eq_comm eq_comm
    · simp [hkind]

/-- A compilation unit has slots only. -/
lemma WritesScalars.eq_of_compilationUnit (h : σ.WritesScalars τ id n written)
    (hn : σ.node? id = some n) (hkind : written.kind = n.kind) (hunit : n.kind = .compilationUnit) :
    τ = σ := by
  rw [(writesScalars_iff hn hkind).mp h]
  have hsame : n.payload = written.withSlotsOf n.payload :=
    (Payload.eq_withSlotsOf_iff hkind.symm).mpr
      ⟨Payload.sameScalars_of_compilationUnit (hkind.trans hunit) hunit, fun _ => rfl⟩
  rw [← hsame, setPayload_self hn]

/-- **An update writes the scalar fields of one node and nothing else**, on every store and whatever
the function writes.  It succeeds if and only if there is such a node and the function leaves the
kind as it is.  The answer is then that of the function, the node has the scalar fields that the
function wrote beside its own slots, span and parent link, and no other node changes; the store
after it is the only one of which this holds.  A compilation unit has no scalar fields, so an update
of one changes nothing. -/
theorem update_writes_scalars (σ : Store) (id : NodeId) (f : Payload → α × Payload) :
    (InPlace.update id f).on σ = σ.update id f ∧
    ((∃ answer τ, σ.update id f = (.ok answer, τ)) ↔
      ∃ n, σ.node? id = some n ∧ (f n.payload).2.kind = n.kind) ∧
    (∀ answer τ, σ.update id f = (.ok answer, τ) ↔ ∃ n, σ.node? id = some n ∧
      (f n.payload).2.kind = n.kind ∧ answer = (f n.payload).1 ∧
      σ.WritesScalars τ id n (f n.payload).2) ∧
    (σ.kind? id = some .compilationUnit → (σ.update id f).2 = σ) := by
  refine ⟨InPlace.on_update id f, ⟨?_, ?_⟩, fun answer τ => update_eq_ok_iff, fun hunit => ?_⟩
  · rintro ⟨answer, τ, hdone⟩
    obtain ⟨n, hn, hkind, -⟩ := update_eq_ok_iff.mp hdone
    exact ⟨n, hn, hkind⟩
  · rintro ⟨n, hn, hkind⟩
    exact ⟨_, _, (update_of_node? f hn).trans (if_pos hkind)⟩
  · obtain ⟨n, hn, hkind⟩ := Option.map_eq_some_iff.mp hunit
    rw [update_of_node? f hn]
    split_ifs with hkept
    · have hwrites := (writesScalars_iff hn hkept).mpr rfl
      exact hwrites.eq_of_compilationUnit hn hkept hkind
    · rfl

/-- The store disagrees with itself.  The type gets the name that the function writes, and keeps its
member although the function writes two others; a method is refused in its place. -/
theorem update_writes_scalars_of_type : ∃ σ τ : Store,
    σ.childrenIn ⟨0⟩ .members = [⟨7⟩] ∧ σ.parent? ⟨0⟩ = some ⟨⟨1⟩, .types⟩ ∧
    σ.update ⟨0⟩ (fun p => (p.type?, .type ⟨.enumForm, "B", ⟨"q.B"⟩, [⟨1⟩, ⟨9⟩]⟩)) =
      (.ok (some ⟨.classForm, "A", ⟨"p.A"⟩, [⟨7⟩]⟩), τ) ∧
    τ.payload? ⟨0⟩ = some (.type ⟨.enumForm, "B", ⟨"q.B"⟩, [⟨7⟩]⟩) ∧
    τ.parent? ⟨0⟩ = some ⟨⟨1⟩, .types⟩ ∧
    (¬ ∃ answer τ, σ.update ⟨0⟩ (fun _ => ((), .method ⟨"run", [], false⟩)) = (.ok answer, τ)) ∧
    (σ.update ⟨1⟩ fun _ => ((), .compilationUnit ⟨some ⟨0⟩, [⟨0⟩], [], [⟨1⟩]⟩)).2 = σ := by
  let σ : Store := ⟨#[⟨.type ⟨.classForm, "A", ⟨"p.A"⟩, [⟨7⟩]⟩, .dummy, some ⟨⟨1⟩, .types⟩⟩,
    ⟨.compilationUnit .empty, .dummy, none⟩], by decide⟩
  obtain ⟨-, hsucceeds, -⟩ := update_writes_scalars σ ⟨0⟩ fun _ => ((), .method ⟨"run", [], false⟩)
  obtain ⟨-, -, -, hunit⟩ := update_writes_scalars σ ⟨1⟩ fun _ =>
    ((), .compilationUnit ⟨some ⟨0⟩, [⟨0⟩], [], [⟨1⟩]⟩)
  refine ⟨σ, _, rfl, rfl, rfl, rfl, rfl, fun hdone => ?_, hunit rfl⟩
  obtain ⟨n, hn, hkind⟩ := hsucceeds.mp hdone
  obtain rfl := Option.some.inj hn
  cases hkind

end DeclTree.Store
