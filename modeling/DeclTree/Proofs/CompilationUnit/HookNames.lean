import DeclTree.Proofs.CompilationUnit.Walks

/-!
# Hooks for all nodes and hooks for each kind

A pass that does the same at nodes of all kinds may be written with the two hooks for all nodes, or
with one hook for each kind and end.  Both ways come to the same: the hooks of both passes are
called in the same order, for the same nodes and with the same unit, and all that differs is which
hook a call is of.

To speak about the calls, the hooks of a pass write them down: `Behaviour.visitAs` and
`Behaviour.leaveAs` make a hook of a behaviour that notes its own name first, so the record tells
which of its hooks a pass has run.  `Alike` compares three computations: without a record, with the
hooks for all nodes and with the hooks for each kind.  A script keeps it if the walks that it asks
for do, and the rest is the induction over the depth of the walk, `Behaviour.walksAlike`.
-/

namespace DeclTree

variable {S R R' : Type}

/-! ## Passes that write down their calls -/

/-- A call of a hook that was written down, with the unit at that instant. -/
structure NamedCall where
  /-- The hook that is called. -/
  hook : HookName
  /-- The node. -/
  node : NodeId
  /-- The unit when the hook is called. -/
  seen : CompilationUnit

/-- The call as one of the hook for all nodes. -/
def NamedCall.forAny (call : NamedCall) : NamedCall :=
  { call with hook := { call.hook with kind? := none } }

/-- A value with the calls that have been written down, the first call first. -/
structure Recorded (α : Type) where
  /-- The value. -/
  value : α
  /-- The calls. -/
  record : List NamedCall

/-- The script of a pass that keeps a record: the script itself has no part in it, and the walks
that it asks for go on with the record.  At the end `finish` puts result and record together. -/
def Script.recorded (finish : R → List NamedCall → R') :
    Script S R → List NamedCall → Script (Recorded S) R'
  | done result, record => done (finish result record)
  | inspect next, record => inspect fun u => (next u).recorded finish record
  | edit change next, record => edit change fun answer => (next answer).recorded finish record
  | walk id state next, record =>
    walk id ⟨state, record⟩ fun after => (next after.value).recorded finish after.record

/-- What a pass does at a node, whatever its kind. -/
structure Behaviour (S : Type) where
  /-- Before the children. -/
  visit : VisitHook S
  /-- After the children. -/
  leave : LeaveHook S

namespace Behaviour

variable (b : Behaviour S)

/-- The behaviour as hooks for all nodes. -/
def forAny : Hooks S := { Hooks.none with visitAny := some b.visit, leaveAny := some b.leave }

/-- The answer of a visit, with the record kept beside the state. -/
def answer (visited : Bool × S) (record : List NamedCall) : Bool × Recorded S :=
  (visited.1, ⟨visited.2, record⟩)

/-- The hook before the children for nodes of one kind or of all, which writes down its call and
then does as the behaviour does. -/
def visitAs (kind? : Option Kind) : VisitHook (Recorded S) := fun id s =>
  .inspect fun u => (b.visit id s.value).recorded answer (s.record ++ [⟨⟨.visit, kind?⟩, id, u⟩])

/-- The hook after the children for nodes of one kind or of all. -/
def leaveAs (kind? : Option Kind) : LeaveHook (Recorded S) := fun id s =>
  .inspect fun u => (b.leave id s.value).recorded .mk (s.record ++ [⟨⟨.leave, kind?⟩, id, u⟩])

/-- The recorded behaviour as hooks for all nodes. -/
def recordedForAny : Hooks (Recorded S) :=
  { Hooks.none with visitAny := some (b.visitAs none), leaveAny := some (b.leaveAs none) }

/-- The recorded behaviour as hooks for each kind. -/
def recordedForEach : Hooks (Recorded S) :=
  { Hooks.none with
    visitKind := fun kind => some (b.visitAs (some kind))
    leaveKind := fun kind => some (b.leaveAs (some kind)) }

end Behaviour

/-! ## Computations that differ in the names of hooks -/

/-- The calls of hooks for each kind come in pairs, one for each end of a node, with pairs only
between the two.  Both are of the kind that the node has at the first of the two. -/
inductive PairedByKind : List NamedCall → Prop
  | nil : PairedByKind []
  | pair {kind : Kind} {node : NodeId} {u v : CompilationUnit} {inner rest : List NamedCall}
    (hkind : u.tree.kind? node = some kind) (hinner : PairedByKind inner)
    (hrest : PairedByKind rest) :
    PairedByKind (⟨⟨.visit, some kind⟩, node, u⟩ ::
      (inner ++ ⟨⟨.leave, some kind⟩, node, v⟩ :: rest))

lemma PairedByKind.append {calls calls' : List NamedCall} (h : PairedByKind calls)
    (h' : PairedByKind calls') : PairedByKind (calls ++ calls') := by
  induction h with
  | nil => exact h'
  | pair hkind hinner _ _ ih =>
    rw [List.cons_append, List.append_assoc, List.cons_append]
    exact .pair hkind hinner ih

/-- A computation without a record and two with one: none of them ends, or all do, with one result
and one unit, and the calls that they add to their records are the same but for the names.  The last
computation is that with hooks for each kind. -/
inductive Alike (finish : R → List NamedCall → R') (record record' : List NamedCall) :
    Option (R × CompilationUnit) → Option (R' × CompilationUnit) →
    Option (R' × CompilationUnit) → Prop
  | endless : Alike finish record record' none none none
  | ended (result : R) (u : CompilationUnit) {made : List NamedCall} (hmade : PairedByKind made) :
    Alike finish record record' (some (result, u))
      (some (finish result (record ++ made.map NamedCall.forAny), u))
      (some (finish result (record' ++ made), u))

namespace Alike

variable {finish : R → List NamedCall → R'} {record record' made : List NamedCall}
  {x : Option (R × CompilationUnit)} {y z : Option (R' × CompilationUnit)}

/-- No call is made. -/
lemma ended_now (finish : R → List NamedCall → R') (record record' : List NamedCall) (result : R)
    (u : CompilationUnit) :
    Alike finish record record' (some (result, u)) (some (finish result record, u))
      (some (finish result record', u)) := by
  have h : Alike finish record record' _ _ _ := .ended result u .nil
  rwa [List.map_nil, List.append_nil, List.append_nil] at h

/-- Paired calls were made before. -/
lemma after (hmade : PairedByKind made)
    (h : Alike finish (record ++ made.map NamedCall.forAny) (record' ++ made) x y z) :
    Alike finish record record' x y z := by
  cases h with
  | endless => exact .endless
  | ended result u hmore =>
    rw [List.append_assoc, List.append_assoc, ← List.map_append]
    exact .ended result u (hmade.append hmore)

/-- The calls of both ends of a node were made before, with paired calls between the two. -/
lemma node {kind : Kind} {id : NodeId} {u v : CompilationUnit} {inner below : List NamedCall}
    (hkind : u.tree.kind? id = some kind) (hinner : PairedByKind inner)
    (hbelow : PairedByKind below)
    (h : Alike finish
      (record ++ [⟨⟨.visit, none⟩, id, u⟩] ++ inner.map NamedCall.forAny ++
        below.map NamedCall.forAny ++ [⟨⟨.leave, none⟩, id, v⟩])
      (record' ++ [⟨⟨.visit, some kind⟩, id, u⟩] ++ inner ++ below ++
        [⟨⟨.leave, some kind⟩, id, v⟩]) x y z) :
    Alike finish record record' x y z := by
  cases h with
  | endless => exact .endless
  | @ended result w made hmade =>
    have hpair : PairedByKind (⟨⟨.visit, some kind⟩, id, u⟩ ::
        (inner ++ below ++ ⟨⟨.leave, some kind⟩, id, v⟩ :: made)) :=
      .pair hkind (hinner.append hbelow) hmade
    have h : Alike finish record record' _ _ _ := .ended result w hpair
    simpa [NamedCall.forAny] using h

/-- One computation goes on after another. -/
lemma bind {Q Q' : Type} {finish₂ : Q → List NamedCall → Q'} {before before' : List NamedCall}
    {f : R × CompilationUnit → Option (Q × CompilationUnit)}
    {g g' : R' × CompilationUnit → Option (Q' × CompilationUnit)}
    (h : Alike finish record record' x y z)
    (hnext : ∀ result u made, PairedByKind made → Alike finish₂ before before' (f (result, u))
      (g (finish result (record ++ made.map NamedCall.forAny), u))
      (g' (finish result (record' ++ made), u))) :
    Alike finish₂ before before' (x.bind f) (y.bind g) (z.bind g') := by
  cases h with
  | endless => exact .endless
  | ended result u hmade => exact hnext result u _ hmade

end Alike

/-! ## Walks -/

section Walks

variable {walk : NodeId → S → CompilationUnit → Option (S × CompilationUnit)}
  {walk' walk'' : NodeId → Recorded S → CompilationUnit → Option (Recorded S × CompilationUnit)}

/-- The walks differ in the names of hooks. -/
def WalksAlike (walk : NodeId → S → CompilationUnit → Option (S × CompilationUnit))
    (walk' walk'' : NodeId → Recorded S → CompilationUnit →
      Option (Recorded S × CompilationUnit)) : Prop :=
  ∀ id state u record record', Alike Recorded.mk record record' (walk id state u)
    (walk' id ⟨state, record⟩ u) (walk'' id ⟨state, record'⟩ u)

/-- Scripts make no calls but in the walks that they ask for. -/
lemma WalksAlike.run (hwalk : WalksAlike walk walk' walk'') (finish : R → List NamedCall → R')
    (script : Script S R) (u : CompilationUnit) (record record' : List NamedCall) :
    Alike finish record record' (script.run walk u) ((script.recorded finish record).run walk' u)
      ((script.recorded finish record').run walk'' u) := by
  induction script generalizing u record record' with
  | done result => exact .ended_now finish record record' result u
  | inspect next ih => exact ih u u record record'
  | edit change next ih =>
    simp only [Script.recorded, Script.run]
    cases change.apply u with
    | none => exact .endless
    | some reply => exact ih reply.1 reply.2 record record'
  | walk id state next ih =>
    simp only [Script.recorded, Script.run_walk]
    refine (hwalk id state u record record').bind fun state' after made hmade => ?_
    exact .after hmade (ih state' after _ _)

lemma WalksAlike.walkChildren (hwalk : WalksAlike walk walk' walk'') (owner : NodeId)
    (children : List NodeId) (state : S) (u : CompilationUnit) (record record' : List NamedCall) :
    Alike Recorded.mk record record' (Visitor.walkChildren walk owner children state u)
      (Visitor.walkChildren walk' owner children ⟨state, record⟩ u)
      (Visitor.walkChildren walk'' owner children ⟨state, record'⟩ u) := by
  induction children generalizing state u record record' with
  | nil => exact .ended_now Recorded.mk record record' state u
  | cons child rest ih =>
    simp only [Visitor.walkChildren_cons]
    split_ifs
    · refine (hwalk child state u record record').bind fun state' after made hmade => ?_
      exact .after hmade (ih state' after _ _)
    · exact ih state u record record'

end Walks

namespace Behaviour

/-- What lies between the hooks of a node. -/
lemma alike_walkBelow {b : Behaviour S} {depth : Nat}
    (hwalk : WalksAlike (b.forAny.toVisitor.walk depth) (b.recordedForAny.toVisitor.walk depth)
      (b.recordedForEach.toVisitor.walk depth))
    (id : NodeId) (children : List NodeId) (descend : Bool) (state : S) (u : CompilationUnit)
    (record record' : List NamedCall) :
    Alike Recorded.mk record record'
      (b.forAny.toVisitor.walkBelow depth id children descend state u)
      (b.recordedForAny.toVisitor.walkBelow depth id children descend ⟨state, record⟩ u)
      (b.recordedForEach.toVisitor.walkBelow depth id children descend ⟨state, record'⟩ u) := by
  unfold Visitor.walkBelow
  split_ifs
  · exact hwalk.walkChildren id children state u record record'
  · exact .ended_now Recorded.mk record record' state u

/-- **Walks with hooks for all nodes and with hooks for each kind differ in names only.** -/
theorem walksAlike (b : Behaviour S) (depth : Nat) :
    WalksAlike (b.forAny.toVisitor.walk depth) (b.recordedForAny.toVisitor.walk depth)
      (b.recordedForEach.toVisitor.walk depth) := by
  induction depth with
  | zero => exact fun _ _ _ _ _ => .endless
  | succ depth ih =>
    intro id state u record record'
    cases hid : u.tree.kind? id with
    | none =>
      simp only [Visitor.walk_of_unknown _ hid]
      exact .ended_now Recorded.mk record record' state u
    | some kind =>
      simp only [Visitor.walk_of_known _ hid]
      have hvisit := ih.run answer (b.visit id state) u (record ++ [⟨⟨.visit, none⟩, id, u⟩])
        (record' ++ [⟨⟨.visit, some kind⟩, id, u⟩])
      refine hvisit.bind ?_
      rintro ⟨descend, visited⟩ u₁ inner hinner
      refine (alike_walkBelow ih id _ descend visited u₁ _ _).bind ?_
      rintro walked u₂ below hbelow
      exact .node hid hinner hbelow (ih.run Recorded.mk (b.leave id walked) u₂ _ _)

/-- **It makes no difference but in the names whether a pass has hooks for all nodes or one for each
kind.**  With the same behaviour neither of the two walks ends, or both do, and leave one state and
one unit, which are those of the pass that writes nothing down.  The hooks are called in the same
order, for the same nodes and with the same unit, and a call of a hook for a kind is one of the kind
that the node had when the walk came to it, at both ends. -/
theorem hooks_differ_in_name (b : Behaviour S) (depth : Nat) (id : NodeId) (state : S)
    (u : CompilationUnit) :
    (b.forAny.toVisitor.walk depth id state u = none ∧
      b.recordedForAny.toVisitor.walk depth id ⟨state, []⟩ u = none ∧
      b.recordedForEach.toVisitor.walk depth id ⟨state, []⟩ u = none) ∨
    ∃ state' u' made, PairedByKind made ∧
      b.forAny.toVisitor.walk depth id state u = some (state', u') ∧
      b.recordedForAny.toVisitor.walk depth id ⟨state, []⟩ u =
        some (⟨state', made.map NamedCall.forAny⟩, u') ∧
      b.recordedForEach.toVisitor.walk depth id ⟨state, []⟩ u = some (⟨state', made⟩, u') := by
  have halike := b.walksAlike depth id state u [] []
  generalize b.forAny.toVisitor.walk depth id state u = plain at halike ⊢
  generalize b.recordedForAny.toVisitor.walk depth id ⟨state, []⟩ u = general at halike ⊢
  generalize b.recordedForEach.toVisitor.walk depth id ⟨state, []⟩ u = specific at halike ⊢
  cases halike with
  | endless => exact Or.inl ⟨rfl, rfl, rfl⟩
  | ended state' u' hmade => exact Or.inr ⟨state', u', _, hmade, rfl, rfl, rfl⟩

/-- The visit of a method writes a field over it, past the checks: it is left as a method all the
same. -/
example :
    let u : CompilationUnit := ⟨"", "A", "", .build "",
      ⟨#[⟨.method ⟨"run", [], false⟩, .dummy, none⟩], by decide⟩, .none, none⟩
    let b : Behaviour Unit :=
      { visit := fun id _ => .edit (.overwrite id (.field ⟨"x", "int"⟩)) fun _ => .done (true, ())
        leave := fun _ _ => .done () }
    (b.recordedForEach.toVisitor.walk 1 ⟨0⟩ ⟨(), []⟩ u).map
      (fun reply => reply.1.record.map fun call => (call.hook, call.node)) =
        some [(⟨.visit, some .method⟩, ⟨0⟩), (⟨.leave, some .method⟩, ⟨0⟩)] := rfl

end Behaviour

end DeclTree
