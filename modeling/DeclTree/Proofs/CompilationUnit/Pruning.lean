import DeclTree.Proofs.CompilationUnit.Snapshots
import DeclTree.Proofs.Store.Pruning

/-!
# Passes that attach nothing

A pass that attaches nothing and never walks by itself can only take the tree apart while it is
being walked.  What is left of the tree is part of the tree of the beginning, so the walk goes no
deeper than that tree, and it ends: `Visitor.Keeps.exists_walkLogged`.

What such a walk writes down is a `Course` through the tree of the beginning.  It goes through the
children that each node had then, and each of them was lost before its owner was visited, or was
lost before its turn came, or was walked.
-/

namespace DeclTree

variable {S R : Type}

/-! ## What the hooks do -/

/-- The change attaches nothing. -/
def UnitEdit.Pruning : UnitEdit → Prop
  | tree edit => edit.Pruning
  | overwrite _ _ => False
  | raise _ | resolveImports _ _ => True

/-- The pass never walks by itself, and each change that its hooks make satisfies `P`. -/
structure Visitor.MakesOnly (v : Visitor S) (P : UnitEdit → Prop) : Prop where
  walkless : v.Walkless
  visit : ∀ kind id state, (v.visit kind id state).Only P
  leave : ∀ kind id state, (v.leave kind id state).Only P

/-- Every result of the script satisfies `D`. -/
inductive Script.Yields (D : R → Prop) : Script S R → Prop
  | done {result : R} (h : D result) : Yields D (done result)
  | inspect {next : CompilationUnit → Script S R} (h : ∀ u, Yields D (next u)) :
    Yields D (inspect next)
  | edit {change : UnitEdit} {next : Except TreeError Answer → Script S R}
    (h : ∀ answer, Yields D (next answer)) : Yields D (edit change next)
  | walk {id : NodeId} {state : S} {next : S → Script S R} (h : ∀ after, Yields D (next after)) :
    Yields D (walk id state next)

/-- The pass wants the children of every node. -/
def Visitor.Descending (v : Visitor S) : Prop :=
  ∀ kind id state, (v.visit kind id state).Yields fun answer => answer.1 = true

/-- Whenever a hook is called with a unit that satisfies `I`, it ends with such a unit and has
written nothing down, and the answers to visits satisfy `D`. -/
structure Visitor.Keeps (v : Visitor S) (I : CompilationUnit → Prop) (D : Bool → Prop) :
    Prop where
  visit : ∀ kind id state {u}, I u → ∃ descend state' u',
    (∀ walk, (v.visit kind id state).runLogged walk u = some ([], (descend, state'), u')) ∧
    D descend ∧ I u'
  leave : ∀ kind id state {u}, I u → ∃ state' u',
    (∀ walk, (v.leave kind id state).runLogged walk u = some ([], state', u')) ∧ I u'

namespace Script

variable {P : UnitEdit → Prop} {I : CompilationUnit → Prop} {D : R → Prop} {script : Script S R}

lemma yields_of_forall (h : ∀ result, D result) (script : Script S R) : script.Yields D := by
  induction script with
  | done result => exact .done (h result)
  | inspect _ ih => exact .inspect ih
  | edit _ _ ih => exact .edit ih
  | walk _ _ _ ih => exact .walk ih

/-- A script that never walks ends, if its changes do. -/
lemma Walkless.exists_runLogged (hwalkless : script.Walkless) (honly : script.Only P)
    (hyields : script.Yields D)
    (happly : ∀ change u, P change → I u → ∃ answer u', change.apply u = some (answer, u') ∧ I u')
    {u : CompilationUnit} (hu : I u) :
    ∃ result u', (∀ walk, script.runLogged walk u = some ([], result, u')) ∧ D result ∧ I u' := by
  induction hwalkless generalizing u with
  | done result =>
    cases hyields with
    | done hresult => exact ⟨result, u, fun _ => rfl, hresult, hu⟩
  | inspect _ ih =>
    cases honly with
    | inspect honly =>
      cases hyields with
      | inspect hyields => exact ih u (honly u) (hyields u) hu
  | @edit change next _ ih =>
    cases honly with
    | edit hallowed honly =>
      cases hyields with
      | edit hyields =>
        obtain ⟨answer, after, heq, hafter⟩ := happly change u hallowed hu
        obtain ⟨result, u', hrun, hresult, hu'⟩ := ih answer (honly answer) (hyields answer) hafter
        refine ⟨result, u', fun walk => ?_, hresult, hu'⟩
        rw [runLogged, heq]
        exact hrun walk

end Script

namespace Visitor

variable {v : Visitor S} {P : UnitEdit → Prop} {I : CompilationUnit → Prop}

lemma MakesOnly.keeps (hv : v.MakesOnly P) {D : Bool → Prop}
    (hanswers : ∀ kind id state, (v.visit kind id state).Yields fun answer => D answer.1)
    (happly : ∀ change u, P change → I u →
      ∃ answer u', change.apply u = some (answer, u') ∧ I u') : v.Keeps I D where
  visit := by
    intro kind id state u hu
    obtain ⟨⟨descend, state'⟩, u', hrun, hdescend, hu'⟩ :=
      (hv.walkless.visit kind id state).exists_runLogged (hv.visit kind id state)
        (hanswers kind id state) happly hu
    exact ⟨descend, state', u', hrun, hdescend, hu'⟩
  leave := by
    intro kind id state u hu
    obtain ⟨state', u', hrun, -, hu'⟩ :=
      (hv.walkless.leave kind id state).exists_runLogged (hv.leave kind id state)
        (Script.yields_of_forall (D := fun _ => True) (fun _ => trivial) _) happly hu
    exact ⟨state', u', hrun, hu'⟩

/-- A pass that attaches nothing prunes the tree that it finds, and it always ends. -/
lemma MakesOnly.keeps_prunes (hv : v.MakesOnly UnitEdit.Pruning) (σ : Store) :
    v.Keeps (fun u => σ.Prunes u.tree) fun _ => True := by
  refine hv.keeps (fun _ _ _ => Script.yields_of_forall (fun _ => trivial) _) ?_
  intro change u hchange hu
  cases change with
  | tree edit =>
    obtain ⟨answer, τ, heq, hprunes⟩ := hu.forest.prunes_apply hchange
    refine ⟨answer, u.withTree τ, ?_, hu.trans hprunes⟩
    rw [UnitEdit.apply, heq]
    rfl
  | overwrite id payload => exact hchange.elim
  | raise flag => exact ⟨_, _, rfl, hu⟩
  | resolveImports imports canImport => exact ⟨_, _, rfl, hu⟩

/-- A pass that only reads leaves the unit as it is. -/
lemma MakesOnly.keeps_unit (hv : v.MakesOnly fun _ => False) (hdescending : v.Descending)
    (u : CompilationUnit) : v.Keeps (fun u' => u' = u) fun descend => descend = true :=
  hv.keeps hdescending fun _ _ hchange => hchange.elim

end Visitor

/-! ## What is written down -/

/-- The log of the walk of one node: its visit, what happens below it, and its leave. -/
def nodeLog (entry : Entry) (kind : Kind) (id : NodeId) (u : CompilationUnit) (descend : Bool)
    (inner : List WalkEvent) (u' : CompilationUnit) : List WalkEvent :=
  .visit entry kind id u :: .answer descend :: (inner ++ [.leave kind id u'])

/-- The log of the walk of children is a course through the tree `σ`.  The children are those that
the owner had in `σ`, and `before` is the unit just before the owner was visited. -/
inductive Course (σ : Store) (I : CompilationUnit → Prop) (D : Bool → Prop) :
    (owner : NodeId) → (before : CompilationUnit) → (children : List NodeId) →
    (log : List WalkEvent) → Prop
  /-- No child is left. -/
  | done {owner before} : Course σ I D owner before [] []
  /-- The owner had lost the child before it was visited. -/
  | gone {owner before child rest log} (hgone : child ∉ before.tree.children owner)
    (hrest : Course σ I D owner before rest log) : Course σ I D owner before (child :: rest) log
  /-- The owner had lost the child when its turn came. -/
  | lost {owner before child rest log} {u : CompilationUnit} (hu : I u)
    (hlost : (u.tree.parent? child).map ParentLink.owner ≠ some owner)
    (hrest : Course σ I D owner before rest log) :
    Course σ I D owner before (child :: rest) (.turn child u :: log)
  /-- The child was walked. -/
  | walked {owner before child rest log kind descend inner} {u u' : CompilationUnit} (hu : I u)
    (hheld : child ∈ before.tree.children owner)
    (howned : (u.tree.parent? child).map ParentLink.owner = some owner) (hdescend : D descend)
    (hinner : Course σ I D child u (if descend then σ.children child else []) inner)
    (hrest : Course σ I D owner before rest log) :
    Course σ I D owner before (child :: rest)
      (.turn child u :: (nodeLog .child kind child u descend inner u' ++ log))

/-- The log of the walk of a node is a course through the tree `σ`. -/
inductive NodeCourse (σ : Store) (I : CompilationUnit → Prop) (D : Bool → Prop) (entry : Entry)
    (id : NodeId) (u : CompilationUnit) : (log : List WalkEvent) → Prop
  | intro {kind descend inner u'} (hdescend : D descend)
    (hinner : Course σ I D id u (if descend then σ.children id else []) inner) :
    NodeCourse σ I D entry id u (nodeLog entry kind id u descend inner u')

/-! ## The walk ends -/

namespace Visitor.Keeps

variable {v : Visitor S} {I : CompilationUnit → Prop} {D : Bool → Prop} {σ : Store} {depth : Nat}
  {u : CompilationUnit}

/-- The walk of children ends and takes its course, if the walks of each of them do. -/
lemma exists_walkChildrenLogged {owner : NodeId} {before : CompilationUnit}
    {snapshot children : List NodeId} (hsub : snapshot.Sublist children) (hnodup : children.Nodup)
    (hheld : ∀ child ∈ children, child ∈ snapshot ↔ child ∈ before.tree.children owner)
    (hwalk : ∀ child ∈ children, ∀ state {u}, I u → ∃ log state' u',
      (∀ deeper, depth ≤ deeper →
        v.walkLogged deeper .child child state u = some (log, state', u')) ∧
      NodeCourse σ I D .child child u log ∧ I u')
    (state : S) (hu : I u) :
    ∃ log state' u',
      (∀ deeper, depth ≤ deeper →
        walkChildrenLogged (v.walkLogged deeper .child) owner snapshot state u =
          some (log, state', u')) ∧
      Course σ I D owner before children log ∧ I u' := by
  induction hsub generalizing state u with
  | slnil => exact ⟨[], state, u, fun _ _ => rfl, .done, hu⟩
  | @cons snapshot rest child hsub ih =>
    -- the child is not among those to walk
    obtain ⟨hfresh, hnodup⟩ := List.nodup_cons.mp hnodup
    have hgone : child ∉ before.tree.children owner := fun hmem =>
      hfresh (hsub.subset ((hheld child List.mem_cons_self).mpr hmem))
    obtain ⟨log, state', u', hrun, hcourse, hu'⟩ := ih hnodup
      (fun c hc => hheld c (List.mem_cons_of_mem child hc))
      (fun c hc => hwalk c (List.mem_cons_of_mem child hc)) state hu
    exact ⟨log, state', u', hrun, .gone hgone hcourse, hu'⟩
  | @cons_cons snapshot rest child hsub ih =>
    obtain ⟨hfresh, hnodup⟩ := List.nodup_cons.mp hnodup
    have hrest : ∀ c ∈ rest, c ∈ snapshot ↔ c ∈ before.tree.children owner := by
      intro c hc
      rw [← hheld c (List.mem_cons_of_mem child hc), List.mem_cons]
      have hne : c ≠ child := fun heq => hfresh (heq ▸ hc)
      exact (or_iff_right hne).symm
    have hlater := fun (state : S) {u : CompilationUnit} (hu : I u) => ih hnodup hrest
      (fun c hc => hwalk c (List.mem_cons_of_mem child hc)) state hu
    by_cases howned : (u.tree.parent? child).map ParentLink.owner = some owner
    · obtain ⟨first, visited, u₁, hfirst, hcourse, hu₁⟩ :=
        hwalk child List.mem_cons_self state hu
      obtain ⟨log, state', u', hrun, hcourses, hu'⟩ := hlater visited hu₁
      refine ⟨.turn child u :: (first ++ log), state', u', fun deeper hdeeper => ?_, ?_, hu'⟩
      · rw [walkChildrenLogged, if_pos howned, hfirst deeper hdeeper]
        simp only [Logged.andThen, hrun deeper hdeeper, Logged.after]
      · obtain ⟨hdescend, hinner⟩ := hcourse
        have hmem := (hheld child List.mem_cons_self).mp List.mem_cons_self
        exact .walked hu hmem howned hdescend hinner hcourses
    · obtain ⟨log, state', u', hrun, hcourse, hu'⟩ := hlater state hu
      refine ⟨.turn child u :: log, state', u', fun deeper hdeeper => ?_,
        .lost hu howned hcourse, hu'⟩
      rw [walkChildrenLogged, if_neg howned, hrun deeper hdeeper]
      rfl

/-- **The walk of a node ends within as many levels as the tree `σ` has below the node, and it
takes its course through that tree.** -/
theorem exists_walkLogged (hv : v.Keeps I D) (hσ : σ.Forest)
    (hprunes : ∀ u, I u → σ.Prunes u.tree) {id : NodeId} (hunfolds : σ.UnfoldsWithin depth id)
    (entry : Entry) (state : S) (hu : I u) :
    ∃ log state' u',
      (∀ deeper, depth ≤ deeper →
        v.walkLogged deeper entry id state u = some (log, state', u')) ∧
      NodeCourse σ I D entry id u log ∧ I u' := by
  induction depth generalizing entry id state u with
  | zero => exact hunfolds.elim
  | succ depth ih =>
    obtain ⟨n, hn⟩ := Store.exists_node_iff.mpr hunfolds.1
    obtain ⟨m, hm, -⟩ := (hprunes u hu).extended id n hn
    have hkind : u.tree.kind? id = some m.kind := by rw [Store.kind?, hm, Option.map_some]
    obtain ⟨descend, visited, u₁, hvisit, hdescend, hu₁⟩ := hv.visit m.kind id state hu
    -- what lies below is walked if the visit wants it
    obtain ⟨inner, walked, u₂, hbelow, hinner, hu₂⟩ : ∃ inner walked u₂,
        (∀ deeper, depth ≤ deeper →
          (if descend then
            walkChildrenLogged (v.walkLogged deeper .child) id (u.tree.children id) visited u₁
          else Logged.result visited u₁) = some (inner, walked, u₂)) ∧
        Course σ I D id u (if descend then σ.children id else []) inner ∧ I u₂ := by
      cases descend with
      | false => exact ⟨[], visited, u₁, fun _ _ => rfl, .done, hu₁⟩
      | true =>
        exact exists_walkChildrenLogged ((hprunes u hu).children_sublist hunfolds.1)
          ((hσ.treeAt hunfolds.1).nodup_children .refl) (fun _ _ => Iff.rfl)
          (fun child hchild state _ hu => ih (hunfolds.2 child hchild) .child state hu) visited hu₁
    obtain ⟨state', u', hleave, hu'⟩ := hv.leave m.kind id walked hu₂
    refine ⟨nodeLog entry m.kind id u descend inner u₂, state', u', fun deeper hdeeper => ?_,
      .intro hdescend hinner, hu'⟩
    obtain ⟨deeper, rfl⟩ : ∃ k, deeper = k + 1 := ⟨deeper - 1, by omega⟩
    rw [walkLogged, hkind]
    simp only [hvisit, hleave, hbelow deeper (Nat.le_of_succ_le_succ hdeeper), Logged.andThen,
      Logged.after]
    rfl

end Visitor.Keeps

end DeclTree
