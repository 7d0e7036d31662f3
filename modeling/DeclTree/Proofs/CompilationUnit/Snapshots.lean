import Mathlib.Data.List.Induction
import DeclTree.Proofs.CompilationUnit.Nesting
import DeclTree.Proofs.CompilationUnit.Runs

/-!
# What a walk visits

A walk takes down the children of a node when it comes to the node, just before the hook before the
children is called.  So what hooks attach to a node that the walk has come to is not visited through
it; what they attach to a node that the walk has still to come to is.

For passes that never walk by themselves, `Visitor.visits_foreseen` traces every visited node
back to the visit of its owner.  If every node still has no other children when the walk comes to it
than at the beginning, no node is visited that could not be reached at the beginning.
-/

namespace DeclTree

variable {S R : Type}

/-! ## Passes that never walk by themselves -/

/-- No hook of the pass walks by itself. -/
structure Visitor.Walkless (v : Visitor S) : Prop where
  visit : ∀ kind id state, (v.visit kind id state).Walkless
  leave : ∀ kind id state, (v.leave kind id state).Walkless

/-- Only walks write anything down. -/
lemma Script.Walkless.log_eq_nil {walk : NodeId → S → CompilationUnit → Logged S}
    {script : Script S R} (h : script.Walkless) {u v : CompilationUnit} {log : List WalkEvent}
    {result : R} (hrun : script.runLogged walk u = some (log, result, v)) : log = [] := by
  induction h generalizing u with
  | done result =>
    obtain ⟨rfl, -⟩ := Prod.mk.inj (Option.some.inj hrun)
    rfl
  | inspect _ ih => exact ih u hrun
  | @edit change next _ ih =>
    rw [runLogged] at hrun
    cases happly : change.apply u with
    | none =>
      rw [happly] at hrun
      cases hrun
    | some reply =>
      rw [happly] at hrun
      exact ih reply.1 hrun

/-! ## Where visited nodes come from -/

/-- A visit is that of a child of the innermost node: one that this node had before it was visited,
and that belongs to it still. -/
def Shown (active : List Activation) : WalkEvent → Prop
  | .visit _ _ node u => ∃ a outer slot, active = a :: outer ∧
      node ∈ a.before.tree.children a.node ∧ u.tree.parent? node = some ⟨a.node, slot⟩
  | _ => True

/-- So it is with every visit in the log, when it happens. -/
def AllShown (active : List Activation) (log : List WalkEvent) : Prop :=
  ∀ before event rest, log = before ++ event :: rest → Shown (before.foldl observe active) event

namespace AllShown

variable {active : List Activation} {event : WalkEvent} {log log' : List WalkEvent}

lemma nil (active : List Activation) : AllShown active [] := by
  intro before event rest heq
  simp at heq

lemma cons (h : Shown active event) (hlog : AllShown (observe active event) log) :
    AllShown active (event :: log) := by
  intro before event' rest heq
  cases before with
  | nil =>
    obtain ⟨rfl, rfl⟩ := List.cons.inj heq
    exact h
  | cons first before =>
    obtain ⟨rfl, rfl⟩ := List.cons.inj heq
    exact hlog before event' rest rfl

lemma append (h : AllShown active log) (h' : AllShown (log.foldl observe active) log') :
    AllShown active (log ++ log') := by
  induction log generalizing active with
  | nil => exact h'
  | cons event log ih =>
    have hlog : AllShown (observe active event) log := fun before event' rest heq =>
      h (event :: before) event' rest (congrArg (event :: ·) heq)
    exact .cons (h [] event log rfl) (ih hlog h')

end AllShown

namespace Visitor

variable {v : Visitor S} {depth : Nat} {id : NodeId} {state state' : S} {u u' : CompilationUnit}
  {log : List WalkEvent}

/-- The log of a walk begins with the visit of the node, and all later visits are shown. -/
def ShownBelow (active : List Activation) (entry : Entry) (id : NodeId) (u : CompilationUnit)
    (log : List WalkEvent) : Prop :=
  log = [] ∨ ∃ kind rest, log = .visit entry kind id u :: rest ∧
    AllShown (observe active (.visit entry kind id u)) rest

/-- The visits of children are shown, if their owner had them before its visit. -/
lemma allShown_walkChildren {outer : List Activation} {children : List NodeId}
    (hwalk : ∀ {child state u log state' u'} (active : List Activation),
      v.walkLogged depth .child child state u = some (log, state', u') →
      ShownBelow active .child child u log)
    {a : Activation} (hdescend : a.descend? = some true)
    (hheld : ∀ child ∈ children, child ∈ a.before.tree.children a.node)
    (hrun : walkChildrenLogged (v.walkLogged depth .child) a.node children state u =
      some (log, state', u')) : AllShown (a :: outer) log := by
  induction children generalizing a state u log with
  | nil =>
    obtain ⟨rfl, -⟩ := Prod.mk.inj (Option.some.inj hrun)
    exact .nil _
  | cons child rest ih =>
    obtain ⟨log', hwalked, rfl⟩ := Logged.exists_of_after hrun
    let turned : Activation := { a with turns := a.turns ++ [(child, u)] }
    have hrest : ∀ other ∈ rest, other ∈ a.before.tree.children a.node :=
      fun other hother => hheld other (List.mem_cons_of_mem child hother)
    refine .cons (show Shown _ (.turn child u) from trivial) ?_
    show AllShown (turned :: outer) log'
    by_cases howned : (u.tree.parent? child).map ParentLink.owner = some a.node
    · rw [if_pos howned] at hwalked
      obtain ⟨log₁, visited, after, log₂, hchild, hlater, rfl⟩ :=
        Logged.exists_of_andThen hwalked
      obtain ⟨⟨owner, slot⟩, hlink, rfl⟩ := Option.map_eq_some_iff.mp howned
      have hfirst : AllShown (turned :: outer) log₁ := by
        rcases hwalk (turned :: outer) hchild with rfl | ⟨kind, rest, rfl, hbelow⟩
        · exact .nil _
        · exact .cons ⟨turned, outer, slot, rfl, hheld child List.mem_cons_self, hlink⟩ hbelow
      -- the walk of the child is noted at the owner, and the owner keeps what it had
      have hreplays : Replays (turned :: outer) log₁
          ({ turned with entered := a.entered ++ [child] } :: outer) :=
        (v.replaying_walkLogged depth).child hdescend howned hchild
      refine hfirst.append ?_
      rw [hreplays.after_eq]
      exact ih (a := { turned with entered := a.entered ++ [child] }) hdescend hrest hlater
    · rw [if_neg howned] at hwalked
      exact ih (a := turned) hdescend hrest hwalked

/-- **All visits below the first are shown**, if the hooks never walk by themselves. -/
lemma shownBelow_walkLogged (hv : v.Walkless) {entry : Entry} (active : List Activation)
    (hrun : v.walkLogged depth entry id state u = some (log, state', u')) :
    ShownBelow active entry id u log := by
  induction depth generalizing entry id state u log state' u' active with
  | zero => cases hrun
  | succ depth ih =>
    rw [walkLogged] at hrun
    cases hkind : u.tree.kind? id with
    | none =>
      rw [hkind] at hrun
      obtain ⟨rfl, -⟩ := Prod.mk.inj (Option.some.inj hrun)
      exact Or.inl rfl
    | some kind =>
      rw [hkind] at hrun
      obtain ⟨log₁, hwalked, rfl⟩ := Logged.exists_of_after hrun
      obtain ⟨hooked, ⟨descend, visited⟩, u₁, log₂, hvisit, hanswered, rfl⟩ :=
        Logged.exists_of_andThen hwalked
      obtain ⟨log₃, hbelowLeft, rfl⟩ := Logged.exists_of_after hanswered
      obtain ⟨below, walked, u₂, log₄, hbelow, hleaving, rfl⟩ :=
        Logged.exists_of_andThen hbelowLeft
      obtain ⟨left, hleave, rfl⟩ := Logged.exists_of_after hleaving
      -- hooks write nothing, so all that happens in between is the walk of the children
      obtain rfl := (hv.visit kind id state).log_eq_nil hvisit
      obtain rfl := (hv.leave kind id walked).log_eq_nil hleave
      refine Or.inr ⟨kind, _, rfl, .cons (show Shown _ (.answer descend) from trivial) ?_⟩
      refine AllShown.append ?_ (.cons (show Shown _ (.leave kind id u₂) from trivial) (.nil _))
      cases descend with
      | false =>
        obtain ⟨rfl, -⟩ := Prod.mk.inj (Option.some.inj hbelow)
        exact .nil _
      | true =>
        exact allShown_walkChildren (a := ⟨kind, id, u, some true, [], []⟩) ih rfl
          (fun child hchild => hchild) hbelow

end Visitor

/-! ## Nodes that are walked have been visited -/

lemma mem_enter {entry : Entry} {node : NodeId} {active : List Activation} {b : Activation}
    (hb : b ∈ enter entry node active) :
    ∃ a ∈ active, a.kind = b.kind ∧ a.node = b.node ∧ a.before = b.before := by
  match entry, active, hb with
  | .asked, _, hb | .child, [], hb => exact ⟨b, hb, rfl, rfl, rfl⟩
  | .child, a :: outer, hb =>
    rcases List.mem_cons.mp hb with rfl | hb
    · exact ⟨a, List.mem_cons_self, rfl, rfl, rfl⟩
    · exact ⟨b, List.mem_cons_of_mem a hb, rfl, rfl, rfl⟩

/-- An event begins the walk of a node, or those go on that are being walked. -/
lemma mem_observe {active : List Activation} {event : WalkEvent} {b : Activation}
    (hb : b ∈ observe active event) :
    (∃ entry, event = .visit entry b.kind b.node b.before) ∨
    ∃ a ∈ active, a.kind = b.kind ∧ a.node = b.node ∧ a.before = b.before := by
  match event, active, hb with
  | .visit entry kind node u, active, hb =>
    rcases List.mem_cons.mp hb with rfl | hb
    · exact Or.inl ⟨entry, rfl⟩
    · exact Or.inr (mem_enter hb)
  | .answer _, a :: outer, hb | .turn _ _, a :: outer, hb =>
    rcases List.mem_cons.mp hb with rfl | hb
    · exact Or.inr ⟨a, List.mem_cons_self, rfl, rfl, rfl⟩
    · exact Or.inr ⟨b, List.mem_cons_of_mem a hb, rfl, rfl, rfl⟩
  | .leave _ _ _, a :: outer, hb => exact Or.inr ⟨b, List.mem_cons_of_mem a hb, rfl, rfl, rfl⟩

/-- What is being walked was visited before, with the unit that is kept for it. -/
lemma exists_visit_of_mem_activations {log : List WalkEvent} {a : Activation}
    (ha : a ∈ activations log) : ∃ entry, .visit entry a.kind a.node a.before ∈ log := by
  induction log using List.reverseRecOn generalizing a with
  | nil => exact absurd ha List.not_mem_nil
  | append_singleton log event ih =>
    rw [activations, List.foldl_append] at ha
    rcases mem_observe ha with ⟨entry, rfl⟩ | ⟨b, hb, hkind, hnode, hbefore⟩
    · exact ⟨entry, List.mem_concat_self⟩
    · obtain ⟨entry, hmem⟩ := ih hb
      rw [hkind, hnode, hbefore] at hmem
      exact ⟨entry, List.mem_append_left _ hmem⟩

/-! ## The visits of a walk -/

/-- A node that is to be visited with the unit `u`, after the events `before`, is a child of the
innermost node, which had it already when it was visited with the unit `snapshot`. -/
structure Foreseen (before : List WalkEvent) (node : NodeId) (u : CompilationUnit) (owner : NodeId)
    (snapshot : CompilationUnit) : Prop where
  innermost : ∃ a outer, activations before = a :: outer ∧ a.node = owner ∧ a.before = snapshot
  visited : ∃ entry kind, .visit entry kind owner snapshot ∈ before
  held : node ∈ snapshot.tree.children owner
  owned : ∃ slot, u.tree.parent? node = some ⟨owner, slot⟩

/-- All visits in the log but its first event are foreseen. -/
def AllForeseen (id : NodeId) (u : CompilationUnit) (log : List WalkEvent) : Prop :=
  ∀ before entry kind node u₁ rest, log = before ++ .visit entry kind node u₁ :: rest →
    (before = [] ∧ node = id ∧ u₁ = u) ∨ ∃ owner snapshot, Foreseen before node u₁ owner snapshot

/-- No visited node had a child just before its visit that it had not in the tree `σ`. -/
def VisitsOnlyOld (σ : Store) (log : List WalkEvent) : Prop :=
  ∀ entry kind node u₁, .visit entry kind node u₁ ∈ log →
    ∀ child ∈ u₁.tree.children node, child ∈ σ.children node

/-- Where the walk finds old children only, it gets to old nodes only. -/
lemma AllForeseen.reaches {id : NodeId} {u : CompilationUnit} {log : List WalkEvent}
    (h : AllForeseen id u log) (hold : VisitsOnlyOld u.tree log) {before rest : List WalkEvent}
    {entry : Entry} {kind : Kind} {node : NodeId} {u₁ : CompilationUnit}
    (hsplit : log = before ++ .visit entry kind node u₁ :: rest) : u.tree.Reaches id node := by
  -- by induction on what was written down before, for the owner was visited earlier
  induction hlength : before.length using Nat.strongRecOn
    generalizing before entry kind node u₁ rest with
  | ind n ih =>
    rcases h before entry kind node u₁ rest hsplit with ⟨-, rfl, -⟩ | ⟨owner, snapshot, hforeseen⟩
    · exact .refl
    · obtain ⟨entry', kind', hvisited⟩ := hforeseen.visited
      obtain ⟨earlier, later, rfl⟩ := List.append_of_mem hvisited
      rw [List.append_assoc, List.cons_append] at hsplit
      have hshort : earlier.length < n := by
        rw [← hlength, List.length_append, List.length_cons]
        omega
      have howner : u.tree.Reaches id owner := ih earlier.length hshort hsplit rfl
      have hmem : .visit entry' kind' owner snapshot ∈ log :=
        hsplit ▸ List.mem_append_right earlier List.mem_cons_self
      have hchild := hold entry' kind' owner snapshot hmem node hforeseen.held
      exact Relation.ReflTransGen.tail howner hchild

namespace Visitor

variable {v : Visitor S} {depth : Nat} {id : NodeId} {state state' : S} {u u' : CompilationUnit}
  {log : List WalkEvent}

lemma allForeseen_walkLogged (hv : v.Walkless)
    (hlogged : v.walkLogged depth .asked id state u = some (log, state', u')) :
    AllForeseen id u log := by
  intro before entry kind node u₁ rest hsplit
  rcases shownBelow_walkLogged hv [] hlogged with rfl | ⟨first, below, rfl, hshown⟩
  · simp at hsplit
  · cases before with
    | nil =>
      simp only [List.nil_append, List.cons.injEq, WalkEvent.visit.injEq] at hsplit
      exact Or.inl ⟨rfl, hsplit.1.2.2.1.symm, hsplit.1.2.2.2.symm⟩
    | cons event before =>
      obtain ⟨rfl, hbelow⟩ := List.cons.inj hsplit
      obtain ⟨a, outer, slot, hinner, hheld, hlink⟩ := hshown before _ rest hbelow
      have hactive : activations (.visit .asked first id u :: before) = a :: outer := hinner
      have hvisited := exists_visit_of_mem_activations (hactive ▸ List.mem_cons_self)
      exact Or.inr ⟨a.node, a.before,
        ⟨a, outer, hactive, rfl, rfl⟩, hvisited.imp fun _ h => ⟨a.kind, h⟩, hheld, slot, hlink⟩

/-- **Every visited node but the first is visited as a child that its owner had already just before
the owner was visited.**  So nothing is visited that a hook attached to a node which the walk had
come to; and if the walk finds at no node other children than those of the beginning, it visits only
nodes that could be reached at the beginning. -/
theorem visits_foreseen (hv : v.Walkless)
    (hrun : v.walk depth id state u = some (state', u')) :
    ∃ log, v.walkLogged depth .asked id state u = some (log, state', u') ∧
      AllForeseen id u log ∧
      (VisitsOnlyOld u.tree log → ∀ entry kind node u₁, .visit entry kind node u₁ ∈ log →
        u.tree.Reaches id node) := by
  obtain ⟨⟨log, reply⟩, hlogged, hreply⟩ := Option.map_eq_some_iff.mp
    ((v.erase_walkLogged depth .asked id state u).trans hrun)
  obtain rfl : reply = (state', u') := hreply
  have hforeseen := allForeseen_walkLogged hv hlogged
  refine ⟨log, hlogged, hforeseen, fun hold entry kind node u₁ hmem => ?_⟩
  obtain ⟨before, rest, hsplit⟩ := List.append_of_mem hmem
  exact hforeseen.reaches hold hsplit

/-- The visit of a field puts a new method in its place, which is not visited. -/
theorem visits_foreseen_of_replaced_field :
    ∃ (v : Visitor Unit) (u u' : CompilationUnit) (log : List WalkEvent), v.Walkless ∧
      v.walkLogged 3 .asked CompilationUnit.root () u = some (log, (), u') ∧
      u'.tree.children ⟨1⟩ = [⟨3⟩] ∧ AllForeseen CompilationUnit.root u log ∧
      (∀ entry kind node u₁, .visit entry kind node u₁ ∈ log →
        u.tree.Reaches CompilationUnit.root node) := by
  let u : CompilationUnit := ⟨"", "A", "", .build "",
    ⟨#[⟨.compilationUnit ⟨none, [], [], [⟨1⟩]⟩, .dummy, none⟩,
      ⟨.type ⟨.classForm, "A", ⟨"A"⟩, [⟨2⟩]⟩, .dummy, some ⟨CompilationUnit.root, .types⟩⟩,
      ⟨.field ⟨"x", "int"⟩, .dummy, some ⟨⟨1⟩, .members⟩⟩], by decide⟩, .none, none⟩
  let replaceField : Script Unit (Bool × Unit) :=
    .edit (.tree (.alloc (.method ⟨"getX", [], false⟩) .dummy)) fun _ =>
      .edit (.tree (.replace ⟨2⟩ ⟨3⟩)) fun _ => .done (false, ())
  let v : Visitor Unit :=
    { visit := fun kind _ _ => if kind = .field then replaceField else .done (true, ())
      leave := fun _ _ _ => .done () }
  have hv : v.Walkless := by
    refine ⟨fun kind _ _ => ?_, fun _ _ _ => .done ()⟩
    show (if kind = .field then replaceField else .done (true, ())).Walkless
    split_ifs
    · exact .edit fun _ => .edit fun _ => .done _
    · exact .done _
  let replaced : Store :=
    ((u.tree.alloc (.method ⟨"getX", [], false⟩) .dummy).2.replace ⟨2⟩ ⟨3⟩).2
  have hrun : v.walk 3 CompilationUnit.root () u = some ((), u.withTree replaced) := rfl
  have hlog : v.walkLogged 3 .asked CompilationUnit.root () u = some
      ([.visit .asked .compilationUnit CompilationUnit.root u, .answer true, .turn ⟨1⟩ u,
        .visit .child .type ⟨1⟩ u, .answer true, .turn ⟨2⟩ u, .visit .child .field ⟨2⟩ u,
        .answer false, .leave .field ⟨2⟩ (u.withTree replaced),
        .leave .type ⟨1⟩ (u.withTree replaced),
        .leave .compilationUnit CompilationUnit.root (u.withTree replaced)],
        (), u.withTree replaced) := rfl
  obtain ⟨log, hlogged, hforeseen, hreaches⟩ := visits_foreseen hv hrun
  refine ⟨v, u, u.withTree replaced, log, hv, hlogged, by decide +kernel, hforeseen, hreaches ?_⟩
  -- nothing is changed before the last visit
  obtain rfl := (Prod.mk.inj (Option.some.inj (hlog.symm.trans hlogged))).1
  intro entry kind node u₁ hmem child hchild
  simp only [List.mem_cons, WalkEvent.visit.injEq, reduceCtorEq, List.not_mem_nil, false_or,
    or_false] at hmem
  obtain ⟨-, -, -, rfl⟩ | ⟨-, -, -, rfl⟩ | ⟨-, -, -, rfl⟩ := hmem <;> exact hchild

end Visitor

/-- **The children of a node that the walk has still to come to may be replaced, and then the
replacement is visited.**  The visit of one type puts a new method in the place of the field of the
next type, and the walk comes to the method. -/
theorem replacement_ahead_visited :
    ∃ (u u' : CompilationUnit) (v : Visitor Unit) (log : List WalkEvent),
      CompilationUnit.Reached "p/A.java" "A" "" u ∧ v.Lawful ∧ v.Walkless ∧
      u.accept v 4 () = some ((), u') ∧
      v.walkLogged 4 .asked CompilationUnit.root () u = some (log, (), u') ∧
      (calls log).map (fun call => (call.phase, call.node)) =
        [(.visit, CompilationUnit.root), (.visit, ⟨1⟩), (.leave, ⟨1⟩), (.visit, ⟨2⟩),
          (.visit, ⟨4⟩), (.leave, ⟨4⟩), (.leave, ⟨2⟩), (.leave, CompilationUnit.root)] ∧
      ¬ u.tree.Allocated ⟨4⟩ ∧ ¬ u.tree.Reaches CompilationUnit.root ⟨4⟩ := by
  let typeOf (name : String) (members : List NodeId) : Payload :=
    .type ⟨.classForm, name, ⟨name⟩, members⟩
  let method : Payload := .method ⟨"getX", [], false⟩
  let field : Payload := .field ⟨"x", "int"⟩
  -- a unit with two types, of which the second has a field
  let u : CompilationUnit := ⟨"p/A.java", "A", "", .build "",
    ⟨#[⟨.compilationUnit ⟨none, [], [], [⟨1⟩, ⟨2⟩]⟩, .dummy, none⟩,
      ⟨typeOf "A" [], .dummy, some ⟨CompilationUnit.root, .types⟩⟩,
      ⟨typeOf "B" [⟨3⟩], .dummy, some ⟨CompilationUnit.root, .types⟩⟩,
      ⟨field, .dummy, some ⟨⟨2⟩, .members⟩⟩], by decide⟩, .none, none⟩
  have hu : CompilationUnit.Reached "p/A.java" "A" "" u := by
    have hu : CompilationUnit.Reached "p/A.java" "A" "" (u.withTree CompilationUnit.emptyTree) :=
      .create rfl
    have hu := hu.withTree (.alloc (typeOf "A" []) .dummy) nofun rfl
    have hu := hu.withTree (.alloc (typeOf "B" []) .dummy) nofun rfl
    have hu := hu.withTree (.alloc field .dummy) nofun rfl
    have hu := hu.withTree (.pushChild ⟨2⟩ .members ⟨3⟩) nofun rfl
    have hu := hu.withTree (.pushChild CompilationUnit.root .types ⟨1⟩) nofun rfl
    have hu := hu.withTree (.pushChild CompilationUnit.root .types ⟨2⟩) nofun rfl
    obtain ⟨τ, hu, rfl⟩ : ∃ τ, CompilationUnit.Reached "p/A.java" "A" "" (u.withTree τ) ∧
        τ = u.tree := ⟨_, hu, by decide +kernel⟩
    exact hu
  let replaceNext : Script Unit (Bool × Unit) :=
    .edit (.tree (.alloc method .dummy)) fun _ =>
      .edit (.tree (.replace ⟨3⟩ ⟨4⟩)) fun _ => .done (true, ())
  let v : Visitor Unit :=
    { visit := fun _ id _ => if id = ⟨1⟩ then replaceNext else .done (true, ())
      leave := fun _ _ _ => .done () }
  have hlawful : v.Lawful := by
    refine ⟨fun _ id _ => ?_, fun _ _ _ => .done ()⟩
    show (if id = ⟨1⟩ then replaceNext else .done (true, ())).Lawful
    split_ifs
    · exact .edit ⟨trivial, nofun⟩ fun _ => .edit ⟨trivial, nofun⟩ fun _ => .done _
    · exact .done _
  have hwalkless : v.Walkless := by
    refine ⟨fun _ id _ => ?_, fun _ _ _ => .done ()⟩
    show (if id = ⟨1⟩ then replaceNext else .done (true, ())).Walkless
    split_ifs
    · exact .edit fun _ => .edit fun _ => .done _
    · exact .done _
  have hnew : ¬ u.tree.Allocated ⟨4⟩ := by decide
  have hroot := hu.createdWith.rooted.reachable.forest.treeAt (x := CompilationUnit.root)
    (by decide)
  have hcalls : (v.walkLogged 4 .asked CompilationUnit.root () u).map
      (fun logged => (calls logged.1).map fun call => (call.phase, call.node)) = some
        [(.visit, CompilationUnit.root), (.visit, ⟨1⟩), (.leave, ⟨1⟩), (.visit, ⟨2⟩),
          (.visit, ⟨4⟩), (.leave, ⟨4⟩), (.leave, ⟨2⟩), (.leave, CompilationUnit.root)] := by
    decide +kernel
  obtain ⟨⟨log, ⟨⟩, u'⟩, hlogged, hcalls⟩ := Option.map_eq_some_iff.mp hcalls
  have haccept : u.accept v 4 () = some ((), u') := by
    rw [CompilationUnit.accept, CompilationUnit.acceptNode, ← v.erase_walkLogged 4 .asked, hlogged]
    rfl
  exact ⟨u, u', v, log, hu, hlawful, hwalkless, haccept, hlogged, hcalls, hnew,
    fun h => hnew (hroot.allocated_of_reaches h)⟩

end DeclTree
