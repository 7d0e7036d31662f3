import Mathlib.Data.List.Basic
import DeclTree.Proofs.CompilationUnit.Pruning
import DeclTree.Proofs.Store.PreOrder

/-!
# What a walk leaves out

The walk of a pass that attaches nothing visits part of the tree that was there at the beginning, in
its pre-order.  `NodeCourse.unvisited_iff` says which part: a node is left out because its owner was
left out, because the visit of its owner did not want the children, or because it was lost to its
owner before its turn.

Each direction is an induction over the course of the walk.  Whoever is visited was sent for by its
owner, `Course.entered`; whoever is not, though its owner is, has a reason in the log,
`Course.accounted`.  No node is visited twice and no turn comes twice, so the two exclude each
other.
-/

namespace DeclTree

/-! ## The nodes of a log -/

namespace WalkEvent

/-- The node whose hook before the children is called. -/
def visited? : WalkEvent → Option NodeId
  | visit _ _ node _ => some node
  | _ => none

/-- The node whose hook after the children is called. -/
def left? : WalkEvent → Option NodeId
  | leave _ node _ => some node
  | _ => none

/-- The child whose turn has come. -/
def turned? : WalkEvent → Option NodeId
  | turn child _ => some child
  | _ => none

end WalkEvent

/-- The nodes that are visited, in order. -/
def visitedNodes (log : List WalkEvent) : List NodeId := log.filterMap WalkEvent.visited?

/-- The nodes that are left, in order. -/
def leftNodes (log : List WalkEvent) : List NodeId := log.filterMap WalkEvent.left?

/-- The children whose turn comes, in order. -/
def turnedNodes (log : List WalkEvent) : List NodeId := log.filterMap WalkEvent.turned?

/-- The visit of the node has not wanted its children. -/
def Declined (log : List WalkEvent) (node : NodeId) : Prop :=
  ∃ entry kind u, [.visit entry kind node u, .answer false] <:+: log

/-- The child was lost to its owner when its turn came, or already before the owner was visited. -/
def Lost (log : List WalkEvent) (owner child : NodeId) : Prop :=
  (∃ entry kind u, .visit entry kind owner u ∈ log ∧ child ∉ u.tree.children owner) ∨
  ∃ u, .turn child u ∈ log ∧ (u.tree.parent? child).map ParentLink.owner ≠ some owner

/-- The owner had the child before it was visited, the visit wanted the children, and the child
belonged to the owner still when its turn came. -/
def Sent (log : List WalkEvent) (owner child : NodeId) : Prop :=
  ∃ entry kind u u', [.visit entry kind owner u, .answer true] <:+: log ∧
    child ∈ u.tree.children owner ∧ .turn child u' ∈ log ∧
    (u'.tree.parent? child).map ParentLink.owner = some owner

section Logs

variable {log log' inner : List WalkEvent} {entry : Entry} {kind : Kind} {id owner child : NodeId}
  {u u' : CompilationUnit} {descend : Bool}

lemma mem_visitedNodes :
    id ∈ visitedNodes log ↔ ∃ entry kind u, .visit entry kind id u ∈ log := by
  rw [visitedNodes, List.mem_filterMap]
  constructor
  · rintro ⟨event, hmem, hevent⟩
    cases event with
    | visit entry kind node u =>
      obtain rfl := Option.some.inj hevent
      exact ⟨entry, kind, u, hmem⟩
    | _ => cases hevent
  · rintro ⟨entry, kind, u, hmem⟩
    exact ⟨_, hmem, rfl⟩

@[simp] lemma visitedNodes_append (log log' : List WalkEvent) :
    visitedNodes (log ++ log') = visitedNodes log ++ visitedNodes log' :=
  List.filterMap_append ..

@[simp] lemma visitedNodes_turn (child : NodeId) (u : CompilationUnit) (log : List WalkEvent) :
    visitedNodes (.turn child u :: log) = visitedNodes log := rfl

@[simp] lemma visitedNodes_nodeLog :
    visitedNodes (nodeLog entry kind id u descend inner u') = id :: visitedNodes inner := by
  show id :: visitedNodes (inner ++ [.leave kind id u']) = _
  rw [visitedNodes_append]
  exact congrArg (id :: ·) (List.append_nil _)

@[simp] lemma leftNodes_append (log log' : List WalkEvent) :
    leftNodes (log ++ log') = leftNodes log ++ leftNodes log' :=
  List.filterMap_append ..

@[simp] lemma leftNodes_turn (child : NodeId) (u : CompilationUnit) (log : List WalkEvent) :
    leftNodes (.turn child u :: log) = leftNodes log := rfl

@[simp] lemma leftNodes_nodeLog :
    leftNodes (nodeLog entry kind id u descend inner u') = leftNodes inner ++ [id] :=
  leftNodes_append inner [.leave kind id u']

@[simp] lemma turnedNodes_append (log log' : List WalkEvent) :
    turnedNodes (log ++ log') = turnedNodes log ++ turnedNodes log' :=
  List.filterMap_append ..

@[simp] lemma turnedNodes_turn (child : NodeId) (u : CompilationUnit) (log : List WalkEvent) :
    turnedNodes (.turn child u :: log) = child :: turnedNodes log := rfl

@[simp] lemma turnedNodes_nodeLog :
    turnedNodes (nodeLog entry kind id u descend inner u') = turnedNodes inner := by
  show turnedNodes (inner ++ [.leave kind id u']) = _
  rw [turnedNodes_append]
  exact List.append_nil _

/-! ### Parts of a log -/

lemma Declined.mono (h : Declined log id) (hpart : log <:+: log') : Declined log' id := by
  obtain ⟨entry, kind, u, hinfix⟩ := h
  exact ⟨entry, kind, u, hinfix.trans hpart⟩

lemma Lost.mono (h : Lost log owner child) (hpart : log <:+: log') : Lost log' owner child := by
  rcases h with ⟨entry, kind, u, hmem, hgone⟩ | ⟨u, hmem, hlost⟩
  · exact Or.inl ⟨entry, kind, u, hpart.subset hmem, hgone⟩
  · exact Or.inr ⟨u, hpart.subset hmem, hlost⟩

lemma Sent.mono (h : Sent log owner child) (hpart : log <:+: log') : Sent log' owner child := by
  obtain ⟨entry, kind, u, u', hinfix, hheld, hturn, howned⟩ := h
  exact ⟨entry, kind, u, u', hinfix.trans hpart, hheld, hpart.subset hturn, howned⟩

lemma infix_nodeLog : inner <:+: nodeLog entry kind id u descend inner u' :=
  ⟨[.visit entry kind id u, .answer descend], [.leave kind id u'], by simp [nodeLog]⟩

lemma answer_infix_nodeLog :
    [.visit entry kind id u, .answer descend] <:+: nodeLog entry kind id u descend inner u' :=
  ⟨[], inner ++ [.leave kind id u'], rfl⟩

/-! ### What happens once -/

/-- If no value is selected twice, the entry that selects it and what follows are determined. -/
lemma eq_of_nodup_filterMap {α β : Type} {f : α → Option β}
    {xs before after before' after' : List α} {a a' : α} {b : β}
    (hnodup : (xs.filterMap f).Nodup) (ha : f a = some b) (ha' : f a' = some b)
    (hxs : xs = before ++ a :: after) (hxs' : xs = before' ++ a' :: after') :
    a = a' ∧ after = after' := by
  rw [hxs, List.filterMap_append, List.filterMap_cons_some ha] at hnodup
  obtain ⟨hfresh, -⟩ := List.nodup_cons.mp (List.nodup_middle.mp hnodup)
  have hbefore : a' ∉ before := fun hmem =>
    hfresh (List.mem_append_left _ (List.mem_filterMap.mpr ⟨a', hmem, ha'⟩))
  have hafter : a' ∉ after := fun hmem =>
    hfresh (List.mem_append_right _ (List.mem_filterMap.mpr ⟨a', hmem, ha'⟩))
  exact ((List.append_cons_inj_of_notMem hbefore hafter).mp (hxs.symm.trans hxs')).2

lemma eq_of_mem_of_nodup_filterMap {α β : Type} {f : α → Option β} {xs : List α} {a a' : α} {b : β}
    (hnodup : (xs.filterMap f).Nodup) (ha : f a = some b) (ha' : f a' = some b) (hmem : a ∈ xs)
    (hmem' : a' ∈ xs) : a = a' := by
  obtain ⟨before, after, hxs⟩ := List.append_of_mem hmem
  obtain ⟨before', after', hxs'⟩ := List.append_of_mem hmem'
  exact (eq_of_nodup_filterMap hnodup ha ha' hxs hxs').1

/-- An owner that has sent for the child has wanted the children, and had this one. -/
lemma Sent.not_declined_or_lost (h : Sent log owner child) (hvisited : (visitedNodes log).Nodup)
    (hturned : (turnedNodes log).Nodup) : ¬ (Declined log owner ∨ Lost log owner child) := by
  obtain ⟨entry, kind, u, w, hsent, hheld, hturn, howned⟩ := h
  rintro (⟨entry', kind', u', hdeclined⟩ | ⟨entry', kind', u', hmem, hgone⟩ | ⟨w', hmem, hlost⟩)
  · -- the only visit of the owner has one answer
    obtain ⟨before, after, hsplit⟩ := hsent
    obtain ⟨before', after', hsplit'⟩ := hdeclined
    rw [List.append_assoc] at hsplit hsplit'
    obtain ⟨-, hanswer⟩ := eq_of_nodup_filterMap hvisited rfl rfl hsplit.symm hsplit'.symm
    cases hanswer
  · have hvisit := hsent.subset List.mem_cons_self
    cases eq_of_mem_of_nodup_filterMap hvisited rfl rfl hvisit hmem
    exact hgone hheld
  · cases eq_of_mem_of_nodup_filterMap hturned rfl rfl hturn hmem
    exact hlost howned

lemma Sent.visited (h : Sent log owner child) : owner ∈ visitedNodes log := by
  obtain ⟨entry, kind, u, u', hinfix, -⟩ := h
  exact mem_visitedNodes.mpr ⟨entry, kind, u, hinfix.subset List.mem_cons_self⟩

end Logs

/-! ## Courses through a tree -/

variable {σ : Store} {I : CompilationUnit → Prop} {D : Bool → Prop} {entry : Entry} {kind : Kind}
  {id owner child : NodeId} {before u u' : CompilationUnit} {descend : Bool}
  {children : List NodeId} {log inner : List WalkEvent}

/-- The children that are walked, if any are, are those of the tree. -/
lemma mem_children_of_wanted (h : child ∈ if descend then σ.children id else []) :
    descend = true ∧ child ∈ σ.children id := by
  cases descend with
  | false => cases h
  | true => exact ⟨rfl, h⟩

/-! ### Order -/

/-- What lies below the children that are walked, lies below the node. -/
lemma flatMap_wanted_sublist (hσ : σ.Forest) (hid : σ.Allocated id) :
    (id :: (if descend then σ.children id else []).flatMap σ.descendants).Sublist
      (σ.descendants id) := by
  rw [(hσ.treeAt hid).descendants_eq]
  refine List.Sublist.cons_cons id (List.Sublist.flatMap ?_ σ.descendants)
  cases descend with
  | false => exact List.nil_sublist _
  | true => exact .refl _

/-- The turns come in the order of the tree. -/
lemma Course.turnedNodes_sublist (hσ : σ.Forest) (h : Course σ I D owner before children log)
    (hchildren : ∀ c ∈ children, σ.Allocated c) :
    (turnedNodes log).Sublist (children.flatMap σ.descendants) := by
  induction h with
  | done => exact .refl _
  | gone _ _ ih =>
    rw [List.flatMap_cons]
    exact (ih fun c hc => hchildren c (List.mem_cons_of_mem _ hc)).trans
      (List.sublist_append_right _ _)
  | @lost _ _ child _ _ _ _ _ _ ih =>
    have hfirst : [child].Sublist (σ.descendants child) := by
      rw [(hσ.treeAt (hchildren child List.mem_cons_self)).descendants_eq]
      exact List.singleton_sublist.mpr List.mem_cons_self
    rw [List.flatMap_cons, turnedNodes_turn]
    exact hfirst.append (ih fun c hc => hchildren c (List.mem_cons_of_mem _ hc))
  | @walked _ _ child _ _ _ descend _ _ _ _ _ _ _ _ _ ihinner ihrest =>
    have hinner := ihinner fun c hc =>
      hσ.allocated_of_mem_children (mem_children_of_wanted hc).2
    have hfirst := (hinner.cons_cons child).trans
      (flatMap_wanted_sublist hσ (hchildren child List.mem_cons_self))
    rw [List.flatMap_cons, turnedNodes_turn, turnedNodes_append, turnedNodes_nodeLog]
    exact hfirst.append (ihrest fun c hc => hchildren c (List.mem_cons_of_mem _ hc))

/-- The visits come in the order of the turns. -/
lemma Course.visitedNodes_sublist (h : Course σ I D owner before children log) :
    (visitedNodes log).Sublist (turnedNodes log) := by
  induction h with
  | done => exact .refl _
  | gone _ _ ih => exact ih
  | lost _ _ _ ih => exact ih.cons _
  | walked _ _ _ _ _ _ ihinner ihrest =>
    rw [visitedNodes_turn, visitedNodes_append, visitedNodes_nodeLog, turnedNodes_turn,
      turnedNodes_append, turnedNodes_nodeLog]
    exact (ihinner.cons_cons _).append ihrest

/-! ### Why a node is not visited -/

/-- A child that is not visited was lost. -/
lemma Course.lost_of_unvisited (h : Course σ I D owner before children log)
    (hchild : child ∈ children) (hunvisited : child ∉ visitedNodes log) :
    child ∉ before.tree.children owner ∨
      ∃ u, .turn child u ∈ log ∧ (u.tree.parent? child).map ParentLink.owner ≠ some owner := by
  induction h with
  | done => cases hchild
  | gone hgone _ ih =>
    rcases List.mem_cons.mp hchild with rfl | hchild
    · exact Or.inl hgone
    · exact ih hchild hunvisited
  | @lost _ _ _ _ _ u _ hlost _ ih =>
    rcases List.mem_cons.mp hchild with rfl | hchild
    · exact Or.inr ⟨u, List.mem_cons_self, hlost⟩
    · refine (ih hchild hunvisited).imp_right ?_
      rintro ⟨w, hmem, hlost⟩
      exact ⟨w, List.mem_cons_of_mem _ hmem, hlost⟩
  | walked _ _ _ _ _ _ _ ih =>
    rw [visitedNodes_turn, visitedNodes_append, visitedNodes_nodeLog, List.mem_append, not_or]
      at hunvisited
    rcases List.mem_cons.mp hchild with rfl | hchild
    · exact absurd List.mem_cons_self hunvisited.1
    · refine (ih hchild hunvisited.2).imp_right ?_
      rintro ⟨w, hmem, hlost⟩
      exact ⟨w, List.mem_cons_of_mem _ (List.mem_append_right _ hmem), hlost⟩

/-- A node that is not visited although its owner is, has been declined or lost. -/
def Accounted (σ : Store) (log : List WalkEvent) : Prop :=
  ∀ owner child, owner ∈ visitedNodes log → child ∈ σ.children owner →
    child ∉ visitedNodes log → Declined log owner ∨ Lost log owner child

namespace Accounted

variable {log' : List WalkEvent}

lemma append (h : Accounted σ log) (h' : Accounted σ log') : Accounted σ (log ++ log') := by
  intro owner child howner hchild hunvisited
  rw [visitedNodes_append, List.mem_append] at howner
  rw [visitedNodes_append, List.mem_append, not_or] at hunvisited
  rcases howner with howner | howner
  · have hpart : log <:+: log ++ log' := (List.prefix_append log log').isInfix
    exact (h owner child howner hchild hunvisited.1).imp (·.mono hpart) (·.mono hpart)
  · have hpart : log' <:+: log ++ log' := (List.suffix_append log log').isInfix
    exact (h' owner child howner hchild hunvisited.2).imp (·.mono hpart) (·.mono hpart)

lemma turn (h : Accounted σ log) : Accounted σ (.turn id u :: log) := by
  intro owner child howner hchild hunvisited
  have hpart : log <:+: .turn id u :: log := (List.suffix_cons _ log).isInfix
  exact (h owner child howner hchild hunvisited).imp (·.mono hpart) (·.mono hpart)

end Accounted

/-- The log of a node accounts for what it leaves out, if that of what is below the node does. -/
lemma Course.accounted_nodeLog
    (hcourse : Course σ I D id u (if descend then σ.children id else []) inner)
    (hinner : Accounted σ inner) : Accounted σ (nodeLog entry kind id u descend inner u') := by
  intro owner child howner hchild hunvisited
  rw [visitedNodes_nodeLog, List.mem_cons] at howner
  rw [visitedNodes_nodeLog, List.mem_cons, not_or] at hunvisited
  rcases howner with rfl | howner
  · cases descend with
    | false => exact Or.inl ⟨entry, kind, u, answer_infix_nodeLog⟩
    | true =>
      refine Or.inr ((hcourse.lost_of_unvisited hchild hunvisited.2).imp ?_ ?_)
      · intro hgone
        exact ⟨entry, kind, u, List.mem_cons_self, hgone⟩
      · rintro ⟨w, hmem, hlost⟩
        exact ⟨w, infix_nodeLog.subset hmem, hlost⟩
  · exact (hinner owner child howner hchild hunvisited.2).imp (·.mono infix_nodeLog)
      (·.mono infix_nodeLog)

lemma Course.accounted (h : Course σ I D owner before children log) : Accounted σ log := by
  induction h with
  | done =>
    intro owner child howner
    cases howner
  | gone _ _ ih => exact ih
  | lost _ _ _ ih => exact ih.turn
  | walked _ _ _ _ hinner _ ihinner ihrest =>
    exact ((hinner.accounted_nodeLog ihinner).append ihrest).turn

/-! ### Why a node is visited -/

/-- Some owner, which has the child in the tree, has sent for it. -/
def SentFor (σ : Store) (log : List WalkEvent) (child : NodeId) : Prop :=
  ∃ owner, child ∈ σ.children owner ∧ Sent log owner child

lemma SentFor.mono {log' : List WalkEvent} (h : SentFor σ log child) (hpart : log <:+: log') :
    SentFor σ log' child := by
  obtain ⟨owner, hchild, hsent⟩ := h
  exact ⟨owner, hchild, hsent.mono hpart⟩

/-- A node that is visited in a course of children is one of them, and belonged to the owner, or
some owner below has sent for it. -/
def Entered (σ : Store) (owner : NodeId) (before : CompilationUnit) (children : List NodeId)
    (log : List WalkEvent) : Prop :=
  ∀ child ∈ visitedNodes log,
    (child ∈ children ∧ child ∈ before.tree.children owner ∧
      ∃ u, .turn child u ∈ log ∧ (u.tree.parent? child).map ParentLink.owner = some owner) ∨
    SentFor σ log child

/-- In the log of a node, all that is visited below the node was sent for. -/
lemma Entered.sentFor (h : Entered σ id u (if descend then σ.children id else []) inner)
    (hvisited : child ∈ visitedNodes (nodeLog entry kind id u descend inner u')) :
    child = id ∨ SentFor σ (nodeLog entry kind id u descend inner u') child := by
  rw [visitedNodes_nodeLog, List.mem_cons] at hvisited
  refine hvisited.imp_right fun hvisited => ?_
  rcases h child hvisited with ⟨hmem, hheld, w, hturn, howned⟩ | hsent
  · obtain ⟨rfl, hchild⟩ := mem_children_of_wanted hmem
    exact ⟨id, hchild, entry, kind, u, w, answer_infix_nodeLog, hheld,
      infix_nodeLog.subset hturn, howned⟩
  · exact hsent.mono infix_nodeLog

lemma Course.entered (h : Course σ I D owner before children log) :
    Entered σ owner before children log := by
  induction h with
  | done =>
    intro child hvisited
    cases hvisited
  | gone _ _ ih =>
    intro child hvisited
    exact (ih child hvisited).imp_left fun h => ⟨List.mem_cons_of_mem _ h.1, h.2⟩
  | @lost _ _ id _ log u _ _ _ ih =>
    intro child hvisited
    have hpart : log <:+: .turn id u :: log := (List.suffix_cons _ log).isInfix
    refine (ih child hvisited).imp ?_ (·.mono hpart)
    rintro ⟨hmem, hheld, w, hturn, howned⟩
    exact ⟨List.mem_cons_of_mem id hmem, hheld, w, hpart.subset hturn, howned⟩
  | @walked _ _ id _ log kind descend inner u u' _ hheld howned _ _ _ ihinner ihrest =>
    intro child hvisited
    let first := nodeLog .child kind id u descend inner u'
    rw [visitedNodes_turn, visitedNodes_append, List.mem_append] at hvisited
    rcases hvisited with hvisited | hvisited
    · rcases ihinner.sentFor hvisited with rfl | hsent
      · exact Or.inl ⟨List.mem_cons_self, hheld, u, List.mem_cons_self, howned⟩
      · exact Or.inr (hsent.mono ⟨[.turn id u], log, rfl⟩)
    · have hpart : log <:+: .turn id u :: (first ++ log) := ⟨.turn id u :: first, [], by simp⟩
      refine (ihrest child hvisited).imp ?_ (·.mono hpart)
      rintro ⟨hmem, hheld, w, hturn, howned⟩
      exact ⟨List.mem_cons_of_mem id hmem, hheld, w, hpart.subset hturn, howned⟩

/-! ### The whole walk -/

namespace NodeCourse

lemma turnedNodes_sublist (hσ : σ.Forest) (hid : σ.Allocated id)
    (h : NodeCourse σ I D entry id u log) :
    (id :: turnedNodes log).Sublist (σ.descendants id) := by
  obtain ⟨-, hinner⟩ := h
  have hbelow := hinner.turnedNodes_sublist hσ fun c hc =>
    hσ.allocated_of_mem_children (mem_children_of_wanted hc).2
  rw [turnedNodes_nodeLog]
  exact (hbelow.cons_cons id).trans (flatMap_wanted_sublist hσ hid)

/-- **The visits are a part of the descendants, in their order.** -/
theorem visitedNodes_sublist (hσ : σ.Forest) (hid : σ.Allocated id)
    (h : NodeCourse σ I D entry id u log) : (visitedNodes log).Sublist (σ.descendants id) := by
  have hturned := h.turnedNodes_sublist hσ hid
  obtain ⟨-, hinner⟩ := h
  rw [turnedNodes_nodeLog] at hturned
  rw [visitedNodes_nodeLog]
  exact (hinner.visitedNodes_sublist.cons_cons id).trans hturned

/-- **A node is left out exactly if its owner was left out or declined its children, or if the owner
had lost it by its turn.** -/
theorem unvisited_iff (hσ : σ.Forest) (hid : σ.Allocated id)
    (h : NodeCourse σ I D entry id u log) (hne : child ≠ id) (hchild : child ∈ σ.children owner) :
    child ∉ visitedNodes log ↔
      owner ∉ visitedNodes log ∨ Declined log owner ∨ Lost log owner child := by
  have hvisits : (visitedNodes log).Nodup :=
    (h.visitedNodes_sublist hσ hid).nodup (Store.nodup_descendants σ id)
  have hturns : (turnedNodes log).Nodup :=
    (List.nodup_cons.mp ((h.turnedNodes_sublist hσ hid).nodup (Store.nodup_descendants σ id))).2
  obtain ⟨-, hinner⟩ := h
  constructor
  · intro hunvisited
    refine or_iff_not_imp_left.mpr fun howner => ?_
    exact hinner.accounted_nodeLog hinner.accounted owner child (not_not.mp howner) hchild
      hunvisited
  · intro hreason hvisited
    rcases hinner.entered.sentFor hvisited with heq | ⟨owner', hchild', hsent⟩
    · exact hne heq
    · -- the tree has one owner for each node
      obtain ⟨slot, hslot⟩ := Store.mem_children.mp hchild
      obtain ⟨slot', hslot'⟩ := Store.mem_children.mp hchild'
      have hlink := (hσ.linked hslot).symm.trans (hσ.linked hslot')
      obtain ⟨rfl, -⟩ := ParentLink.mk.inj (Option.some.inj hlink)
      exact hreason.elim (· hsent.visited) (hsent.not_declined_or_lost hvisits hturns)

end NodeCourse

/-! ### Passes that leave out nothing -/

/-- If the unit stays as it is and the children are always wanted, all of them are walked. -/
lemma Course.complete (hu : u.tree.Forest)
    (h : Course u.tree (fun u' => u' = u) (fun descend => descend = true) owner before children log)
    (hbefore : before = u) (hchildren : ∀ c ∈ children, c ∈ u.tree.children owner) :
    visitedNodes log = children.flatMap u.tree.descendants ∧
      leftNodes log = children.flatMap u.tree.postOrder := by
  induction h with
  | done => exact ⟨rfl, rfl⟩
  | gone hgone _ _ =>
    rw [hbefore] at hgone
    exact absurd (hchildren _ List.mem_cons_self) hgone
  | lost hu' hlost _ _ =>
    obtain ⟨slot, hslot⟩ := Store.mem_children.mp (hchildren _ List.mem_cons_self)
    rw [hu', hu.linked hslot] at hlost
    exact absurd rfl hlost
  | @walked owner before child rest log kind descend inner u₁ u₂ hu₁ _ _ hdescend _ _ ihinner
      ihrest =>
    have hchild := hu.treeAt (hu.allocated_of_mem_children (hchildren child List.mem_cons_self))
    rw [hdescend] at ihinner
    obtain ⟨hvisited, hleft⟩ := ihinner hu₁ fun _ hc => hc
    obtain ⟨hvisited', hleft'⟩ :=
      ihrest hbefore fun c hc => hchildren c (List.mem_cons_of_mem child hc)
    constructor
    · rw [visitedNodes_turn, visitedNodes_append, visitedNodes_nodeLog, hvisited, hvisited',
        List.flatMap_cons, hchild.descendants_eq]
      rfl
    · rw [leftNodes_turn, leftNodes_append, leftNodes_nodeLog, hleft, hleft', List.flatMap_cons,
        hchild.postOrder_eq]
      rfl

lemma NodeCourse.complete (hu : u.tree.Forest) (hid : u.tree.Allocated id)
    (h : NodeCourse u.tree (fun u' => u' = u) (fun descend => descend = true) entry id u log) :
    visitedNodes log = u.tree.descendants id ∧ leftNodes log = u.tree.postOrder id := by
  obtain ⟨rfl, hinner⟩ := h
  obtain ⟨hvisited, hleft⟩ := hinner.complete hu rfl fun _ hc => hc
  rw [visitedNodes_nodeLog, leftNodes_nodeLog, hvisited, hleft, (hu.treeAt hid).descendants_eq,
    (hu.treeAt hid).postOrder_eq]
  exact ⟨rfl, rfl⟩

/-! ## Walks of reachable units -/

namespace CompilationUnit

variable {S : Type} {v : Visitor S}

/-- **A pass that attaches nothing and never walks by itself visits what remains of the tree.**  Its
walk from any node ends.  It visits part of the descendants that the node had at the beginning, in
their order and none twice: the node itself, and each other node unless its owner of the beginning
was left out or declined its children, or had lost the node by its turn.  So a pass that only reads
and wants all children visits all descendants in order, leaves them in post-order, and the unit is
as before. -/
theorem Reached.visits_what_remains {path mainTypeName source : String}
    (hu : Reached path mainTypeName source u) (hid : u.tree.Allocated id)
    (hv : v.MakesOnly UnitEdit.Pruning) (state : S) :
    ∃ log state' u',
      (∀ depth, u.tree.size ≤ depth → v.walk depth id state u = some (state', u') ∧
        v.walkLogged depth .asked id state u = some (log, state', u')) ∧
      (visitedNodes log).Sublist (u.tree.descendants id) ∧ (visitedNodes log).Nodup ∧
      id ∈ visitedNodes log ∧
      (∀ n ∈ u.tree.descendants id, n ≠ id → ∃ owner slot,
        u.tree.parent? n = some ⟨owner, slot⟩ ∧
        (n ∉ visitedNodes log ↔
          owner ∉ visitedNodes log ∨ Declined log owner ∨ Lost log owner n)) ∧
      ((v.MakesOnly fun _ => False) → v.Descending →
        visitedNodes log = u.tree.descendants id ∧ leftNodes log = u.tree.postOrder id ∧
        u' = u) := by
  have hforest := hu.createdWith.rooted.reachable.forest
  have ht := hforest.treeAt hid
  obtain ⟨log, state', u', hrun, hcourse, -⟩ := (hv.keeps_prunes u.tree).exists_walkLogged hforest
    (fun _ h => h) ht.unfoldsWithin .asked state (.refl hforest)
  have hsub := hcourse.visitedNodes_sublist hforest hid
  refine ⟨log, state', u', fun depth hdepth => ⟨?_, hrun depth hdepth⟩, hsub,
    hsub.nodup (Store.nodup_descendants u.tree id), ?_, fun n hn hne => ?_, fun hreads hall => ?_⟩
  · rw [← v.erase_walkLogged depth .asked, hrun depth hdepth]
    rfl
  · obtain ⟨-, -⟩ := hcourse
    rw [visitedNodes_nodeLog]
    exact List.mem_cons_self
  · rcases Relation.ReflTransGen.cases_tail (ht.mem_descendants.mp hn) with
      heq | ⟨owner, -, hchild⟩
    · exact absurd heq hne
    · obtain ⟨slot, hslot⟩ := Store.mem_children.mp hchild
      exact ⟨owner, slot, hforest.linked hslot, hcourse.unvisited_iff hforest hid hne hchild⟩
  · have hprunes : ∀ w, w = u → u.tree.Prunes w.tree := by
      rintro w rfl
      exact .refl hforest
    obtain ⟨log', state'', u'', hrun', hcourse', hunit⟩ :=
      (hreads.keeps_unit hall u).exists_walkLogged hforest hprunes ht.unfoldsWithin .asked state rfl
    -- it is the same walk
    have hsame := (hrun u.tree.size (Nat.le_refl _)).symm.trans (hrun' _ (Nat.le_refl _))
    obtain ⟨rfl, hreply⟩ := Prod.mk.inj (Option.some.inj hsame)
    obtain ⟨-, rfl⟩ := Prod.mk.inj hreply
    obtain ⟨hvisited, hleft⟩ := hcourse'.complete hforest hid
    exact ⟨hvisited, hleft, hunit⟩

/-- The visit of the first of three types detaches the second and declines the children of the
first.  A pass without hooks visits all of the tree. -/
theorem visits_what_remains_of_detached_type :
    ∃ (u u' : CompilationUnit) (v : Visitor Unit) (log : List WalkEvent),
      Reached "p/A.java" "A" "" u ∧ v.MakesOnly UnitEdit.Pruning ∧
      u.tree.descendants root = [root, ⟨1⟩, ⟨4⟩, ⟨2⟩, ⟨3⟩, ⟨5⟩] ∧
      v.walk 6 root () u = some ((), u') ∧
      v.walkLogged 6 .asked root () u = some (log, (), u') ∧
      visitedNodes log = [root, ⟨1⟩, ⟨3⟩, ⟨5⟩] ∧ (visitedNodes log).Nodup ∧
      (Declined log ⟨1⟩ ∨ Lost log ⟨1⟩ ⟨4⟩) ∧ (Declined log root ∨ Lost log root ⟨2⟩) ∧
      ∃ all, (Hooks.none : Hooks Unit).toVisitor.walkLogged 6 .asked root () u = some (all, (), u) ∧
        visitedNodes all = [root, ⟨1⟩, ⟨4⟩, ⟨2⟩, ⟨3⟩, ⟨5⟩] ∧
        leftNodes all = [⟨4⟩, ⟨1⟩, ⟨2⟩, ⟨5⟩, ⟨3⟩, root] := by
  let typeOf (name : String) (members : List NodeId) : Payload :=
    .type ⟨.classForm, name, ⟨name⟩, members⟩
  let method : Payload := .method ⟨"run", [], false⟩
  let u : CompilationUnit := ⟨"p/A.java", "A", "", .build "",
    ⟨#[⟨.compilationUnit ⟨none, [], [], [⟨1⟩, ⟨2⟩, ⟨3⟩]⟩, .dummy, none⟩,
      ⟨typeOf "A" [⟨4⟩], .dummy, some ⟨root, .types⟩⟩,
      ⟨typeOf "B" [], .dummy, some ⟨root, .types⟩⟩,
      ⟨typeOf "C" [⟨5⟩], .dummy, some ⟨root, .types⟩⟩,
      ⟨method, .dummy, some ⟨⟨1⟩, .members⟩⟩,
      ⟨method, .dummy, some ⟨⟨3⟩, .members⟩⟩], by decide⟩, .none, none⟩
  have hu : Reached "p/A.java" "A" "" u := by
    have hu : Reached "p/A.java" "A" "" (u.withTree emptyTree) := .create rfl
    have hu := hu.withTree (.alloc (typeOf "A" []) .dummy) nofun rfl
    have hu := hu.withTree (.alloc (typeOf "B" []) .dummy) nofun rfl
    have hu := hu.withTree (.alloc (typeOf "C" []) .dummy) nofun rfl
    have hu := hu.withTree (.alloc method .dummy) nofun rfl
    have hu := hu.withTree (.alloc method .dummy) nofun rfl
    have hu := hu.withTree (.pushChild root .types ⟨1⟩) nofun rfl
    have hu := hu.withTree (.pushChild root .types ⟨2⟩) nofun rfl
    have hu := hu.withTree (.pushChild root .types ⟨3⟩) nofun rfl
    have hu := hu.withTree (.pushChild ⟨1⟩ .members ⟨4⟩) nofun rfl
    have hu := hu.withTree (.pushChild ⟨3⟩ .members ⟨5⟩) nofun rfl
    obtain ⟨τ, hu, rfl⟩ : ∃ τ, Reached "p/A.java" "A" "" (u.withTree τ) ∧ τ = u.tree :=
      ⟨_, hu, by decide +kernel⟩
    exact hu
  let detachNext : Script Unit (Bool × Unit) :=
    .edit (.tree (.detach ⟨2⟩)) fun _ => .done (false, ())
  let v : Visitor Unit :=
    { visit := fun _ id _ => if id = ⟨1⟩ then detachNext else .done (true, ())
      leave := fun _ _ _ => .done () }
  have hv : v.MakesOnly UnitEdit.Pruning := by
    refine ⟨⟨fun _ id _ => ?_, fun _ _ _ => .done ()⟩, fun _ id _ => ?_, fun _ _ _ => .done ()⟩
    · show (if id = ⟨1⟩ then detachNext else .done (true, ())).Walkless
      split_ifs
      · exact .edit fun _ => .done _
      · exact .done _
    · show (if id = ⟨1⟩ then detachNext else .done (true, ())).Only UnitEdit.Pruning
      split_ifs
      · exact .edit trivial fun _ => .done _
      · exact .done _
  have hroot : u.tree.Allocated root := by decide
  obtain ⟨log, ⟨⟩, u', hrun, -, hnodup, -, hleftOut, -⟩ := hu.visits_what_remains hroot hv ()
  obtain ⟨hwalk, hlogged⟩ := hrun 6 (by decide)
  have hvisits : visitedNodes log = [root, ⟨1⟩, ⟨3⟩, ⟨5⟩] := by
    have hmap : (v.walkLogged 6 .asked root () u).map (fun logged => visitedNodes logged.1) =
        some [root, ⟨1⟩, ⟨3⟩, ⟨5⟩] := by decide +kernel
    rw [hlogged] at hmap
    exact Option.some.inj hmap
  have hlist : u.tree.descendants root = [root, ⟨1⟩, ⟨4⟩, ⟨2⟩, ⟨3⟩, ⟨5⟩] :=
    (hu.createdWith.rooted.reachable.forest.treeAt hroot).descendants_eq_preOrder.trans rfl
  -- a node that is left out although its owner was visited
  have hreason : ∀ n ∈ u.tree.descendants root, n ≠ root → n ∉ visitedNodes log →
      ∃ owner slot, u.tree.parent? n = some ⟨owner, slot⟩ ∧
        (owner ∈ visitedNodes log → Declined log owner ∨ Lost log owner n) := by
    intro n hn hne hunvisited
    obtain ⟨owner, slot, hlink, hiff⟩ := hleftOut n hn hne
    exact ⟨owner, slot, hlink, fun howner => (hiff.mp hunvisited).resolve_left (· howner)⟩
  obtain ⟨_, _, hlink₄, hfour⟩ :=
    hreason ⟨4⟩ (hlist ▸ by decide) (by decide) (hvisits ▸ by decide)
  obtain ⟨_, _, hlink₂, htwo⟩ :=
    hreason ⟨2⟩ (hlist ▸ by decide) (by decide) (hvisits ▸ by decide)
  cases hlink₄
  cases hlink₂
  have hreads : ∀ {P : UnitEdit → Prop}, (Hooks.none : Hooks Unit).toVisitor.MakesOnly P :=
    ⟨⟨fun _ _ _ => .done _, fun _ _ _ => .done _⟩, fun _ _ _ => .done _, fun _ _ _ => .done _⟩
  obtain ⟨all, ⟨⟩, u'', hrun', -, -, -, -, hall⟩ := hu.visits_what_remains hroot hreads ()
  obtain ⟨hvisited, hleft, rfl⟩ := hall hreads fun _ _ _ => .done rfl
  exact ⟨u, u', v, log, hu, hv, hlist, hwalk, hlogged, hvisits, hnodup,
    hfour (hvisits ▸ by decide), htwo (hvisits ▸ by decide), all, (hrun' 6 (by decide)).2,
    hvisited.trans hlist, hleft.trans (by decide +kernel)⟩

end CompilationUnit

end DeclTree
