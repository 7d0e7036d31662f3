import DeclTree.Proofs.CompilationUnit.WalkLog
import DeclTree.Proofs.Store.Views

/-!
# How the hooks of a walk nest

The log of a walk tells at each instant which nodes are being walked: `activations` collects them,
the innermost first, and for each of them what has become of its children.  Hooks may do anything to
the unit and walk on by themselves; still each call of the hook before the children has its call of
the hook after them, `Balanced`, and each event fits what goes on when it happens, `Fits`.

The three parts of a walk replay the log on a stack of activations: a script leaves the stack as it
is, the children of a node are noted in its top entry, and so is a node that is walked as a child.
`Visitor.replaying_walkLogged` is the induction over the depth of the walk.
-/

namespace DeclTree

/-! ## Calls of hooks -/

/-- A call of a hook for a node. -/
structure HookCall where
  /-- The end at which the hook is called. -/
  phase : Phase
  /-- The kind of nodes whose hook it is. -/
  kind : Kind
  /-- The node. -/
  node : NodeId

/-- The calls come in pairs, one for each end of a node, with pairs only between the two. -/
inductive Balanced : List HookCall → Prop
  | nil : Balanced []
  | pair (kind : Kind) (node : NodeId) {inner rest : List HookCall} (hinner : Balanced inner)
    (hrest : Balanced rest) :
    Balanced (⟨.visit, kind, node⟩ :: (inner ++ ⟨.leave, kind, node⟩ :: rest))

lemma Balanced.append {calls calls' : List HookCall} (h : Balanced calls)
    (h' : Balanced calls') : Balanced (calls ++ calls') := by
  induction h with
  | nil => exact h'
  | pair kind node hinner _ _ ih =>
    rw [List.cons_append, List.append_assoc, List.cons_append]
    exact .pair kind node hinner ih

namespace WalkEvent

/-- The call of a hook that the event is, if it is one. -/
def call? : WalkEvent → Option HookCall
  | visit _ kind node _ => some ⟨.visit, kind, node⟩
  | leave kind node _ => some ⟨.leave, kind, node⟩
  | _ => none

end WalkEvent

/-- The calls of hooks in a log. -/
def calls (log : List WalkEvent) : List HookCall := log.filterMap WalkEvent.call?

lemma calls_append (log log' : List WalkEvent) : calls (log ++ log') = calls log ++ calls log' :=
  List.filterMap_append ..

/-! ## Activations -/

/-- A node that is being walked, from the call of the hook before its children to the call of the
hook after them. -/
structure Activation where
  /-- The kind whose hooks are called. -/
  kind : Kind
  /-- The node. -/
  node : NodeId
  /-- The unit just before the hook before the children was called. -/
  before : CompilationUnit
  /-- What that hook has answered, if it has. -/
  descend? : Option Bool
  /-- The children whose turn has come, each with the unit at that instant. -/
  turns : List (NodeId × CompilationUnit)
  /-- The children that the walk entered. -/
  entered : List NodeId

/-- Those of the children that belonged to the owner when their turn came. -/
def ownedAtTurn (owner : NodeId) (turns : List (NodeId × CompilationUnit)) : List NodeId :=
  (turns.filter fun turn => (turn.2.tree.parent? turn.1).map ParentLink.owner = some owner).map
    Prod.fst

lemma ownedAtTurn_cons (owner child : NodeId) (u : CompilationUnit)
    (turns : List (NodeId × CompilationUnit)) :
    ownedAtTurn owner ((child, u) :: turns) =
      if (u.tree.parent? child).map ParentLink.owner = some owner then
        child :: ownedAtTurn owner turns
      else ownedAtTurn owner turns := by
  simp only [ownedAtTurn, List.filter_cons, decide_eq_true_eq]
  split_ifs <;> rfl

/-- The walk has done with the children of the node: if the visit wanted them, the turn of each of
them has come, in order, and those that belonged to the node then were entered. -/
structure Activation.Complete (a : Activation) : Prop where
  turns_eq : ∃ descend, a.descend? = some descend ∧
    a.turns.map Prod.fst = if descend then a.before.tree.children a.node else []
  entered_eq : a.entered = ownedAtTurn a.node a.turns

/-- A walk that enters a child notes it at the innermost node. -/
def enter : Entry → NodeId → List Activation → List Activation
  | .child, node, a :: outer => { a with entered := a.entered ++ [node] } :: outer
  | _, _, active => active

/-- The activations after one more event, the innermost first. -/
def observe : List Activation → WalkEvent → List Activation
  | active, .visit entry kind node u => ⟨kind, node, u, none, [], []⟩ :: enter entry node active
  | a :: outer, .answer descend => { a with descend? := some descend } :: outer
  | a :: outer, .turn child u => { a with turns := a.turns ++ [(child, u)] } :: outer
  | _ :: outer, .leave _ _ _ => outer
  | [], _ => []

/-- The activations after the events of a log. -/
def activations (log : List WalkEvent) : List Activation := log.foldl observe []

/-- The innermost node whose visit wanted its children and that is not left yet. -/
def innermost? (active : List Activation) : Option NodeId :=
  (active.find? fun a => a.descend? = some true).map Activation.node

/-- What an event presupposes: a node that is entered as a child belongs to the innermost node, and
a node that is left is the innermost one, with all its children done. -/
def Fits (active : List Activation) : WalkEvent → Prop
  | .visit .child _ node u =>
    ∃ owner slot, u.tree.parent? node = some ⟨owner, slot⟩ ∧ innermost? active = some owner
  | .leave kind node _ =>
    ∃ a outer, active = a :: outer ∧ a.kind = kind ∧ a.node = node ∧ a.Complete
  | _ => True

/-- Each event of the log fits the activations when it happens. -/
def AllFit (active : List Activation) : List WalkEvent → Prop
  | [] => True
  | event :: log => Fits active event ∧ AllFit (observe active event) log

lemma AllFit.append {active : List Activation} {log log' : List WalkEvent} (h : AllFit active log)
    (h' : AllFit (log.foldl observe active) log') : AllFit active (log ++ log') := by
  induction log generalizing active with
  | nil => exact h'
  | cons event log ih => exact ⟨h.1, ih h.2 h'⟩

lemma AllFit.fits {active : List Activation} {before rest : List WalkEvent} {event : WalkEvent}
    (h : AllFit active (before ++ event :: rest)) : Fits (before.foldl observe active) event := by
  induction before generalizing active with
  | nil => exact h.1
  | cons first before ih => exact ih h.2

/-! ## Replaying a log -/

/-- Replayed on the activations `active`, the log leads to `after`; its events fit, and its calls
are balanced. -/
structure Replays (active : List Activation) (log : List WalkEvent) (after : List Activation) :
    Prop where
  allFit : AllFit active log
  after_eq : log.foldl observe active = after
  balanced : Balanced (calls log)

namespace Replays

variable {active middle after : List Activation} {log log' : List WalkEvent}

lemma nil (active : List Activation) : Replays active [] active := ⟨trivial, rfl, .nil⟩

lemma append (h : Replays active log middle) (h' : Replays middle log' after) :
    Replays active (log ++ log') after where
  allFit := h.allFit.append (h.after_eq ▸ h'.allFit)
  after_eq := by rw [List.foldl_append, h.after_eq, h'.after_eq]
  balanced := by
    rw [calls_append]
    exact h.balanced.append h'.balanced

/-- A turn is noted at the innermost node. -/
lemma turn {a : Activation} {outer : List Activation} {child : NodeId} {u : CompilationUnit}
    (h : Replays ({ a with turns := a.turns ++ [(child, u)] } :: outer) log after) :
    Replays (a :: outer) (.turn child u :: log) after where
  allFit := ⟨trivial, h.allFit⟩
  after_eq := h.after_eq
  balanced := h.balanced

/-- The log of a node: its visit, the children, and its leave. -/
lemma node {entry : Entry} {kind : Kind} {id : NodeId} {u u₂ : CompilationUnit} {descend : Bool}
    {hooked below left : List WalkEvent} {a : Activation}
    (hfits : Fits active (.visit entry kind id u))
    (hhooked : Replays (⟨kind, id, u, none, [], []⟩ :: enter entry id active) hooked
      (⟨kind, id, u, none, [], []⟩ :: enter entry id active))
    (hbelow : Replays (⟨kind, id, u, some descend, [], []⟩ :: enter entry id active) below
      (a :: enter entry id active))
    (hkind : a.kind = kind) (hnode : a.node = id) (hcomplete : a.Complete)
    (hleft : Replays (enter entry id active) left (enter entry id active)) :
    Replays active (.visit entry kind id u ::
      (hooked ++ .answer descend :: (below ++ .leave kind id u₂ :: left)))
      (enter entry id active) where
  allFit := by
    refine ⟨hfits, hhooked.allFit.append ?_⟩
    show AllFit (hooked.foldl observe (_ :: enter entry id active)) _
    rw [hhooked.after_eq]
    refine ⟨trivial, hbelow.allFit.append ?_⟩
    show AllFit (below.foldl observe (_ :: enter entry id active)) _
    rw [hbelow.after_eq]
    exact ⟨⟨a, _, rfl, hkind, hnode, hcomplete⟩, hleft.allFit⟩
  after_eq := by
    simp only [List.foldl_cons, List.foldl_append, observe, hhooked.after_eq, hbelow.after_eq,
      hleft.after_eq]
  balanced := by
    have hinner := hhooked.balanced.append hbelow.balanced
    show Balanced (⟨.visit, kind, id⟩ :: calls (hooked ++ .answer descend :: _))
    rw [calls_append]
    show Balanced (⟨.visit, kind, id⟩ :: (calls hooked ++ calls (below ++ .leave kind id u₂ :: _)))
    rw [calls_append, ← List.append_assoc]
    exact .pair kind id hinner hleft.balanced

end Replays

variable {S R : Type}

/-- A script leaves the activations as they are, if the walks do that it asks for. -/
lemma Script.replays_run {walk : NodeId → S → CompilationUnit → Logged S}
    (hwalk : ∀ {id state u log state' u'}, walk id state u = some (log, state', u') →
      ∀ active, Replays active log active)
    (script : Script S R) {u v : CompilationUnit} {log : List WalkEvent} {result : R}
    (hrun : script.runLogged walk u = some (log, result, v)) (active : List Activation) :
    Replays active log active := by
  induction script generalizing u log with
  | done result =>
    obtain ⟨rfl, -⟩ := Prod.mk.inj (Option.some.inj hrun)
    exact .nil active
  | inspect next ih => exact ih u hrun
  | edit change next ih =>
    rw [runLogged] at hrun
    cases happly : change.apply u with
    | none =>
      rw [happly] at hrun
      cases hrun
    | some reply =>
      rw [happly] at hrun
      exact ih reply.1 hrun
  | walk id state next ih =>
    obtain ⟨log₁, state', after, log₂, hnested, hrest, rfl⟩ := Logged.exists_of_andThen hrun
    exact (hwalk hnested active).append (ih state' hrest)

namespace Visitor

/-- The turns of the children are noted at their owner, and so are those that are entered. -/
lemma replays_walkChildren {walk : NodeId → S → CompilationUnit → Logged S}
    {outer : List Activation}
    (hwalk : ∀ {a : Activation} {child state u log state' u'}, a.descend? = some true →
      (u.tree.parent? child).map ParentLink.owner = some a.node →
      walk child state u = some (log, state', u') →
      Replays (a :: outer) log ({ a with entered := a.entered ++ [child] } :: outer))
    {children : List NodeId} {state state' : S} {u u' : CompilationUnit} {log : List WalkEvent}
    {a : Activation} (hdescend : a.descend? = some true)
    (hrun : walkChildrenLogged walk a.node children state u = some (log, state', u')) :
    ∃ turns, turns.map Prod.fst = children ∧ Replays (a :: outer) log
      ({ a with turns := a.turns ++ turns,
                entered := a.entered ++ ownedAtTurn a.node turns } :: outer) := by
  induction children generalizing state u log a with
  | nil =>
    obtain ⟨rfl, -⟩ := Prod.mk.inj (Option.some.inj hrun)
    exact ⟨[], rfl, by simpa [ownedAtTurn] using Replays.nil (a :: outer)⟩
  | cons child rest ih =>
    obtain ⟨log', hwalked, rfl⟩ := Logged.exists_of_after hrun
    let turned : Activation := { a with turns := a.turns ++ [(child, u)] }
    by_cases howned : (u.tree.parent? child).map ParentLink.owner = some a.node
    · rw [if_pos howned] at hwalked
      obtain ⟨log₁, visited, after, log₂, hchild, hrest, rfl⟩ :=
        Logged.exists_of_andThen hwalked
      have hfirst := hwalk (a := turned) hdescend howned hchild
      obtain ⟨turns, hturns, hreplays⟩ :=
        ih (a := { turned with entered := a.entered ++ [child] }) hdescend hrest
      refine ⟨(child, u) :: turns, by rw [List.map_cons, hturns], .turn ?_⟩
      rw [ownedAtTurn_cons, if_pos howned]
      simpa [turned] using hfirst.append hreplays
    · rw [if_neg howned] at hwalked
      obtain ⟨turns, hturns, hreplays⟩ := ih (a := turned) hdescend hwalked
      refine ⟨(child, u) :: turns, by rw [List.map_cons, hturns], .turn ?_⟩
      rw [ownedAtTurn_cons, if_neg howned]
      simpa [turned] using hreplays

/-- A node that is entered belongs to the innermost one of its owners that wanted its children. -/
def FitsEntry (active : List Activation) (entry : Entry) (id : NodeId) (u : CompilationUnit) :
    Prop :=
  ∀ kind, Fits active (.visit entry kind id u)

/-- The logs of the walk replay: what is entered as a child is noted at its owner, and all else is
as before. -/
def ReplayingWalk (walk : Entry → NodeId → S → CompilationUnit → Logged S) : Prop :=
  ∀ entry id state {u log state' u'} {active : List Activation}, FitsEntry active entry id u →
    walk entry id state u = some (log, state', u') →
    Replays active log (if (u.tree.kind? id).isSome then enter entry id active else active)

namespace ReplayingWalk

variable {walk : Entry → NodeId → S → CompilationUnit → Logged S} (h : ReplayingWalk walk)
  {id : NodeId} {state state' : S} {u u' : CompilationUnit} {log : List WalkEvent}
include h

lemma asked (hwalk : walk .asked id state u = some (log, state', u'))
    (active : List Activation) : Replays active log active := by
  have hfits : FitsEntry active .asked id u := fun _ => trivial
  have hreplays := h .asked id state hfits hwalk
  rwa [show enter .asked id active = active from rfl, ite_self] at hreplays

lemma child {a : Activation} {outer : List Activation} (hdescend : a.descend? = some true)
    (howned : (u.tree.parent? id).map ParentLink.owner = some a.node)
    (hwalk : walk .child id state u = some (log, state', u')) :
    Replays (a :: outer) log ({ a with entered := a.entered ++ [id] } :: outer) := by
  obtain ⟨⟨owner, slot⟩, hlink, rfl⟩ := Option.map_eq_some_iff.mp howned
  have hinner : innermost? (a :: outer) = some a.node := by simp [innermost?, hdescend]
  have hfits : FitsEntry (a :: outer) .child id u := fun _ => ⟨a.node, slot, hlink, hinner⟩
  have hreplays := h .child id state hfits hwalk
  -- what has an owner is a node
  obtain ⟨n, hn, -⟩ := Store.exists_node_of_parent? hlink
  rwa [Store.kind?, hn, Option.map_some, Option.isSome_some, if_pos rfl] at hreplays

end ReplayingWalk

/-- **The logs of all walks replay.** -/
theorem replaying_walkLogged (v : Visitor S) (depth : Nat) :
    ReplayingWalk (v.walkLogged depth) := by
  induction depth with
  | zero =>
    intro entry id state u log state' u' active _ hrun
    cases hrun
  | succ depth ih =>
    intro entry id state u log state' u' active hfits hrun
    rw [walkLogged] at hrun
    cases hkind : u.tree.kind? id with
    | none =>
      rw [hkind] at hrun
      obtain ⟨rfl, -⟩ := Prod.mk.inj (Option.some.inj hrun)
      exact .nil active
    | some kind =>
      rw [hkind] at hrun
      rw [Option.isSome_some, if_pos rfl]
      -- take the log apart at the calls and the answer of the hooks
      obtain ⟨log₁, hwalked, rfl⟩ := Logged.exists_of_after hrun
      obtain ⟨hooked, ⟨descend, visited⟩, u₁, log₂, hvisit, hanswered, rfl⟩ :=
        Logged.exists_of_andThen hwalked
      obtain ⟨log₃, hbelowLeft, rfl⟩ := Logged.exists_of_after hanswered
      obtain ⟨below, walked, u₂, log₄, hbelow, hleaving, rfl⟩ :=
        Logged.exists_of_andThen hbelowLeft
      obtain ⟨left, hleave, rfl⟩ := Logged.exists_of_after hleaving
      have hhooked := Script.replays_run ih.asked _ hvisit
      have hleft := Script.replays_run ih.asked _ hleave
      cases descend with
      | false =>
        obtain ⟨rfl, -⟩ := Prod.mk.inj (Option.some.inj hbelow)
        exact .node (hfits kind) (hhooked _) (.nil _) rfl rfl ⟨⟨false, rfl, rfl⟩, rfl⟩ (hleft _)
      | true =>
        obtain ⟨turns, hturns, hbelow⟩ := replays_walkChildren ih.child
          (a := ⟨kind, id, u, some true, [], []⟩) rfl hbelow
        refine .node (hfits kind) (hhooked _) hbelow rfl rfl ⟨⟨true, rfl, ?_⟩, rfl⟩ (hleft _)
        simpa using hturns

/-- **The hooks of a walk nest, whatever they do.**  In the log of a walk the calls of hooks are
balanced.  A node that is entered as a child belongs at that instant to the innermost node whose
visit wanted its children and that is not left yet.  And when a node is left, it is the innermost
one, the turn of all children that it had before its visit has come, in order and if the visit
wanted them, and those that belonged to it then were entered. -/
theorem hooks_nest (v : Visitor S) {depth : Nat} {id : NodeId} {state state' : S}
    {u u' : CompilationUnit} (hrun : v.walk depth id state u = some (state', u')) :
    ∃ log, v.walkLogged depth .asked id state u = some (log, state', u') ∧
      Balanced (calls log) ∧
      (∀ before kind child u₁ rest, log = before ++ .visit .child kind child u₁ :: rest →
        ∃ owner slot, u₁.tree.parent? child = some ⟨owner, slot⟩ ∧
          innermost? (activations before) = some owner) ∧
      ∀ before kind node u₁ rest, log = before ++ .leave kind node u₁ :: rest →
        ∃ a outer, activations before = a :: outer ∧ a.kind = kind ∧ a.node = node ∧
          a.Complete := by
  obtain ⟨⟨log, reply⟩, hlogged, hreply⟩ := Option.map_eq_some_iff.mp
    ((v.erase_walkLogged depth .asked id state u).trans hrun)
  obtain rfl : reply = (state', u') := hreply
  have hreplays := ReplayingWalk.asked (v.replaying_walkLogged depth) hlogged []
  refine ⟨log, hlogged, hreplays.balanced, ?_, ?_⟩
  · rintro before kind child u₁ rest rfl
    exact hreplays.allFit.fits
  · rintro before kind node u₁ rest rfl
    exact hreplays.allFit.fits

/-- The visit of one type detaches the next, which is skipped when its turn comes. -/
theorem hooks_nest_of_detached_sibling :
    ∃ (v : Visitor Unit) (u u' : CompilationUnit) (log : List WalkEvent),
      u.types = [⟨1⟩, ⟨2⟩] ∧ v.walk 2 CompilationUnit.root () u = some ((), u') ∧ u'.types = [⟨1⟩] ∧
      v.walkLogged 2 .asked CompilationUnit.root () u = some (log, (), u') ∧
      calls log = [⟨.visit, .compilationUnit, CompilationUnit.root⟩, ⟨.visit, .type, ⟨1⟩⟩,
        ⟨.leave, .type, ⟨1⟩⟩, ⟨.leave, .compilationUnit, CompilationUnit.root⟩] ∧
      Balanced (calls log) := by
  let type : Node :=
    ⟨.type ⟨.classForm, "A", ⟨"A"⟩, []⟩, .dummy, some ⟨CompilationUnit.root, .types⟩⟩
  let u : CompilationUnit := ⟨"", "A", "", .build "",
    ⟨#[⟨.compilationUnit ⟨none, [], [], [⟨1⟩, ⟨2⟩]⟩, .dummy, none⟩, type, type], by decide⟩,
    .none, none⟩
  let detachNext : VisitHook Unit := fun _ state =>
    .edit (.tree (.detach ⟨2⟩)) fun _ => .done (true, state)
  let hooks : Hooks Unit :=
    { Hooks.none with visitKind := fun kind => if kind = .type then some detachNext else none }
  let v := hooks.toVisitor
  have hrun : v.walk 2 CompilationUnit.root () u =
      some ((), u.withTree (u.tree.detach ⟨2⟩).2) := rfl
  obtain ⟨log, hlog, hbalanced, -⟩ := v.hooks_nest hrun
  refine ⟨v, u, _, log, rfl, hrun, rfl, hlog, ?_, hbalanced⟩
  obtain rfl := (Prod.mk.inj (Option.some.inj hlog)).1
  rfl

end Visitor

end DeclTree
