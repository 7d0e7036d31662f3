import DeclTree.Proofs.CompilationUnit.Walks
import DeclTree.Proofs.Store.Runs
import DeclTree.Proofs.Store.Validation
import DeclTree.CompilationUnit.Copy
import DeclTree.Session.Basic

/-!
# What every unit keeps

A unit is created, changed, passed over and copied.  Through all of this it stays `Rooted`: its
tree is one that clients can build, and node 0 is the root that it was created with.  A change makes
a unit that `Continues` the one of before: it belongs to the same source file, and what was raised
stays raised.  `Visitor.advances_walk` carries both through a walk, whatever lawful hooks do at the
nodes.  So validation of a unit that clients can come by has a `Verdict` of three forms only.
-/

namespace DeclTree

/-! ## Lawful changes, scripts and passes -/

/-- The stores that a change reads beside the tree of the unit. -/
def UnitEdit.readsFrom : UnitEdit → List Store
  | tree edit => edit.readsFrom
  | _ => []

/-- The change is one that clients may make, and reads only from stores that they can build. -/
def UnitEdit.Lawful (change : UnitEdit) : Prop :=
  change.Public ∧ ∀ ρ ∈ change.readsFrom, ρ.Reachable

/-- Every change that the script makes is lawful, if the units that it looks at have trees that
clients can build. -/
inductive Script.Lawful {S R : Type} : Script S R → Prop
  | done (result : R) : Lawful (.done result)
  | inspect {next : CompilationUnit → Script S R}
    (h : ∀ u : CompilationUnit, u.tree.Reachable → Lawful (next u)) : Lawful (.inspect next)
  | edit {change : UnitEdit} {next : Except TreeError Answer → Script S R}
    (allowed : change.Lawful) (h : ∀ answer, Lawful (next answer)) : Lawful (.edit change next)
  | walk {id : NodeId} {state : S} {next : S → Script S R} (h : ∀ after, Lawful (next after)) :
    Lawful (.walk id state next)

/-- All hooks of the pass are lawful. -/
structure Visitor.Lawful {S : Type} (v : Visitor S) : Prop where
  visit : ∀ kind id state, (v.visit kind id state).Lawful
  leave : ∀ kind id state, (v.leave kind id state).Lawful

namespace CompilationUnit

/-! ## What is kept -/

/-- The tree is one that clients can build, and node 0 is the root of a unit. -/
structure Rooted (u : CompilationUnit) : Prop where
  reachable : u.tree.Reachable
  root : ∃ n, u.tree.node? root = some n ∧ n.kind = .compilationUnit ∧ n.span = .dummy

/-- `v` belongs to the source file of `u`, and the flags raised for `u` are raised for `v`. -/
structure Continues (u v : CompilationUnit) : Prop where
  path_eq : v.path = u.path
  mainTypeName_eq : v.mainTypeName = u.mainTypeName
  source_eq : v.source = u.source
  lines_eq : v.lines = u.lines
  raised : ∀ flag, u.flags.has flag = true → v.flags.has flag = true

variable {u v w : CompilationUnit}

lemma Continues.refl (u : CompilationUnit) : u.Continues u :=
  ⟨rfl, rfl, rfl, rfl, fun _ h => h⟩

lemma Continues.trans (h₁ : u.Continues v) (h₂ : v.Continues w) : u.Continues w where
  path_eq := h₂.path_eq.trans h₁.path_eq
  mainTypeName_eq := h₂.mainTypeName_eq.trans h₁.mainTypeName_eq
  source_eq := h₂.source_eq.trans h₁.source_eq
  lines_eq := h₂.lines_eq.trans h₁.lines_eq
  raised := fun flag h => h₂.raised flag (h₁.raised flag h)

/-- The unit after a change: rooted as before, and the same unit. -/
structure Advances (u v : CompilationUnit) : Prop where
  rooted : v.Rooted
  continues : u.Continues v

lemma Advances.refl (hu : u.Rooted) : u.Advances u := ⟨hu, Continues.refl u⟩

lemma Advances.trans (h₁ : u.Advances v) (h₂ : v.Advances w) : u.Advances w :=
  ⟨h₂.rooted, h₁.continues.trans h₂.continues⟩

/-- The root of an extended tree is the root. -/
lemma root_of_extends {σ τ : Store} (h : σ.Extends τ)
    (hroot : ∃ n, σ.node? root = some n ∧ n.kind = .compilationUnit ∧ n.span = .dummy) :
    ∃ n, τ.node? root = some n ∧ n.kind = .compilationUnit ∧ n.span = .dummy := by
  obtain ⟨n, hn, hkind, hspan⟩ := hroot
  obtain ⟨m, hm, hkind', hspan'⟩ := h root n hn
  exact ⟨m, hm, hkind'.trans hkind, hspan'.trans hspan⟩

/-! ## One change -/

/-- **A lawful change keeps the root, the source file and the raised flags.** -/
theorem Rooted.advances_apply (hu : u.Rooted) {change : UnitEdit} (hlawful : change.Lawful)
    {answer : Except TreeError Answer} (happly : change.apply u = some (answer, v)) :
    u.Advances v := by
  cases change with
  | tree edit =>
    have hsources : ∀ ρ ∈ edit.readsFrom, ρ.Reachable := hlawful.2
    simp only [UnitEdit.apply, Option.map_eq_some_iff, Prod.mk.injEq] at happly
    obtain ⟨⟨answer', after⟩, hedit, rfl, rfl⟩ := happly
    have hextends := hu.reachable.extends_of_apply hsources hedit
    exact ⟨⟨hu.reachable.step edit hsources hedit, root_of_extends hextends hu.root⟩,
      rfl, rfl, rfl, rfl, fun _ h => h⟩
  | overwrite id payload => exact hlawful.1.elim
  | raise flag =>
    obtain ⟨-, rfl⟩ := Prod.mk.inj (Option.some.inj happly)
    refine ⟨⟨hu.reachable, hu.root⟩, rfl, rfl, rfl, rfl, fun asked h => ?_⟩
    show (u.flags.raise flag).has asked = true
    rw [Flags.has_raise, h, Bool.or_true]
  | resolveImports imports canImport =>
    obtain ⟨-, rfl⟩ := Prod.mk.inj (Option.some.inj happly)
    exact ⟨⟨hu.reachable, hu.root⟩, rfl, rfl, rfl, rfl, fun _ h => h⟩

end CompilationUnit

open CompilationUnit

/-! ## Walks -/

section Walks

variable {S R : Type} {u v : CompilationUnit}
  {walk : NodeId → S → CompilationUnit → Option (S × CompilationUnit)}

/-- The walk advances every rooted unit. -/
def AdvancingWalk (walk : NodeId → S → CompilationUnit → Option (S × CompilationUnit)) : Prop :=
  ∀ id state {u state' v}, u.Rooted → walk id state u = some (state', v) → u.Advances v

/-- A lawful script advances a unit if the walks that it starts do. -/
lemma Script.Lawful.advances_run (hwalk : AdvancingWalk walk)
    {script : Script S R} (hs : script.Lawful) {result : R} (hu : u.Rooted)
    (hrun : script.run walk u = some (result, v)) : u.Advances v := by
  induction hs generalizing u with
  | done =>
    obtain ⟨-, rfl⟩ := Prod.mk.inj (Option.some.inj hrun)
    exact Advances.refl hu
  | inspect _ ih => exact ih u hu.reachable hu hrun
  | edit allowed _ ih =>
    obtain ⟨answer, after, happly, hrest⟩ := run_edit_eq_some_iff.mp hrun
    have hfirst := hu.advances_apply allowed happly
    exact hfirst.trans (ih answer hfirst.rooted hrest)
  | @walk id state _ _ ih =>
    -- a nested walk counts as one step
    obtain ⟨state', after, hnested, hrest⟩ := run_walk_eq_some_iff.mp hrun
    have hfirst := hwalk id state hu hnested
    exact hfirst.trans (ih state' hfirst.rooted hrest)

/-- So do walks over several nodes in turn. -/
lemma Visitor.advances_walkChildren (hwalk : AdvancingWalk walk)
    {owner : NodeId} {children : List NodeId} {state state' : S} (hu : u.Rooted)
    (hrun : Visitor.walkChildren walk owner children state u = some (state', v)) :
    u.Advances v := by
  induction children generalizing u state with
  | nil =>
    obtain ⟨-, rfl⟩ := Prod.mk.inj (Option.some.inj hrun)
    exact Advances.refl hu
  | cons child rest ih =>
    rw [walkChildren_cons_eq_some_iff] at hrun
    split_ifs at hrun
    · obtain ⟨visited, after, hchild, hrest⟩ := hrun
      have hfirst := hwalk child state hu hchild
      exact hfirst.trans (ih hfirst.rooted hrest)
    · exact ih hu hrun

/-- **A lawful pass keeps what lawful changes keep, nested walks included.** -/
theorem Visitor.advances_walk {visitor : Visitor S} (hv : visitor.Lawful) {depth : Nat}
    (id : NodeId) (state : S) {state' : S} (hu : u.Rooted)
    (hrun : visitor.walk depth id state u = some (state', v)) : u.Advances v := by
  induction depth generalizing id state u state' v with
  | zero => cases hrun
  | succ depth ih =>
    have hwalk : AdvancingWalk (visitor.walk depth) := fun id state _ _ _ hu hrun =>
      ih id state hu hrun
    cases hkind : u.tree.kind? id with
    | none =>
      rw [visitor.walk_of_unknown hkind] at hrun
      obtain ⟨-, rfl⟩ := Prod.mk.inj (Option.some.inj hrun)
      exact Advances.refl hu
    | some kind =>
      obtain ⟨descend, visited, u₁, walked, u₂, hvisit, hbelow, hleave⟩ :=
        (visitor.walk_eq_some_iff hkind).mp hrun
      have hfirst := (hv.visit kind id state).advances_run hwalk hu hvisit
      have hsecond : u₁.Advances u₂ := by
        rw [walkBelow] at hbelow
        split_ifs at hbelow
        · exact advances_walkChildren hwalk hfirst.rooted hbelow
        · obtain ⟨-, rfl⟩ := Prod.mk.inj (Option.some.inj hbelow)
          exact Advances.refl hfirst.rooted
      have hlast := (hv.leave kind id walked).advances_run hwalk hsecond.rooted hleave
      exact hfirst.trans (hsecond.trans hlast)

end Walks

namespace CompilationUnit

variable {u v w : CompilationUnit}

/-! ## Copies -/

/-- Slots are copied by edits that read from the tree to copy. -/
lemma reachable_copySlots {source tree after : Store} (hsource : source.Reachable)
    {slots : List Slot} {answer : Except TreeError Unit} (htree : tree.Reachable)
    (hcopy : copySlots source slots tree = some (answer, after)) :
    after.Reachable ∧ tree.Extends after := by
  induction slots generalizing tree with
  | nil =>
    obtain ⟨-, rfl⟩ := Prod.mk.inj (Option.some.inj hcopy)
    exact ⟨htree, Store.Extends.refl tree⟩
  | cons slot rest ih =>
    unfold copySlots at hcopy
    split at hcopy
    · obtain ⟨-, rfl⟩ := Prod.mk.inj (Option.some.inj hcopy)
      exact ⟨htree, Store.Extends.refl tree⟩
    · rename_i children hchildren
      -- one slot is one edit
      have hsources : ∀ ρ ∈ (Edit.copyFrom root slot source children).readsFrom, ρ.Reachable := by
        intro ρ hρ
        obtain rfl := List.mem_singleton.mp hρ
        exact hsource
      have hedit : ∀ {answer next}, tree.copyFrom root slot source children = some (answer, next) →
          next.Reachable ∧ tree.Extends next := by
        intro answer next heq
        have happly : (Edit.copyFrom root slot source children).apply tree =
            some (answer.map fun () => .done, next) := by
          simp only [Edit.apply, heq, Option.map_some, Reply.map]
        exact ⟨htree.step _ hsources happly, htree.extends_of_apply hsources happly⟩
      split at hcopy
      · cases hcopy
      · rename_i heq
        obtain ⟨-, rfl⟩ := Prod.mk.inj (Option.some.inj hcopy)
        exact hedit heq
      · rename_i heq
        obtain ⟨hnext, hextends⟩ := hedit heq
        obtain ⟨hafter, hextends'⟩ := ih hnext hcopy
        exact ⟨hafter, hextends.trans hextends'⟩

lemma reachable_emptyTree : emptyTree.Reachable :=
  Store.Reachable.empty.step (.alloc (.compilationUnit .empty) .dummy) nofun rfl

lemma root_emptyTree :
    ∃ n, emptyTree.node? root = some n ∧ n.kind = .compilationUnit ∧ n.span = .dummy :=
  ⟨_, rfl, rfl, rfl⟩

/-- **A copy is the same unit with a tree of its own.** -/
theorem Rooted.advances_copy (hu : u.Rooted) (hcopy : u.copy = some (.ok v)) : u.Advances v := by
  unfold copy at hcopy
  split at hcopy
  · cases hcopy
  · cases hcopy
  · rename_i tree heq
    obtain rfl := Except.ok.inj (Option.some.inj hcopy)
    obtain ⟨htree, hextends⟩ := reachable_copySlots hu.reachable reachable_emptyTree heq
    exact ⟨⟨htree, root_of_extends hextends root_emptyTree⟩, rfl, rfl, rfl, rfl, fun _ h => h⟩

/-! ## Units that clients can come by -/

/-- What clients do to a unit at a time. -/
inductive Step (u v : CompilationUnit) : Prop
  | edit (change : UnitEdit) (answer : Except TreeError Answer) (hlawful : change.Lawful)
    (happly : change.apply u = some (answer, v))
  | pass {S : Type} (visitor : Visitor S) (hlawful : visitor.Lawful) (depth : Nat) (id : NodeId)
    (state state' : S) (hwalk : u.acceptNode visitor depth id state = some (state', v))
  | copy (hcopy : u.copy = some (.ok v))

/-- The unit comes from one that was created with the given path, main type name and source. -/
inductive Reached (path mainTypeName source : String) : CompilationUnit → Prop
  | create {u : CompilationUnit} (h : create path mainTypeName source = .ok u) :
    Reached path mainTypeName source u
  | synthetic {u : CompilationUnit} (hpath : path = "") (hsource : source = "")
    (h : synthetic mainTypeName = .ok u) : Reached path mainTypeName source u
  | step {u v : CompilationUnit} (h : Reached path mainTypeName source u) (hstep : u.Step v) :
    Reached path mainTypeName source v

lemma Rooted.advances_step (hu : u.Rooted) (h : u.Step v) : u.Advances v := by
  cases h with
  | edit change answer hlawful happly => exact hu.advances_apply hlawful happly
  | pass visitor hlawful depth id state state' hwalk =>
    exact Visitor.advances_walk hlawful id state hu hwalk
  | copy hcopy => exact hu.advances_copy hcopy

/-- A unit may get any tree that an edit makes of its own. -/
lemma Reached.withTree {path mainTypeName source : String} {u : CompilationUnit}
    {σ τ : Store} {answer : Except TreeError Answer}
    (h : Reached path mainTypeName source (u.withTree σ)) (edit : Edit)
    (hsources : ∀ ρ ∈ edit.readsFrom, ρ.Reachable) (happly : edit.apply σ = some (answer, τ)) :
    Reached path mainTypeName source (u.withTree τ) := by
  refine h.step (.edit (.tree edit) answer ⟨trivial, hsources⟩ ?_)
  have htree : (u.withTree σ).tree = σ := rfl
  rw [UnitEdit.apply, htree, happly]
  rfl

/-- The unit is rooted and carries what it was created with. -/
structure CreatedWith (path mainTypeName source : String) (u : CompilationUnit) : Prop where
  rooted : u.Rooted
  path_eq : u.path = path
  mainTypeName_eq : u.mainTypeName = mainTypeName
  mainTypeName_ne : mainTypeName.isEmpty = false
  source_eq : u.source = source
  lines_eq : u.lines = .build source

variable {path mainTypeName source : String}

lemma createdWith_create (h : create path mainTypeName source = .ok u) :
    CreatedWith path mainTypeName source u := by
  unfold create at h
  split_ifs at h with hname hlength
  obtain rfl := Except.ok.inj h
  exact ⟨⟨reachable_emptyTree, root_emptyTree⟩, rfl, rfl, by simpa using hname, rfl, rfl⟩

lemma CreatedWith.advances (h : CreatedWith path mainTypeName source u) (huv : u.Advances v) :
    CreatedWith path mainTypeName source v where
  rooted := huv.rooted
  path_eq := huv.continues.path_eq.trans h.path_eq
  mainTypeName_eq := huv.continues.mainTypeName_eq.trans h.mainTypeName_eq
  mainTypeName_ne := h.mainTypeName_ne
  source_eq := huv.continues.source_eq.trans h.source_eq
  lines_eq := huv.continues.lines_eq.trans h.lines_eq

lemma Reached.createdWith (h : Reached path mainTypeName source u) :
    CreatedWith path mainTypeName source u := by
  induction h with
  | create h => exact createdWith_create h
  | synthetic hpath hsource h =>
    subst hpath hsource
    exact createdWith_create h
  | step _ hstep ih => exact ih.advances (ih.rooted.advances_step hstep)

/-! ## Validation -/

/-- What validation says of a unit: whether the package is missing, and if it is not, which
required field of which node below the root is empty. -/
inductive Verdict (u : CompilationUnit) : Except ValidationError Unit → Prop
  | missingPackage (h : u.package? = none) : Verdict u (.error (.missingPackage u.path))
  | missingField {id : NodeId} {n : Node} {field : RequiredField} (hpackage : u.package? ≠ none)
    (hbelow : u.tree.ReachesBelow root id) (hn : u.tree.node? id = some n)
    (hfield : n.payload.Lacks field) :
    Verdict u (.error (.missingField id n.kind field))
  | ok (hpackage : u.package? ≠ none)
    (hfilled : ∀ id n field, u.tree.ReachesBelow root id → u.tree.node? id = some n →
      ¬ n.payload.Lacks field) : Verdict u (.ok ())

/-- The root has no required fields. -/
lemma not_lacks {p : Payload} {field : RequiredField} (h : p.kind = .compilationUnit) :
    ¬ p.Lacks field := by
  rintro (_ | _ | _ | _) <;> cases h

lemma CreatedWith.verdict (h : CreatedWith path mainTypeName source u) :
    u.Verdict u.validate := by
  obtain ⟨r, hr, hkind, -⟩ := h.rooted.root
  have hforest := h.rooted.reachable.forest
  have hcases := hforest.validateSubtree_cases (Store.allocated_of_node? hr)
  rw [validate, h.mainTypeName_eq, h.mainTypeName_ne, if_neg Bool.false_ne_true]
  cases hpackage : u.package? with
  | none => exact .missingPackage hpackage
  | some id =>
    have hne : u.package? ≠ none := by simp [hpackage]
    rw [if_neg (by simp)]
    rcases hcases with ⟨heq, hfilled⟩ | ⟨id, n, field, heq, hreach, hn, hfield⟩
    · rw [heq]
      exact .ok hne fun id n field hbelow => hfilled id n field hbelow.to_reflTransGen
    · rw [heq]
      -- the fault is not at the root, which has no required field
      rcases Relation.reflTransGen_iff_eq_or_transGen.mp hreach with rfl | hbelow
      · rw [hr] at hn
        obtain rfl := Option.some.inj hn
        exact absurd hfield (not_lacks hkind)
      · exact .missingField hne hbelow hn hfield

/-- **Whatever clients do with a unit, it keeps its root, what it was created with and its raised
flags, and validation finds a missing package or an empty field and nothing else.** -/
theorem Reached.sound (hu : Reached path mainTypeName source u)
    (hlater : Relation.ReflTransGen Step u v) :
    (∃ n, v.tree.node? root = some n ∧ n.parent = none ∧ n.kind = .compilationUnit ∧
      n.span = .dummy) ∧
    (v.path = path ∧ v.mainTypeName = mainTypeName ∧ v.source = source ∧
      v.lines = .build source) ∧
    (∀ flag, u.flags.has flag = true → v.flags.has flag = true) ∧
    v.Verdict v.validate ∧
    ∀ {S : Type} (s : Session) (visitor : Visitor S) (depth : Nat) (state : S),
      visitor.Lawful → s.options.validateAfterPass = true →
      ∀ {result state' w}, s.runPass v visitor depth state = some (result, state', w) →
        w.Verdict result := by
  have hcreated := hu.createdWith
  have hadvances : u.Advances v := by
    induction hlater with
    | refl => exact Advances.refl hcreated.rooted
    | tail _ hstep ih => exact ih.trans (ih.rooted.advances_step hstep)
  have hv := hcreated.advances hadvances
  obtain ⟨n, hn, hkind, hspan⟩ := hv.rooted.root
  -- no slot admits a compilation unit, so no forest has one attached
  have hunattached : n.parent = none := by
    rw [← Store.parent?_of_node? hn]
    refine hv.rooted.reachable.forest.unattached_of_compilationUnit ?_
    rw [Store.kind?, hn, Option.map_some, hkind]
  refine ⟨⟨n, hn, hunattached, hkind, hspan⟩,
    ⟨hv.path_eq, hv.mainTypeName_eq, hv.source_eq, hv.lines_eq⟩, hadvances.continues.raised,
    hv.verdict, ?_⟩
  intro S s visitor depth state hlawful hoption result state' w hrun
  rw [Session.runPass] at hrun
  split at hrun
  · cases hrun
  · rename_i after walked hwalk
    simp only [Option.some.injEq, Prod.mk.injEq] at hrun
    obtain ⟨rfl, rfl, rfl⟩ := hrun
    have hwalked := hv.advances (Visitor.advances_walk hlawful root state hv.rooted hwalk)
    rw [Session.validateAfter, if_pos hoption]
    exact hwalked.verdict

/-- A flag is raised on a unit with a package and a type.  Then a pass gives the type a field
without a name, and validation reports a fault. -/
theorem reached_sound_of_nameless_field :
    ∃ (u v w : CompilationUnit) (pass : Visitor Unit) (result : Except ValidationError Unit),
      Reached "A.java" "A" "" u ∧ u.types = [⟨1⟩] ∧ u.tree.childrenIn ⟨1⟩ .members = [] ∧
      v = u.raise .nullability ∧ pass.Lawful ∧
      (Session.create .default .cpp).runPass v pass 4 () = some (result, (), w) ∧
      w.tree.childrenIn ⟨1⟩ .members = [⟨3⟩] ∧ v.flags.has .nullability = true ∧
      w.Verdict result ∧ result ≠ .ok () := by
  let type : Payload := .type ⟨.classForm, "A", ⟨"A"⟩, []⟩
  let field : Payload := .field ⟨"", "int"⟩
  let u : CompilationUnit := ⟨"A.java", "A", "", .build "",
    ⟨#[⟨.compilationUnit ⟨some ⟨2⟩, [], [], [⟨1⟩]⟩, .dummy, none⟩,
      ⟨type, .dummy, some ⟨root, .types⟩⟩,
      ⟨.package ⟨"p"⟩, .dummy, some ⟨root, .package⟩⟩], by decide⟩, .none, none⟩
  have hu : Reached "A.java" "A" "" u := by
    have hu : Reached "A.java" "A" "" (u.withTree emptyTree) := .create rfl
    have hu := hu.withTree (.alloc type .dummy) nofun rfl
    have hu := hu.withTree (.alloc (.package ⟨"p"⟩) .dummy) nofun rfl
    have hu := hu.withTree (.pushChild root .types ⟨1⟩) nofun rfl
    have hu := hu.withTree (.setChild root .package (some ⟨2⟩)) nofun rfl
    obtain ⟨τ, hu, rfl⟩ : ∃ τ, Reached "A.java" "A" "" (u.withTree τ) ∧ τ = u.tree :=
      ⟨_, hu, by decide +kernel⟩
    exact hu
  have hraise : u.Step (u.raise .nullability) :=
    .edit (.raise .nullability) (.ok .done) ⟨trivial, nofun⟩ rfl
  let addField : VisitHook Unit := fun id _ =>
    .edit (.tree (.alloc field .dummy)) fun _ =>
      .edit (.tree (.pushChild id .members ⟨3⟩)) fun _ => .done (true, ())
  let pass : Visitor Unit :=
    { visit := fun kind id state => if kind = .type then addField id state else .done (true, ())
      leave := fun _ _ _ => .done () }
  have hlawful : pass.Lawful := by
    refine ⟨fun kind id state => ?_, fun _ _ _ => .done ()⟩
    show (if kind = .type then addField id state else .done (true, ())).Lawful
    split_ifs
    · exact .edit ⟨trivial, nofun⟩ fun _ => .edit ⟨trivial, nofun⟩ fun _ => .done _
    · exact .done _
  obtain ⟨w, hw, htypes, hmembers, hfield⟩ :
      ∃ w, (u.raise .nullability).accept pass 4 () = some ((), w) ∧
        w.tree.childrenIn root .types = [⟨1⟩] ∧ w.tree.childrenIn ⟨1⟩ .members = [⟨3⟩] ∧
        w.tree.node? ⟨3⟩ = some ⟨field, .dummy, some ⟨⟨1⟩, .members⟩⟩ :=
    ⟨_, rfl, by decide +kernel, by decide +kernel, by decide +kernel⟩
  have hrun : (Session.create .default .cpp).runPass (u.raise .nullability) pass 4 () =
      some (w.validate, (), w) := by
    rw [Session.runPass, hw]
    rfl
  obtain ⟨-, -, -, -, hpass⟩ := hu.sound (.single hraise)
  have hverdict := hpass (Session.create .default .cpp) pass 4 () hlawful rfl hrun
  have hraised := (Reached.sound (hu.step hraise) .refl).2.2.1 .nullability
  refine ⟨u, _, w, pass, w.validate, hu, rfl, rfl, rfl, hlawful, hrun, hmembers,
    hraised (by simp [raise, Flags.has_raise]), hverdict, fun hok => ?_⟩
  rw [hok] at hverdict
  cases hverdict with
  | ok _ hfilled =>
    have htype : ⟨1⟩ ∈ w.tree.children root :=
      Store.mem_children.mpr ⟨.types, htypes ▸ List.mem_singleton.mpr rfl⟩
    have hbelow : ⟨3⟩ ∈ w.tree.children ⟨1⟩ :=
      Store.mem_children.mpr ⟨.members, hmembers ▸ List.mem_singleton.mpr rfl⟩
    exact hfilled ⟨3⟩ _ .name (.tail (.single htype) hbelow) hfield (.fieldName rfl)

end CompilationUnit

end DeclTree
