import Mathlib.Data.List.Forall2
import DeclTree.OpenSlot
import DeclTree.Proofs.Slots

/-!
# The traversals of a payload agree

Each function that walks over a payload goes through the slots by itself, kind by kind.  This file
relates them to each other and to the list of all children: an open slot shows what a reader is
shown, emptying and restoring slots leaves the scalar fields alone, and payloads are equal if their
scalar fields and their children are.

Replacing the children one by one is the traversal of the list of all children, whatever the
replacement does besides, `mapChildrenM_eq`.  So it asks for every child once, in order, and stops
where the first one fails, `exists_mapsInOrder`.
-/

namespace DeclTree

namespace Payload

variable {p q : Payload} {s : Slot}

/-! ## Open slots -/

lemma openSlot?_isSome_iff : (p.openSlot? s).isSome = true ↔ s ∈ p.kind.slots := by
  cases p <;> cases s <;> simp [openSlot?, kind, Kind.slots]

lemma content_openSlot? (p : Payload) (s : Slot) :
    (p.openSlot? s).map OpenSlot.content = p.slot? s := by
  cases p <;> cases s <;> rfl

/-- What is put into an open slot is written there. -/
lemma put_of_openSlot? {opened : OpenSlot} {content : SlotContent}
    (hopen : p.openSlot? s = some opened) (shape : opened.content.sameShape content = true) :
    opened.put content = some (p.setSlot s content) := by
  cases p <;> cases s <;> simp only [openSlot?, Option.some.injEq, reduceCtorEq] at hopen <;>
    subst hopen <;> cases content <;>
    simp only [OpenSlot.content, SlotContent.sameShape, Bool.false_eq_true] at shape <;> rfl

lemma slot?_of_openSlot? {opened : OpenSlot} (h : p.openSlot? s = some opened) :
    p.slot? s = some opened.content := by
  rw [← content_openSlot?, h, Option.map_some]

/-! ## Scalar fields and children -/

lemma slotChildren_withoutChildren (p : Payload) : p.withoutChildren.slotChildren = [] := by
  simp [slotChildren]

lemma sameScalars_withoutChildren (p : Payload) : p.sameScalars p.withoutChildren = true := by
  cases p <;> simp [withoutChildren, sameScalars]

lemma slotChildren_withSlotsOf (h : q.kind = p.kind) :
    (p.withSlotsOf q).slotChildren = q.slotChildren := by
  simp only [slotChildren, kind_withSlotsOf, h, childrenIn_withSlotsOf h]

/-- The list of all children tells what each slot holds. -/
lemma childrenIn_eq_filterMap (p : Payload) (s : Slot) :
    p.childrenIn s =
      p.slotChildren.filterMap fun entry => if entry.1 = s then some entry.2 else none := by
  cases p <;> cases s <;>
    simp [slotChildren, kind, Kind.slots, childrenIn, slot?, List.filterMap_map]

/-- Two payloads are equal if their scalar fields and their children are. -/
lemma eq_iff_slotChildren_eq :
    p = q ↔ p.sameScalars q = true ∧ p.slotChildren = q.slotChildren := by
  constructor
  · rintro rfl
    exact ⟨sameScalars_refl p, rfl⟩
  · rintro ⟨hscalars, hchildren⟩
    refine eq_of_childrenIn_eq hscalars fun s => ?_
    rw [childrenIn_eq_filterMap, childrenIn_eq_filterMap, hchildren]

/-! ## Images of the children -/

section Answers

variable {R : NodeId → NodeId → Prop} {images : List NodeId}

lemma forall₂_append_left {front back : List NodeId} (h : List.Forall₂ R (front ++ back) images) :
    List.Forall₂ R front (images.take front.length) ∧
      List.Forall₂ R back (images.drop front.length) := by
  have hfront := List.forall₂_take front.length h
  have hback := List.forall₂_drop front.length h
  rw [List.take_left] at hfront
  rw [List.drop_left] at hback
  exact ⟨hfront, hback⟩

/-- What stands for the children, one by one, is shared out as the children are. -/
lemma forall₂_childrenIn_withChildren (h : List.Forall₂ R p.children images) (s : Slot) :
    List.Forall₂ R (p.childrenIn s) ((p.withChildren images).childrenIn s) := by
  cases p with
  | compilationUnit u =>
    rw [children_compilationUnit] at h
    obtain ⟨hpackage, h⟩ := forall₂_append_left h
    obtain ⟨hcomments, h⟩ := forall₂_append_left h
    obtain ⟨hblocks, htypes⟩ := forall₂_append_left h
    cases s with
    | package =>
      show List.Forall₂ R u.package.toList (images.take u.package.toList.length).head?.toList
      rw [toList_head?_take]
      exact hpackage
    | comments => exact hcomments
    | nativeBlocks => exact hblocks
    | types => exact htypes
    | members => exact .nil
  | type d =>
    rw [children_type] at h
    cases s with
    | members => exact h
    | _ => exact .nil
  | _ => exact .nil

lemma forall₂_slotChildren (hkind : q.kind = p.kind)
    (h : ∀ s, List.Forall₂ R (p.childrenIn s) (q.childrenIn s)) :
    List.Forall₂ (fun entry image => image.1 = entry.1 ∧ R entry.2 image.2)
      p.slotChildren q.slotChildren := by
  rw [slotChildren, slotChildren, hkind]
  induction p.kind.slots with
  | nil => exact .nil
  | cons s slots ih =>
    rw [List.flatMap_cons, List.flatMap_cons]
    refine List.rel_append ?_ ih
    rw [List.forall₂_map_left_iff, List.forall₂_map_right_iff]
    exact (h s).imp fun _ _ hR => ⟨rfl, hR⟩

end Answers

/-! ## Which children are asked for -/

/-- Steps that keep the list of the identifiers asked for so far, also when they fail. -/
abbrev Asking (ε : Type) := ExceptT ε (StateM (List NodeId))

section Asking

variable {ε α β : Type} {f : NodeId → Except ε NodeId}

/-- Carries out the steps after some identifiers have been asked for already. -/
def Asking.on (steps : Asking ε α) (asked : List NodeId) : Except ε α × List NodeId :=
  steps.run.run asked

/-- Answers as `f` does and notes what it is asked for. -/
def recording (f : NodeId → Except ε NodeId) (c : NodeId) : Asking ε NodeId := do
  modify (· ++ [c])
  ExceptT.mk (pure (f c))

lemma Asking.on_bind (steps : Asking ε α) (next : α → Asking ε β) (asked : List NodeId) :
    Asking.on (steps >>= next) asked =
      match Asking.on steps asked with
      | (.ok x, askedBy) => Asking.on (next x) askedBy
      | (.error e, askedBy) => (.error e, askedBy) := by
  unfold Asking.on
  rw [ExceptT.run_bind, StateT.run_bind]
  rcases steps.run.run asked with ⟨x | e, askedBy⟩ <;> rfl

lemma on_recording (f : NodeId → Except ε NodeId) (c : NodeId) (asked : List NodeId) :
    (recording f c).on asked = (f c, asked ++ [c]) := rfl

/-- How the children of a payload may be replaced by what `f` answers for them: the answer for the
payload, and the children that `f` was asked for until then. -/
inductive MapsInOrder (p : Payload) (f : NodeId → Except ε NodeId) :
    Except ε Payload → List NodeId → Prop
  /-- `f` answers for every child, and its answers stand in the slots of the children. -/
  | all {after : Payload} (scalars : p.sameScalars after = true)
    (images : List.Forall₂ (fun entry image => image.1 = entry.1 ∧ f entry.2 = .ok image.2)
      p.slotChildren after.slotChildren) :
    MapsInOrder p f (.ok after) (p.slotChildren.map Prod.snd)
  /-- `f` fails on a child, having answered for those in front of it. -/
  | stopped {front back : List NodeId} {c : NodeId} {e : ε}
    (children : p.slotChildren.map Prod.snd = front ++ c :: back)
    (before : ∀ d ∈ front, ∃ image, f d = .ok image) (fails : f c = .error e) :
    MapsInOrder p f (.error e) (front ++ [c])

/-- A traversal of a list asks for its elements in order, up to the first one that `f` fails on. -/
lemma on_mapM_recording (f : NodeId → Except ε NodeId) (cs asked : List NodeId) :
    (∃ images, List.Forall₂ (fun c image => f c = .ok image) cs images ∧ cs.mapM f = .ok images ∧
      Asking.on (cs.mapM (recording f)) asked = (.ok images, asked ++ cs)) ∨
    ∃ front c back e, cs = front ++ c :: back ∧ (∀ d ∈ front, ∃ image, f d = .ok image) ∧
      f c = .error e ∧ cs.mapM f = .error e ∧
      Asking.on (cs.mapM (recording f)) asked = (.error e, asked ++ (front ++ [c])) := by
  induction cs generalizing asked with
  | nil => exact .inl ⟨[], .nil, rfl, by rw [List.append_nil]; rfl⟩
  | cons c cs ih =>
    rw [List.mapM_cons, List.mapM_cons, Asking.on_bind, on_recording]
    cases hc : f c with
    | error e => exact .inr ⟨[], c, cs, e, rfl, nofun, hc, rfl, rfl⟩
    | ok image =>
      dsimp only
      rw [Asking.on_bind]
      rcases ih (asked ++ [c]) with ⟨images, himages, hplain, hrun⟩ |
        ⟨front, d, back, e, rfl, hfront, hd, hplain, hrun⟩
      · rw [hplain, hrun, List.append_assoc]
        exact .inl ⟨image :: images, .cons hc himages, rfl, rfl⟩
      · rw [hplain, hrun, List.append_assoc]
        exact .inr ⟨c :: front, d, back, e, rfl, List.forall_mem_cons.mpr ⟨⟨image, hc⟩, hfront⟩, hd,
          rfl, rfl⟩

/-- **Each child is asked for once, in order, until one fails; if none does, the answers stand in
the slots of the children.** -/
lemma exists_mapsInOrder (f : NodeId → Except ε NodeId) (p : Payload) :
    ∃ asked, Asking.on (p.mapChildrenM (recording f)) [] = (p.mapChildrenM f, asked) ∧
      MapsInOrder p f (p.mapChildrenM f) asked := by
  rw [mapChildrenM_eq, mapChildrenM_eq, Asking.on_bind]
  rcases on_mapM_recording f p.children [] with ⟨images, himages, hplain, hrun⟩ |
    ⟨front, c, back, e, hchildren, hfront, hc, hplain, hrun⟩
  · rw [hplain, hrun, List.nil_append]
    refine ⟨p.children, rfl, .all (sameScalars_withChildren p images) ?_⟩
    exact forall₂_slotChildren (kind_withChildren p images)
      (forall₂_childrenIn_withChildren himages)
  · rw [hplain, hrun, List.nil_append]
    exact ⟨front ++ [c], rfl, .stopped hchildren hfront hc⟩

/-- Behind a child that `f` fails on, none is asked for. -/
example : Asking.on ((type ⟨.classForm, "A", ⟨"p.A"⟩, [⟨1⟩, ⟨2⟩, ⟨3⟩]⟩).mapChildrenM
    (recording fun c => if c = ⟨2⟩ then .error c else .ok c)) [] = (.error ⟨2⟩, [⟨1⟩, ⟨2⟩]) := rfl

end Asking

/-! ## The agreement -/

/-- How the functions that walk over payloads agree on one. -/
structure TraversalsAgree (p : Payload) : Prop where
  /-- The slots that can be read, and those that can be opened, are the slots of the kind. -/
  known : ∀ s, ((p.slot? s).isSome = true ↔ s ∈ p.kind.slots) ∧
    ((p.openSlot? s).isSome = true ↔ s ∈ p.kind.slots)
  /-- An open slot shows what a reader is shown. -/
  shown : ∀ s, (p.openSlot? s).map OpenSlot.content = p.slot? s
  /-- What is put into an open slot is read there, and the other slots are left alone. -/
  written : ∀ s opened content, p.openSlot? s = some opened →
    opened.content.sameShape content = true → opened.put content = some (p.setSlot s content) ∧
      ∀ t, (p.setSlot s content).slot? t = if t = s then some content else p.slot? t
  /-- Children are replaced one by one, in order, until the replacement of one fails. -/
  mapped : ∀ {ε : Type} (f : NodeId → Except ε NodeId),
    ∃ asked, Asking.on (p.mapChildrenM (recording f)) [] = (p.mapChildrenM f, asked) ∧
      MapsInOrder p f (p.mapChildrenM f) asked
  /-- Emptying the slots leaves the scalar fields and no children. -/
  emptied : p.sameScalars p.withoutChildren = true ∧ p.withoutChildren.slotChildren = []
  /-- Restoring the slots of another payload leaves the scalar fields and brings its children. -/
  restored : ∀ q : Payload, q.kind = p.kind → p.sameScalars (p.withSlotsOf q) = true ∧
    (p.withSlotsOf q).slotChildren = q.slotChildren
  /-- Scalar fields and children are all that there is to compare. -/
  compared : ∀ q : Payload, p = q ↔ p.sameScalars q = true ∧ p.slotChildren = q.slotChildren

/-- **The traversals of every payload agree.** -/
theorem traversals_agree (p : Payload) : p.TraversalsAgree where
  known _ := ⟨slot?_isSome_iff, openSlot?_isSome_iff⟩
  shown := content_openSlot? p
  written _ _ _ hopen shape :=
    ⟨put_of_openSlot? hopen shape, slot?_setSlot (slot?_of_openSlot? hopen) shape⟩
  mapped f := exists_mapsInOrder f p
  emptied := ⟨sameScalars_withoutChildren p, slotChildren_withoutChildren p⟩
  restored q hkind := ⟨sameScalars_withSlotsOf p q, slotChildren_withSlotsOf hkind⟩
  compared _ := eq_iff_slotChildren_eq

end Payload

end DeclTree
