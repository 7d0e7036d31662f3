import Mathlib.Data.List.Nodup
import Mathlib.Tactic.Lemma
import DeclTree.Payload

/-!
# Payloads slot by slot

The functions that walk over payloads agree with each other: a payload has the slots that its
kind lists, the list of all children is made of the contents of these slots, and a slot that is
written is read back while the other slots and the scalar fields stay.  Replacing the children one
by one is going through the list of all children, whatever the replacement does besides:
`mapChildrenM_eq`.  After this file no proof looks into a payload again.
-/

namespace DeclTree

namespace Payload

variable {p q : Payload} {s t : Slot} {c : NodeId}

/-! ## Which slots there are -/

lemma slot?_isSome_iff : (p.slot? s).isSome = true ↔ s ∈ p.kind.slots := by
  cases p <;> cases s <;> simp [slot?, kind, Kind.slots]

lemma childrenIn_of_slot? {content : SlotContent} (h : p.slot? s = some content) :
    p.childrenIn s = content.toList := by
  simp [childrenIn, h]

lemma mem_slots_of_mem_childrenIn (h : c ∈ p.childrenIn s) : s ∈ p.kind.slots := by
  rw [← slot?_isSome_iff]
  cases hs : p.slot? s with
  | none => simp [childrenIn, hs] at h
  | some content => rfl

lemma mem_slotChildren : (s, c) ∈ p.slotChildren ↔ c ∈ p.childrenIn s := by
  constructor
  · intro h
    obtain ⟨t, -, ht⟩ := List.mem_flatMap.mp h
    obtain ⟨d, hd, heq⟩ := List.mem_map.mp ht
    obtain ⟨rfl, rfl⟩ := Prod.mk.inj heq
    exact hd
  · intro h
    exact List.mem_flatMap.mpr ⟨s, mem_slots_of_mem_childrenIn h, List.mem_map.mpr ⟨c, h, rfl⟩⟩

lemma slot?_of_isList (hs : s ∈ p.kind.slots) (hlist : s.isList = true) :
    p.slot? s = some (.list (p.childrenIn s)) := by
  cases p <;> cases s <;> simp_all [kind, Kind.slots, Slot.isList, childrenIn, slot?]

lemma slot?_of_not_isList (hs : s ∈ p.kind.slots) (hlist : ¬ s.isList = true) :
    ∃ child, p.slot? s = some (.link child) ∧ p.childrenIn s = child.toList := by
  cases p <;> cases s <;> simp_all [kind, Kind.slots, Slot.isList, childrenIn, slot?]

/-- The children are those of the slots, one slot after the other. -/
lemma children_eq_flatMap (p : Payload) : p.children = p.kind.slots.flatMap p.childrenIn := by
  have hsnd : ∀ s : Slot, (Prod.snd ∘ fun child : NodeId => (s, child)) = id := fun _ => rfl
  simp only [children, slotChildren, List.map_flatMap, List.map_map, hsnd, List.map_id]

lemma mem_children : c ∈ p.children ↔ ∃ s, c ∈ p.childrenIn s := by
  rw [children_eq_flatMap, List.mem_flatMap]
  constructor
  · rintro ⟨s, -, hs⟩
    exact ⟨s, hs⟩
  · rintro ⟨s, hs⟩
    exact ⟨s, mem_slots_of_mem_childrenIn hs, hs⟩

lemma nodup_childrenIn (h : p.children.Nodup) (s : Slot) : (p.childrenIn s).Nodup := by
  by_cases hs : s ∈ p.kind.slots
  · rw [children_eq_flatMap, List.nodup_flatMap] at h
    exact h.1 s hs
  · have hempty : p.childrenIn s = [] :=
      List.eq_nil_iff_forall_not_mem.mpr fun c hc => hs (mem_slots_of_mem_childrenIn hc)
    rw [hempty]
    exact List.nodup_nil

/-! ## Writing a slot -/

lemma slot?_setSlot {before after : SlotContent} (h : p.slot? s = some before)
    (shape : before.sameShape after = true) (t : Slot) :
    (p.setSlot s after).slot? t = if t = s then some after else p.slot? t := by
  cases p <;> cases s <;> simp only [slot?, Option.some.injEq, reduceCtorEq] at h <;> subst h <;>
    cases after <;> simp only [SlotContent.sameShape, Bool.false_eq_true] at shape <;>
    cases t <;> rfl

lemma childrenIn_setSlot {before after : SlotContent} (h : p.slot? s = some before)
    (shape : before.sameShape after = true) (t : Slot) :
    (p.setSlot s after).childrenIn t = if t = s then after.toList else p.childrenIn t := by
  unfold childrenIn
  rw [slot?_setSlot h shape]
  by_cases hts : t = s
  · simp [hts]
  · simp [hts]

/-- Writing what a slot holds already changes nothing. -/
lemma setSlot_self {content : SlotContent} (h : p.slot? s = some content) :
    p.setSlot s content = p := by
  cases p <;> cases s <;> simp only [slot?, Option.some.injEq, reduceCtorEq] at h <;> subst h <;>
    rfl

/-- Of two contents of one shape that are written one after the other, the second stays. -/
lemma setSlot_setSlot {first second : SlotContent} (shape : first.sameShape second = true) :
    (p.setSlot s first).setSlot s second = p.setSlot s second := by
  cases p <;> cases s <;> cases first <;> cases second <;>
    simp only [SlotContent.sameShape, Bool.false_eq_true] at shape <;> rfl

/-- Two payloads with the same scalar fields are of one kind. -/
lemma kind_eq_of_sameScalars (h : p.sameScalars q = true) : q.kind = p.kind := by
  cases p <;> cases q <;> first | rfl | simp [sameScalars] at h

lemma sameScalars_refl (p : Payload) : p.sameScalars p = true := by
  cases p <;> simp [sameScalars]

lemma sameScalars_symm (h : p.sameScalars q = true) : q.sameScalars p = true := by
  cases p <;> cases q <;> simp only [sameScalars, Bool.false_eq_true] at h <;>
    simp_all [sameScalars]

lemma sameScalars_trans {r : Payload} (h₁ : p.sameScalars q = true)
    (h₂ : q.sameScalars r = true) : p.sameScalars r = true := by
  cases p <;> cases q <;> simp only [sameScalars, Bool.false_eq_true] at h₁ <;>
    cases r <;> simp_all [sameScalars]

@[simp] lemma sameScalars_setSlot (p : Payload) (s : Slot) (content : SlotContent) :
    p.sameScalars (p.setSlot s content) = true := by
  cases p <;> cases s <;> cases content <;> simp [setSlot, sameScalars]

lemma sameScalars_of_compilationUnit (hp : p.kind = .compilationUnit)
    (hq : q.kind = .compilationUnit) : p.sameScalars q = true := by
  cases p <;> cases hp
  cases q <;> cases hq
  rfl

/-- A payload is made of its scalar fields and its slots. -/
lemma eq_of_childrenIn_eq (hscalars : p.sameScalars q = true)
    (h : ∀ s, p.childrenIn s = q.childrenIn s) : p = q := by
  cases p <;> cases q <;> simp only [sameScalars, Bool.false_eq_true, beq_iff_eq] at hscalars
  case compilationUnit.compilationUnit u w =>
    obtain ⟨package, comments, nativeBlocks, types⟩ := u
    have hpackage : package.toList = w.package.toList := h .package
    obtain rfl : package = w.package := by
      cases package <;> cases hw : w.package <;> simp_all
    obtain rfl : comments = w.comments := h .comments
    obtain rfl : nativeBlocks = w.nativeBlocks := h .nativeBlocks
    obtain rfl : types = w.types := h .types
    rfl
  case type.type d e =>
    obtain ⟨form, name, identity, members⟩ := d
    obtain rfl : members = e.members := h .members
    simp only [Bool.and_eq_true, beq_iff_eq] at hscalars
    obtain ⟨⟨rfl, rfl⟩, rfl⟩ := hscalars
    rfl
  all_goals rw [hscalars]

/-! ## Payloads that are made from others -/

@[simp] lemma childrenIn_withoutChildren (p : Payload) (s : Slot) :
    p.withoutChildren.childrenIn s = [] := by
  cases p <;> cases s <;> rfl

@[simp] lemma kind_withSlotsOf (p q : Payload) : (p.withSlotsOf q).kind = p.kind := by
  cases p <;> cases q <;> rfl

lemma childrenIn_withSlotsOf (h : q.kind = p.kind) (s : Slot) :
    (p.withSlotsOf q).childrenIn s = q.childrenIn s := by
  cases p <;> cases q <;> simp only [kind, reduceCtorEq] at h <;> cases s <;> rfl

@[simp] lemma sameScalars_withSlotsOf (p q : Payload) :
    p.sameScalars (p.withSlotsOf q) = true := by
  cases p <;> cases q <;> simp [withSlotsOf, sameScalars]

lemma slot?_withSlotsOf (h : q.kind = p.kind) (s : Slot) :
    (p.withSlotsOf q).slot? s = q.slot? s := by
  cases p <;> cases q <;> simp only [kind, reduceCtorEq] at h <;> cases s <;> rfl

/-- Scalar fields and slots are all that there is to a payload. -/
lemma eq_withSlotsOf_iff {r : Payload} (h : q.kind = p.kind) :
    r = p.withSlotsOf q ↔ p.sameScalars r = true ∧ ∀ s, r.slot? s = q.slot? s := by
  constructor
  · rintro rfl
    exact ⟨sameScalars_withSlotsOf p q, slot?_withSlotsOf h⟩
  · rintro ⟨hscalars, hslots⟩
    refine eq_of_childrenIn_eq
      (sameScalars_trans (sameScalars_symm hscalars) (sameScalars_withSlotsOf p q)) fun s => ?_
    unfold childrenIn
    rw [hslots, slot?_withSlotsOf h]

/-! ## Replacing every child -/

/-- The payload with every child replaced. -/
def mapChildren (f : NodeId → NodeId) : Payload → Payload
  | compilationUnit u =>
    compilationUnit ⟨u.package.map f, u.comments.map f, u.nativeBlocks.map f, u.types.map f⟩
  | type d => type { d with members := d.members.map f }
  | p => p

@[simp] lemma kind_mapChildren (f : NodeId → NodeId) (p : Payload) :
    (p.mapChildren f).kind = p.kind := by
  cases p <;> rfl

@[simp] lemma sameScalars_mapChildren (f : NodeId → NodeId) (p : Payload) :
    p.sameScalars (p.mapChildren f) = true := by
  cases p <;> simp [mapChildren, sameScalars]

@[simp] lemma childrenIn_mapChildren (f : NodeId → NodeId) (p : Payload) (s : Slot) :
    (p.mapChildren f).childrenIn s = (p.childrenIn s).map f := by
  cases p <;> cases s <;> simp [mapChildren, childrenIn, slot?, Option.toList_map]

@[simp] lemma missingField?_mapChildren (f : NodeId → NodeId) (p : Payload) :
    (p.mapChildren f).missingField? = p.missingField? := by
  cases p <;> rfl

@[simp] lemma mapChildren_id (p : Payload) : p.mapChildren id = p := by
  cases p <;> simp [mapChildren]

lemma slotChildren_mapChildren (f : NodeId → NodeId) (p : Payload) :
    (p.mapChildren f).slotChildren = p.slotChildren.map fun entry => (entry.1, f entry.2) := by
  simp only [slotChildren, kind_mapChildren, childrenIn_mapChildren, List.map_flatMap,
    List.map_map]
  rfl

lemma mapChildren_congr {f g : NodeId → NodeId} (h : ∀ c ∈ p.children, f c = g c) :
    p.mapChildren f = p.mapChildren g := by
  have hslot : ∀ s, ∀ c ∈ p.childrenIn s, f c = g c := fun s c hc =>
    h c (mem_children.mpr ⟨s, hc⟩)
  cases p with
  | compilationUnit u =>
    have hpackage : u.package.map f = u.package.map g :=
      Option.map_congr fun c hc => hslot .package c (by simp [childrenIn, slot?, hc])
    have hcomments : u.comments.map f = u.comments.map g :=
      List.map_congr_left (hslot .comments)
    have hblocks : u.nativeBlocks.map f = u.nativeBlocks.map g :=
      List.map_congr_left (hslot .nativeBlocks)
    have htypes : u.types.map f = u.types.map g := List.map_congr_left (hslot .types)
    simp only [mapChildren, hpackage, hcomments, hblocks, htypes]
  | type d =>
    have hmembers : d.members.map f = d.members.map g := List.map_congr_left (hslot .members)
    simp only [mapChildren, hmembers]
  | _ => rfl

/-! ## Replacing the children one by one -/

/-- The payload with other children, distributed over the slots as the present ones are. -/
def withChildren : Payload → List NodeId → Payload
  | compilationUnit u, children =>
    let behindPackage := children.drop u.package.toList.length
    let behindComments := behindPackage.drop u.comments.length
    compilationUnit
      { package := (children.take u.package.toList.length).head?
        comments := behindPackage.take u.comments.length
        nativeBlocks := behindComments.take u.nativeBlocks.length
        types := behindComments.drop u.nativeBlocks.length }
  | type d, children => type { d with members := children }
  | p, _ => p

lemma children_compilationUnit (u : UnitSlots) :
    (compilationUnit u).children =
      u.package.toList ++ (u.comments ++ (u.nativeBlocks ++ u.types)) := by
  simp [children_eq_flatMap, kind, Kind.slots, childrenIn, slot?]

lemma children_type (d : TypeDecl) : (type d).children = d.members := by
  simp [children_eq_flatMap, kind, Kind.slots, childrenIn, slot?]

@[simp] lemma kind_withChildren (p : Payload) (children : List NodeId) :
    (p.withChildren children).kind = p.kind := by
  cases p <;> rfl

lemma sameScalars_withChildren (p : Payload) (children : List NodeId) :
    p.sameScalars (p.withChildren children) = true := by
  cases p <;> simp [withChildren, sameScalars]

/-- A link takes what is there for it. -/
lemma toList_head?_take (o : Option NodeId) (children : List NodeId) :
    (children.take o.toList.length).head?.toList = children.take o.toList.length := by
  cases o <;> simp [← List.take_one, List.take_take]

lemma children_withChildren {children : List NodeId} (h : children.length = p.children.length) :
    (p.withChildren children).children = children := by
  cases p with
  | compilationUnit u =>
    simp only [withChildren, children_compilationUnit, toList_head?_take, List.take_append_drop]
  | type d => exact children_type _
  | _ => exact (List.eq_nil_of_length_eq_zero h).symm

lemma withChildren_map (f : NodeId → NodeId) (p : Payload) :
    p.withChildren (p.children.map f) = p.mapChildren f := by
  cases p with
  | compilationUnit u =>
    have hpackage : (u.package.toList.map f).head? = u.package.map f := by
      cases u.package <;> rfl
    simp only [withChildren, mapChildren, children_compilationUnit, ← List.map_take,
      ← List.map_drop, List.take_left, List.drop_left, hpackage]
  | type d =>
    rw [children_type]
    rfl
  | _ => rfl

section Monadic

variable {m : Type → Type} [Monad m] [LawfulMonad m] {α β γ : Type}

/-- Two traversals in a row are one traversal, whose answers are shared out. -/
lemma mapM_bind_mapM (f : α → m β) (front back : List α) (k : List β → List β → m γ) :
    (front.mapM f >>= fun xs => back.mapM f >>= k xs) =
      (front ++ back).mapM f >>= fun ys => k (ys.take front.length) (ys.drop front.length) := by
  induction front generalizing k with
  | nil => simp
  | cons x front ih =>
    have hrest := fun y => ih fun xs => k (y :: xs)
    simp only [List.cons_append, List.mapM_cons, bind_assoc, pure_bind, hrest, List.length_cons,
      List.take_succ_cons, List.drop_succ_cons]

lemma mapM_option_bind (f : α → m β) (o : Option α) (k : Option β → m γ) :
    o.mapM f >>= k = o.toList.mapM f >>= fun ys => k ys.head? := by
  cases o <;> simp

/-- **Replacing the children one by one is going through the list of all children.** -/
theorem mapChildrenM_eq (f : NodeId → m NodeId) (p : Payload) :
    p.mapChildrenM f = p.children.mapM f >>= fun images => pure (p.withChildren images) := by
  cases p with
  | compilationUnit u =>
    rw [children_compilationUnit]
    simp only [mapChildrenM, mapM_bind_mapM, mapM_option_bind, withChildren]
  | type d =>
    rw [children_type]
    rfl
  | _ => simp [mapChildrenM, children, slotChildren, kind, Kind.slots, withChildren]

end Monadic

end Payload

end DeclTree
