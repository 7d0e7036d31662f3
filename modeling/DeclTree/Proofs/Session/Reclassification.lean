import DeclTree.Proofs.CompilationUnit.Copies
import DeclTree.Proofs.Session.Classification

/-!
# Classification of copies

Classification reads the types of a unit and their members in order, their payloads and the spans of
the types, and nothing else.  A tree that mirrors another shows the same payloads and spans in the
same order, so the reports are the same, `Grafted.reportUnit_eq`, and those on a copy of a copy as
well.  As the classifier is handed the unit too, this needs a classifier that makes no use of it.

Registered types that are registered again leave a registry as it is.  So once a unit is classified,
no further classification of it or its copies has any effect, `Reached.copies_classified_alike`.
-/

namespace DeclTree

open TestCase

namespace Payload

lemma type?_mapChildren (f : NodeId → NodeId) (p : Payload) :
    (p.mapChildren f).type? = p.type?.map fun d => { d with members := d.members.map f } := by
  cases p <;> rfl

lemma eq_of_type? {p : Payload} {decl : TypeDecl} (h : p.type? = some decl) : p = .type decl := by
  cases p <;> cases h
  rfl

lemma method?_mapChildren (f : NodeId → NodeId) (p : Payload) :
    (p.mapChildren f).method? = p.method? := by
  cases p <;> rfl

end Payload

namespace TestCase

/-- The answer depends on the method alone. -/
def Classifier.IgnoresUnit (classifier : Classifier) : Prop :=
  ∀ u v method, classifier u method = classifier v method

lemma ignoresUnit_byName : byName.IgnoresUnit := fun _ _ _ => rfl

namespace Registry

variable {r r' : Registry} {ts : List TypeIdentity}

/-- Two registries answer alike. -/
structure Agrees (r r' : Registry) : Prop where
  isRegistered : ∀ t, r.isRegistered t = r'.isRegistered t
  size : r.size = r'.size
  isEmpty : r.isEmpty = r'.isEmpty
  identities : r.identities = r'.identities

/-- Which types are registered is all that a registry knows. -/
lemma agrees_of_isRegistered (h : ∀ t, r.isRegistered t = r'.isRegistered t) : r.Agrees r' where
  isRegistered := h
  size := (equiv_members h).size_eq
  isEmpty := (equiv_members h).isEmpty_eq
  identities := identities_congr h

end Registry

end TestCase

namespace CompilationUnit

open Store

variable {u v : CompilationUnit} {τ : Store} {f : NodeId → NodeId} {y : NodeId}
  {classifier : Classifier}

/-! ## Mirrored trees -/

section Mirrored

variable (h : u.tree.Mirrors root τ f)
include h

lemma methodsOf_withTree {decl : TypeDecl}
    (hmembers : ∀ c ∈ decl.members, u.tree.Reaches root c) :
    methodsOf (u.withTree τ) { decl with members := decl.members.map f } = methodsOf u decl := by
  unfold methodsOf
  rw [List.filterMap_map]
  refine List.filterMap_congr fun c hc => ?_
  show (τ.payload? (f c)).bind Payload.method? = _
  rw [h.payload_eq (hmembers c hc), Option.bind_map]
  congr 1
  funext p
  exact Payload.method?_mapChildren f p

/-- The twin of a type is reported as the type is. -/
lemma reportType_withTree (hclassifier : classifier.IgnoresUnit)
    (hy : u.tree.ReachesBelow root y) :
    reportType (u.withTree τ) classifier (f y) = reportType u classifier y := by
  have hpayload : (u.withTree τ).tree.payload? (f y) =
      (u.tree.payload? y).map (Payload.mapChildren f) := h.payload_eq hy.to_reflTransGen
  rw [reportType, reportType, hpayload]
  cases hp : u.tree.payload? y with
  | none => rfl
  | some p =>
    rw [Option.map_some, Option.bind_some, Option.bind_some, Payload.type?_mapChildren]
    cases htype : p.type? with
    | none => rfl
    | some decl =>
      obtain rfl := Payload.eq_of_type? htype
      have hmembers : ∀ c ∈ decl.members, u.tree.Reaches root c := by
        intro c hc
        have hheld : c ∈ u.tree.childrenIn y .members := by
          rw [childrenIn, hp]
          exact hc
        exact Reaches.tail hy.to_reflTransGen hheld
      have htest :
          isTestCase (u.withTree τ) classifier { decl with members := decl.members.map f } =
            isTestCase u classifier decl := by
        rw [isTestCase, isTestCase, methodsOf_withTree h hmembers,
          funext (hclassifier (u.withTree τ) u)]
      have hspan : (u.withTree τ).tree.span? (f y) = u.tree.span? y := h.span_eq hy
      simp only [Option.map_some, htest, hspan]
      rfl

lemma reportUnit_withTree (hclassifier : classifier.IgnoresUnit) (hroot : f root = root) :
    reportUnit (u.withTree τ) classifier = reportUnit u classifier := by
  have htypes : (u.withTree τ).types = u.types.map f := by
    have hslot := h.childrenIn_eq .refl .types
    rwa [hroot] at hslot
  rw [reportUnit, reportUnit, htypes, List.map_map]
  congr 1
  refine List.map_congr_left fun c hc => ?_
  exact reportType_withTree h hclassifier (.single (mem_children.mpr ⟨.types, hc⟩))

end Mirrored

/-! ## Copies of copies -/

/-- The unit itself, a copy of it, a copy of a copy, and so on. -/
abbrev CopiedTo : CompilationUnit → CompilationUnit → Prop :=
  Relation.ReflTransGen fun u v => u.copy = some (.ok v)

variable {path mainTypeName source : String}

lemma Reached.copiedTo (hu : Reached path mainTypeName source u) (h : u.CopiedTo v) :
    Reached path mainTypeName source v := by
  induction h with
  | refl => exact hu
  | tail _ hcopy ih => exact ih.step (.copy hcopy)

/-- A copy is reported as the original is. -/
lemma Reached.reportUnit_copy (hu : Reached path mainTypeName source u)
    (hclassifier : classifier.IgnoresUnit) (hcopy : u.copy = some (.ok v)) :
    reportUnit v classifier = reportUnit u classifier := by
  have h := hu.createdWith.rooted.copiable
  obtain ⟨τ, hcopy', hτ⟩ := copy_of_copiable h
  obtain rfl : u.withTree τ = v := Except.ok.inj (Option.some.inj (hcopy'.symm.trans hcopy))
  exact reportUnit_withTree (hτ.mirrors h) hclassifier (twin_root u.tree)

lemma Reached.reportUnit_copiedTo (hu : Reached path mainTypeName source u)
    (hclassifier : classifier.IgnoresUnit) (h : u.CopiedTo v) :
    reportUnit v classifier = reportUnit u classifier := by
  induction h with
  | refl => rfl
  | tail hcopies hcopy ih =>
    exact ((hu.copiedTo hcopies).reportUnit_copy hclassifier hcopy).trans ih

end CompilationUnit

namespace TestCase.Registry

variable {r : Registry}

/-- Registers the test cases of several units, one after the other. -/
def classifyAll (r : Registry) (classifier : Classifier) (units : List CompilationUnit) :
    Registry :=
  units.foldl (fun r u => (r.classifyUnit u classifier).2) r

lemma isRegistered_classifyAll {classifier : Classifier} {units : List CompilationUnit}
    {t : TypeIdentity} : (r.classifyAll classifier units).isRegistered t = true ↔
      r.isRegistered t = true ∨ ∃ u ∈ units, t ∈ (reportUnit u classifier).registered := by
  induction units generalizing r with
  | nil => simp [classifyAll]
  | cons u units ih =>
    have hcons : r.classifyAll classifier (u :: units) =
        (r.registerAll (reportUnit u classifier).registered).classifyAll classifier units := rfl
    rw [hcons, ih, isRegistered_registerAll, List.exists_mem_cons_iff, or_assoc]

/-- Where all test cases are registered, nothing is left to register. -/
lemma agrees_classifyAll {classifier : Classifier} {units : List CompilationUnit}
    (h : ∀ u ∈ units, ∀ t ∈ (reportUnit u classifier).registered, r.isRegistered t = true) :
    (r.classifyAll classifier units).Agrees r := by
  refine agrees_of_isRegistered fun t => ?_
  rw [Bool.eq_iff_iff, isRegistered_classifyAll]
  constructor
  · rintro (hold | ⟨u, hu, ht⟩)
    · exact hold
    · exact h u hu t ht
  · exact .inl

end TestCase.Registry

namespace CompilationUnit

variable {u : CompilationUnit} {path mainTypeName source : String} {classifier : Classifier}

/-- **Copies are classified as the original is.**  Reports and registry are the same, whichever of
them is classified, and once one of them is, the others have no effect. -/
theorem Reached.copies_classified_alike (hu : Reached path mainTypeName source u)
    (hclassifier : classifier.IgnoresUnit) :
    (∃ v, u.copy = some (.ok v)) ∧
    (∀ v, u.CopiedTo v → (∃ w, v.copy = some (.ok w)) ∧
      ∀ r : Registry, r.classifyUnit v classifier = r.classifyUnit u classifier) ∧
    ∀ (r : Registry) (units : List CompilationUnit), (∀ v ∈ units, u.CopiedTo v) →
      ((r.classifyUnit u classifier).2.classifyAll classifier units).Agrees
        (r.classifyUnit u classifier).2 := by
  have hcopy : ∀ v, u.CopiedTo v → ∃ w, v.copy = some (.ok w) := by
    intro v hv
    obtain ⟨τ, hcopy, -⟩ := copy_of_copiable (hu.copiedTo hv).createdWith.rooted.copiable
    exact ⟨_, hcopy⟩
  refine ⟨hcopy u .refl, fun v hv => ⟨hcopy v hv, fun r => ?_⟩, fun r units hunits => ?_⟩
  · rw [Registry.classifyUnit, Registry.classifyUnit, hu.reportUnit_copiedTo hclassifier hv]
  · refine Registry.agrees_classifyAll fun v hv t ht => ?_
    rw [hu.reportUnit_copiedTo hclassifier (hunits v hv)] at ht
    exact Registry.isRegistered_registerAll.mpr (.inr ht)

/-- A type with a test has another place in the copy, as the method is copied before it; a comment
that is loose is not copied.  The copy of the copy is reported like the unit. -/
theorem copies_classified_alike_of_copy_of_copy :
    ∃ u v w : CompilationUnit, Reached "A.java" "A" "class {}" u ∧ u.copy = some (.ok v) ∧
      v.copy = some (.ok w) ∧ u.types = [⟨1⟩] ∧ v.types = [⟨2⟩] ∧
      (Registry.empty.classifyUnit w byName).1 = ⟨[⟨"A"⟩], []⟩ ∧
      ((Registry.empty.classifyUnit u byName).2.classifyAll byName [v, w, u, v]).identities =
        (Registry.empty.classifyUnit u byName).2.identities := by
  obtain ⟨u, hu⟩ : ∃ u, create "A.java" "A" "class {}" = .ok u := ⟨_, rfl⟩
  have hreached := Reached.create hu
  obtain rfl := Except.ok.inj hu
  have hreached := hreached.step (.edit (.tree (.alloc (.type ⟨.classForm, "A", ⟨"A"⟩, []⟩) .dummy))
    _ ⟨trivial, nofun⟩ rfl)
  have hreached := hreached.step (.edit (.tree (.alloc (.method ⟨"testIt", [], false⟩) .dummy))
    _ ⟨trivial, nofun⟩ rfl)
  have hreached := hreached.step (.edit (.tree (.alloc (.comment .line) .dummy))
    _ ⟨trivial, nofun⟩ rfl)
  have hreached := hreached.step (.edit (.tree (.pushChild root .types ⟨1⟩))
    _ ⟨trivial, nofun⟩ rfl)
  have hreached := hreached.step (.edit (.tree (.pushChild ⟨1⟩ .members ⟨2⟩))
    _ ⟨trivial, nofun⟩ rfl)
  obtain ⟨⟨v, hv⟩, hcopies, hagree⟩ := hreached.copies_classified_alike ignoresUnit_byName
  have huv : CopiedTo _ v := .single hv
  obtain ⟨w, hw⟩ := (hcopies v huv).1
  have huw := huv.tail hw
  refine ⟨_, v, w, hreached, hv, hw, rfl, ?_, ?_, (hagree _ _ ?_).identities⟩
  · have htypes : some (.ok [⟨2⟩]) = some (Except.ok v.types) :=
      congrArg (Option.map (Except.map types)) hv
    exact (Except.ok.inj (Option.some.inj htypes)).symm
  · rw [(hcopies w huw).2]
    rfl
  · simp [huv, huw, Relation.ReflTransGen.refl]

end CompilationUnit

end DeclTree
