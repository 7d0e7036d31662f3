import Mathlib.Data.Finset.Filter
import Mathlib.Data.Finset.Insert
import Mathlib.Logic.Relation
import DeclTree.Proofs.Text.Segments
import DeclTree.TestCase.Naming

/-!
# What counts of annotations

Of an annotation only its simple name counts, `annotationName`, and of the simple names only those
that the naming rules know.  These are the `roles` of a method, and the answer of the naming rules
depends on the annotations only through them, `classifyMethod_congr`.  `Respelling` has the ways to
change annotations without changing the roles, `roles_of_respelling`.
-/

namespace DeclTree.TestCase

open scoped List

/-! ## Simple names -/

/-- The simple name of an annotation: what follows the leading `@` signs and the qualifier. -/
def annotationName (written : String) : String :=
  String.ofList (Text.lastSegmentChars (written.toList.dropWhile (· == '@')))

/-- A text behind a number of `@` signs. -/
def signed (n : Nat) (text : String) : String := String.ofList (List.replicate n '@') ++ text

lemma isAnnotated_iff {method : MethodDecl} {name : String} :
    method.isAnnotated name = true ↔ name ∈ method.annotations.map annotationName := by
  simp only [MethodDecl.isAnnotated, List.any_eq_true, beq_iff_eq, List.mem_map, annotationName,
    ← String.toList_inj, String.toList_ofList]

lemma toList_signed (n : Nat) (text : String) :
    (signed n text).toList = List.replicate n '@' ++ text.toList := by
  simp [signed]

lemma dropWhile_signed (n : Nat) (text : String) :
    (signed n text).toList.dropWhile (· == '@') = text.toList.dropWhile (· == '@') := by
  have hsigns : (List.replicate n '@').dropWhile (· == '@') = [] := by simp
  rw [toList_signed, List.dropWhile_append, hsigns]
  rfl

/-- Each text is its leading `@` signs and what follows them. -/
lemma exists_signed (text : String) :
    ∃ n bare, text = signed n bare ∧ bare.toList = text.toList.dropWhile (· == '@') := by
  refine ⟨(text.toList.takeWhile (· == '@')).length,
    String.ofList (text.toList.dropWhile (· == '@')), ?_, String.toList_ofList⟩
  have hsigns : text.toList.takeWhile (· == '@') =
      List.replicate (text.toList.takeWhile (· == '@')).length '@' :=
    List.eq_replicate_iff.mpr ⟨rfl, fun c hc => by simpa using List.mem_takeWhile_imp hc⟩
  rw [← String.toList_inj, toList_signed, String.toList_ofList, ← hsigns,
    List.takeWhile_append_dropWhile]

/-- A text that does not start with `@` has no leading signs. -/
lemma dropWhile_of_unsigned {text : String} (h : text.toList.head? ≠ some '@') :
    text.toList.dropWhile (· == '@') = text.toList := by
  cases hlist : text.toList with
  | nil => rfl
  | cons c rest =>
    rw [hlist, List.head?_cons, Ne, Option.some.injEq] at h
    exact List.dropWhile_cons_of_neg (by simpa using h)

lemma annotationName_signed (n : Nat) (text : String) :
    annotationName (signed n text) = annotationName text := by
  rw [annotationName, dropWhile_signed, annotationName]

/-- Leading signs in front of a full stop do not eat it up. -/
lemma dropWhile_qualified (qualifier rest : List Char) :
    (qualifier ++ '.' :: rest).dropWhile (· == '@') =
      qualifier.dropWhile (· == '@') ++ '.' :: rest := by
  rw [List.dropWhile_append]
  split
  · next hempty =>
    rw [List.isEmpty_iff.mp hempty, List.dropWhile_cons_of_neg (by decide), List.nil_append]
  · rfl

lemma annotationName_qualified (qualifier : String) {text : String}
    (h : text.toList.head? ≠ some '@') :
    annotationName (qualifier ++ "." ++ text) = annotationName text := by
  have hlist : (qualifier ++ "." ++ text).toList = qualifier.toList ++ '.' :: text.toList := by simp
  rw [annotationName, hlist, dropWhile_qualified, Text.lastSegmentChars_qualified, annotationName,
    dropWhile_of_unsigned h]

/-- **An annotation has a simple name exactly if it is that name behind `@` signs or ends with a
full stop and that name.** -/
lemma annotationName_eq_iff {written name : String} (hdot : '.' ∉ name.toList)
    (hsign : name.toList.head? ≠ some '@') :
    annotationName written = name ↔
      (∃ n, written = signed n name) ∨ ∃ front, written = front ++ "." ++ name := by
  constructor
  · intro hname
    obtain ⟨n, bare, rfl, hbare⟩ := exists_signed written
    have hlast : Text.lastSegment bare = name := by
      rw [Text.lastSegment, hbare, ← hname, annotationName]
    obtain ⟨-, rfl | ⟨front, rfl⟩⟩ := Text.lastSegment_eq_iff.mp hlast
    · exact .inl ⟨n, rfl⟩
    · exact .inr ⟨signed n front, by simp only [signed, String.append_assoc]⟩
  · have hself : annotationName name = name := by
      rw [annotationName, dropWhile_of_unsigned hsign, Text.lastSegmentChars_of_not_mem hdot,
        String.ofList_toList]
    rintro (⟨n, rfl⟩ | ⟨front, rfl⟩)
    · rw [annotationName_signed, hself]
    · rw [annotationName_qualified front hsign, hself]

/-! ## Roles -/

/-- The simple names that the naming rules know. -/
def roleNames : Finset String := {"Test", "Before", "After"}

/-- The simple names of annotations, as far as the naming rules know them. -/
def roles (annotations : List String) : Finset String :=
  roleNames.filter (· ∈ annotations.map annotationName)

variable {method method' : MethodDecl} {annotations annotations' : List String}

lemma isAnnotated_eq_of_roles (hroles : roles method.annotations = roles method'.annotations)
    (name : String) (hname : name ∈ roleNames) :
    method.isAnnotated name = method'.isAnnotated name := by
  have hmem : name ∈ roles method.annotations ↔ name ∈ roles method'.annotations := by rw [hroles]
  rw [roles, roles, Finset.mem_filter, Finset.mem_filter, and_iff_right hname,
    and_iff_right hname] at hmem
  rw [Bool.eq_iff_iff, isAnnotated_iff, isAnnotated_iff, hmem]

/-- The answer depends on the annotations through the roles. -/
lemma classifyMethod_congr (hname : method.name = method'.name)
    (hconstructor : method.isConstructor = method'.isConstructor)
    (hroles : roles method.annotations = roles method'.annotations) :
    classifyMethod method = classifyMethod method' := by
  have hbefore := isAnnotated_eq_of_roles hroles "Before" (by decide)
  have hafter := isAnnotated_eq_of_roles hroles "After" (by decide)
  have htest := isAnnotated_eq_of_roles hroles "Test" (by decide)
  rw [classifyMethod, classifyMethod, isNamedTest, isNamedTest, hbefore, hafter, htest, hname,
    hconstructor]

/-- A change of annotations that leaves the roles alone. -/
inductive Respelling : List String → List String → Prop
  /-- Annotations change places. -/
  | reorder {annotations annotations' : List String} (h : annotations ~ annotations') :
    Respelling annotations annotations'
  /-- An annotation is written once more. -/
  | repeated {written : String} {annotations : List String} (h : written ∈ annotations) :
    Respelling annotations (written :: annotations)
  /-- An annotation gets leading signs. -/
  | sign (front back : List String) (n : Nat) (written : String) :
    Respelling (front ++ written :: back) (front ++ signed n written :: back)
  /-- An annotation gets a qualifier, behind all of its leading signs. -/
  | qualify (front back : List String) (n : Nat) (qualifier bare : String)
    (h : bare.toList.head? ≠ some '@') :
    Respelling (front ++ signed n bare :: back)
      (front ++ signed n (qualifier ++ "." ++ bare) :: back)
  /-- There is one more annotation, with a simple name that the naming rules do not know. -/
  | other (front back : List String) {written : String} (h : annotationName written ∉ roleNames) :
    Respelling (front ++ back) (front ++ written :: back)

lemma roles_of_respelling (h : Respelling annotations annotations') :
    roles annotations = roles annotations' := by
  refine Finset.filter_congr fun name hname => ?_
  cases h with
  | reorder h => exact (h.map annotationName).mem_iff
  | repeated h =>
    rw [List.map_cons, List.mem_cons, or_iff_right_of_imp]
    rintro rfl
    exact List.mem_map_of_mem h
  | sign front back n written => simp only [List.map_append, List.map_cons, annotationName_signed]
  | qualify front back n qualifier bare h =>
    simp only [List.map_append, List.map_cons, annotationName_signed,
      annotationName_qualified qualifier h]
  | other front back h =>
    have hne : name ≠ annotationName _ := fun heq => h (heq ▸ hname)
    simp only [List.map_append, List.map_cons, List.mem_append, List.mem_cons, hne, false_or]

/-- Any number of such changes, forth and back, leave the roles alone. -/
lemma roles_of_respellings (h : Relation.EqvGen Respelling annotations annotations') :
    roles annotations = roles annotations' := by
  induction h with
  | rel _ _ hstep => exact roles_of_respelling hstep
  | refl _ => rfl
  | symm _ _ _ ih => exact ih.symm
  | trans _ _ _ _ _ ih₁ ih₂ => exact ih₁.trans ih₂

/-- **The naming rules see nothing of the annotations but which of their simple names are `Test`,
`Before` and `After`.**  Whatever order, repetitions, signs, qualifiers and other annotations there
are makes no difference to the answer, or to the error.  The simple names are what the texts of the
annotations end in. -/
theorem byName_depends_on_roles (u : CompilationUnit) (method : MethodDecl) :
    (∀ other : MethodDecl, other.name = method.name →
      other.isConstructor = method.isConstructor →
      roles other.annotations = roles method.annotations → byName u other = byName u method) ∧
    (∀ annotations, Relation.EqvGen Respelling method.annotations annotations →
      byName u { method with annotations := annotations } = byName u method) ∧
    (∀ name, name ∈ roles method.annotations ↔
      name ∈ roleNames ∧ method.isAnnotated name = true) ∧
    ∀ name : String, '.' ∉ name.toList → name.toList.head? ≠ some '@' →
      (method.isAnnotated name = true ↔ ∃ written ∈ method.annotations,
        (∃ n, written = signed n name) ∨ ∃ front, written = front ++ "." ++ name) := by
  refine ⟨fun other hname hconstructor hroles => classifyMethod_congr hname hconstructor hroles,
    fun annotations h => classifyMethod_congr rfl rfl (roles_of_respellings h).symm,
    fun name => ?_, fun name hdot hsign => ?_⟩
  · rw [roles, Finset.mem_filter, isAnnotated_iff]
  · rw [isAnnotated_iff, List.mem_map]
    exact exists_congr fun written => and_congr_right fun _ => annotationName_eq_iff hdot hsign

/-- An annotation is dropped, another one loses its qualifier and a sign and is repeated; the method
is in error as before. -/
theorem byName_depends_on_roles_of_qualified :
    ∃ (u : CompilationUnit) (method : MethodDecl),
      method.annotations = ["@Override", "@@org.junit.Test"] ∧
      Relation.EqvGen Respelling method.annotations ["@Test", "@Test"] ∧
      byName u { method with annotations := ["@Test", "@Test"] } = byName u method ∧
      byName u { method with annotations := ["Test", "x"] } = byName u method ∧
      byName u method = .error (.testName "check") ∧ method.isAnnotated "Test" = true := by
  let u : CompilationUnit := ⟨"A.java", "A", "", .build "", .empty, .none, none⟩
  let method : MethodDecl := ⟨"check", ["@Override", "@@org.junit.Test"], false⟩
  obtain ⟨hroles, hrespelled, -, hwritten⟩ := byName_depends_on_roles u method
  have hdrop : Respelling ["@@org.junit.Test"] method.annotations :=
    .other [] ["@@org.junit.Test"] (by decide)
  have hqualify : Respelling ["@@Test"] ["@@org.junit.Test"] :=
    .qualify [] [] 2 "org.junit" "Test" (by decide)
  have hsign : Respelling ["@Test"] ["@@Test"] := .sign [] [] 1 "@Test"
  have hrepeated : Respelling ["@Test"] ["@Test", "@Test"] := .repeated List.mem_cons_self
  have hall : Relation.EqvGen Respelling method.annotations ["@Test", "@Test"] :=
    .trans _ _ _ (.symm _ _ (.rel _ _ hdrop)) <| .trans _ _ _ (.symm _ _ (.rel _ _ hqualify)) <|
      .trans _ _ _ (.symm _ _ (.rel _ _ hsign)) (.rel _ _ hrepeated)
  refine ⟨u, method, rfl, hall, hrespelled _ hall,
    hroles { method with annotations := ["Test", "x"] } rfl rfl (by decide), by decide, ?_⟩
  exact (hwritten "Test" (by decide) (by decide)).mpr
    ⟨"@@org.junit.Test", by decide, .inr ⟨"@@org.junit", by decide⟩⟩

end DeclTree.TestCase
