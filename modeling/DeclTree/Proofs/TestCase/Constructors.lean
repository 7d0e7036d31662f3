import DeclTree.Proofs.TestCase.Reporting

/-!
# Constructors among the methods of a type

The naming rules ask whether a method is a constructor only where it has no annotation that makes it
a test.  So a constructor that is named like a test is one exactly if it is annotated as one,
`classifyMethod_eq_ok_true_iff`, and a type that has no other methods is registered if one of its
constructors is annotated: `constructors_tested_iff_annotated`.
-/

namespace DeclTree.TestCase

variable {method : MethodDecl}

/-- A method that is named like a test breaks a rule if it is to run before or after tests. -/
lemma classifyMethod_of_named (h : isNamedTest method = true) :
    classifyMethod method =
      if method.isAnnotated "Before" then .error (.setUpName method.name)
      else if method.isAnnotated "After" then .error (.tearDownName method.name)
      else .ok (method.isAnnotated "Test" || !method.isConstructor) := by
  have hnames : method.name ≠ "setUp" ∧ method.name ≠ "tearDown" := by
    rw [isNamedTest] at h
    constructor <;>
    · intro hname
      rw [hname] at h
      exact absurd h (by decide)
  unfold classifyMethod
  cases method.isAnnotated "Test" <;> simp [h, hnames]

/-- No other method is a test, and it breaks a rule if it is annotated as one. -/
lemma eq_false_of_not_named (h : isNamedTest method = false) {isTest : Bool}
    (hok : classifyMethod method = .ok isTest) :
    isTest = false ∧ method.isAnnotated "Test" = false := by
  unfold classifyMethod at hok
  split at hok
  · cases hok
  · split at hok
    · cases hok
    · rw [h] at hok
      cases htest : method.isAnnotated "Test" with
      | true =>
        rw [htest] at hok
        cases hok
      | false =>
        rw [htest, Bool.and_false] at hok
        exact ⟨(Except.ok.inj hok).symm, rfl⟩

/-- **A test is named like one, is not to run before or after tests, and is annotated as a test or
not a constructor.** -/
lemma classifyMethod_eq_ok_true_iff :
    classifyMethod method = .ok true ↔ isNamedTest method = true ∧
      method.isAnnotated "Before" = false ∧ method.isAnnotated "After" = false ∧
      (method.isAnnotated "Test" = true ∨ method.isConstructor = false) := by
  cases hnamed : isNamedTest method with
  | true =>
    rw [classifyMethod_of_named hnamed]
    cases method.isAnnotated "Before" <;> cases method.isAnnotated "After" <;> simp
  | false =>
    simp only [Bool.false_eq_true, false_and, iff_false]
    exact fun hok => absurd (eq_false_of_not_named hnamed hok).1.symm Bool.false_ne_true

/-- A method that breaks no rule is a test if it is annotated as one. -/
lemma classifyMethod_of_annotated (hok : (classifyMethod method).isOk = true)
    (htest : method.isAnnotated "Test" = true) : classifyMethod method = .ok true := by
  cases hanswer : classifyMethod method with
  | error error =>
    rw [hanswer] at hok
    cases hok
  | ok isTest =>
    cases hnamed : isNamedTest method with
    | true =>
      rw [classifyMethod_of_named hnamed, htest] at hanswer
      split at hanswer
      · cases hanswer
      · split at hanswer
        · cases hanswer
        · exact hanswer.symm
    | false =>
      have hnone := (eq_false_of_not_named hnamed hanswer).2
      exact absurd (hnone.symm.trans htest) Bool.false_ne_true

/-- A constructor is a test exactly if it breaks no rule and is annotated as one. -/
lemma classifyMethod_of_isConstructor (h : method.isConstructor = true) :
    classifyMethod method = .ok true ↔
      (classifyMethod method).isOk = true ∧ method.isAnnotated "Test" = true := by
  constructor
  · intro hok
    obtain ⟨-, -, -, htest | hnot⟩ := classifyMethod_eq_ok_true_iff.mp hok
    · exact ⟨by rw [hok]; rfl, htest⟩
    · exact absurd (hnot.symm.trans h) Bool.false_ne_true
  · rintro ⟨hok, htest⟩
    exact classifyMethod_of_annotated hok htest

/-- **A constructor is a test exactly if it is annotated as one and breaks no rule.**  So of the
types that have no methods but constructors, those with an annotated constructor are registered,
unless a constructor is in error. -/
theorem constructors_tested_iff_annotated (r : Registry) (u : CompilationUnit) :
    (∀ method : MethodDecl, method.isConstructor = true →
      (classifyMethod method = .ok true ↔ isNamedTest method = true ∧
        method.isAnnotated "Before" = false ∧ method.isAnnotated "After" = false ∧
        method.isAnnotated "Test" = true)) ∧
    (r.classifyUnit u byName).1.registered =
      ((topLevelTypes u).filter (·.IsTestCase classifyMethod)).map DeclaredType.identity ∧
    ∀ t ∈ topLevelTypes u, (∀ method ∈ t.methods, method.isConstructor = true) →
      (t.IsTestCase classifyMethod ↔ (∀ method ∈ t.methods, (classifyMethod method).isOk = true) ∧
        ∃ method ∈ t.methods, method.isAnnotated "Test" = true) := by
  refine ⟨fun method hconstructor => ?_, ?_, fun t _ hconstructors => ?_⟩
  · rw [classifyMethod_eq_ok_true_iff, hconstructor]
    simp only [Bool.true_eq_false, or_false]
  · rw [Registry.classifyUnit, reportUnit_eq, registered_concat_report]
    rfl
  · rw [DeclaredType.IsTestCase]
    refine and_congr_right fun hok => exists_congr fun method => and_congr_right fun hmethod => ?_
    rw [classifyMethod_of_isConstructor (hconstructors method hmethod),
      and_iff_right (hok method hmethod)]

/-- Two constructors that are named like tests, one of them annotated with something else, are no
tests and do not get their type registered. -/
theorem constructors_tested_iff_annotated_of_unannotated :
    ∃ (u : CompilationUnit) (t : DeclaredType), t ∈ topLevelTypes u ∧
      t.methods = [⟨"test", [], true⟩, ⟨"testAll", ["@Deprecated"], true⟩] ∧
      (∀ method ∈ t.methods, method.isConstructor = true) ∧
      (∀ method ∈ t.methods, classifyMethod method ≠ .ok true) ∧ ¬ t.IsTestCase classifyMethod ∧
      (Registry.empty.classifyUnit u byName).1.registered = [] := by
  let tree : Store := ⟨#[⟨.compilationUnit ⟨none, [], [], [⟨1⟩]⟩, .dummy, none⟩,
    ⟨.type ⟨.classForm, "A", ⟨"p.A"⟩, [⟨2⟩, ⟨3⟩]⟩, .dummy, some ⟨⟨0⟩, .types⟩⟩,
    ⟨.method ⟨"test", [], true⟩, .dummy, some ⟨⟨1⟩, .members⟩⟩,
    ⟨.method ⟨"testAll", ["@Deprecated"], true⟩, .dummy, some ⟨⟨1⟩, .members⟩⟩], by decide⟩
  let u : CompilationUnit := ⟨"A.java", "A", "", .build "", tree, .none, none⟩
  let t : DeclaredType := ⟨⟨"p.A"⟩, .dummy,
    [⟨"test", [], true⟩, ⟨"testAll", ["@Deprecated"], true⟩]⟩
  have hmem : t ∈ topLevelTypes u := List.mem_singleton.mpr rfl
  have hconstructors : ∀ method ∈ t.methods, method.isConstructor = true := by decide
  have hplain : ∀ method ∈ t.methods, method.isAnnotated "Test" = false := by decide
  obtain ⟨hmethods, hregistered, htypes⟩ := constructors_tested_iff_annotated .empty u
  refine ⟨u, t, hmem, rfl, hconstructors, fun method hmethod htest => ?_, fun htest => ?_,
    hregistered⟩
  · obtain ⟨-, -, -, hannotated⟩ := (hmethods method (hconstructors method hmethod)).mp htest
    exact absurd ((hplain method hmethod).symm.trans hannotated) Bool.false_ne_true
  · obtain ⟨-, method, hmethod, hannotated⟩ := (htypes t hmem hconstructors).mp htest
    exact absurd ((hplain method hmethod).symm.trans hannotated) Bool.false_ne_true

/-- An annotated constructor is a test, and gets its type registered. -/
theorem annotated_constructor_registered :
    classifyMethod ⟨"test", ["Test"], true⟩ = .ok true ∧
    ∃ u : CompilationUnit, topLevelTypes u = [⟨⟨"p.A"⟩, .dummy, [⟨"test", ["Test"], true⟩]⟩] ∧
      (Registry.empty.classifyUnit u byName).1.registered = [⟨"p.A"⟩] :=
  ⟨by decide,
    ⟨"A.java", "A", "", .build "", ⟨#[⟨.compilationUnit ⟨none, [], [], [⟨1⟩]⟩, .dummy, none⟩,
      ⟨.type ⟨.classForm, "A", ⟨"p.A"⟩, [⟨2⟩]⟩, .dummy, some ⟨⟨0⟩, .types⟩⟩,
      ⟨.method ⟨"test", ["Test"], true⟩, .dummy, some ⟨⟨1⟩, .members⟩⟩], by decide⟩, .none, none⟩,
    rfl, rfl⟩

end DeclTree.TestCase
