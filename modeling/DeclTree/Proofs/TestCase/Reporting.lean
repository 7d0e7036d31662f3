import DeclTree.Proofs.Session.Classification

/-!
# What is reported of a unit

Of a top-level type only its identity, its span and its methods count, `DeclaredType`.  The
classification of a type stops at the first method in error; so it comes to that error, or to
whether one of the methods is a test, `anyTest_eq`.  A report is put together from what is found of
each type alone, `reportUnit_eq`: no type has a part in what is found of another.
-/

namespace DeclTree.TestCase

/-- What counts of a declared type. -/
structure DeclaredType where
  /-- The identity of the type. -/
  identity : TypeIdentity
  /-- The span of the declaration. -/
  span : Span
  /-- The methods among the members, in order. -/
  methods : List MethodDecl
deriving DecidableEq

/-- The type that a node declares, if it declares one. -/
def declared? (u : CompilationUnit) (id : NodeId) : Option DeclaredType := do
  let node ← u.tree.node? id
  let decl ← node.payload.type?
  return ⟨decl.identity, node.span, methodsOf u decl⟩

/-- The top-level types of a unit in order of declaration. -/
def topLevelTypes (u : CompilationUnit) : List DeclaredType := u.types.filterMap (declared? u)

/-- The error of a classification that failed. -/
def errorOf? {ε α : Type} : Except ε α → Option ε
  | .error e => some e
  | .ok _ => none

namespace DeclaredType

variable (classify : MethodDecl → Except NamingError Bool) (t : DeclaredType)

/-- Every method is classified without error, and at least one of them as a test. -/
def IsTestCase : Prop :=
  (∀ method ∈ t.methods, (classify method).isOk = true) ∧
    ∃ method ∈ t.methods, classify method = .ok true

instance : Decidable (t.IsTestCase classify) := inferInstanceAs (Decidable (_ ∧ _))

/-- The error of the first method in error. -/
def firstError? : Option NamingError := t.methods.findSome? fun method => errorOf? (classify method)

/-- What is found of one type of a unit. -/
def report (u : CompilationUnit) (classifier : Classifier) : Report where
  registered := if t.IsTestCase (classifier u) then [t.identity] else []
  diagnostics := ((t.firstError? (classifier u)).map fun error =>
    ⟨u.path, t.identity, t.span, error⟩).toList

end DeclaredType

/-! ## One type -/

section Methods

variable {classify : MethodDecl → Except NamingError Bool} {t : DeclaredType}

/-- **The methods of a type come to the first error among them, or to whether one is a test.** -/
lemma anyTest_eq (methods : List MethodDecl) :
    anyTest classify methods =
      match methods.findSome? fun method => errorOf? (classify method) with
      | some error => .error error
      | none => .ok (methods.any fun method => decide (classify method = .ok true)) := by
  induction methods with
  | nil => rfl
  | cons method methods ih =>
    rw [anyTest, ih, List.findSome?_cons, List.any_cons]
    cases classify method with
    | error error => rfl
    | ok isTest =>
      -- what the later methods come to decides
      rw [show errorOf? (.ok isTest : Except NamingError Bool) = none from rfl]
      cases methods.findSome? fun method => errorOf? (classify method) with
      | some error => rfl
      | none => cases isTest <;> rfl

lemma errorOf?_eq_none_iff {ε α : Type} {answer : Except ε α} :
    errorOf? answer = none ↔ answer.isOk = true := by
  cases answer <;> simp [errorOf?, Except.isOk, Except.toBool]

lemma DeclaredType.isTestCase_iff :
    t.IsTestCase classify ↔ t.firstError? classify = none ∧
      (t.methods.any fun method => decide (classify method = .ok true)) = true := by
  rw [IsTestCase, firstError?, List.findSome?_eq_none_iff]
  simp only [errorOf?_eq_none_iff, List.any_eq_true, decide_eq_true_eq]

end Methods

variable {u : CompilationUnit} {classifier : Classifier}

/-- What is found of a type is what its methods come to. -/
lemma DeclaredType.report_eq (t : DeclaredType) :
    t.report u classifier =
      match anyTest (classifier u) t.methods with
      | .ok true => ⟨[t.identity], []⟩
      | .ok false => .empty
      | .error error => ⟨[], [⟨u.path, t.identity, t.span, error⟩]⟩ := by
  rw [anyTest_eq, report, firstError?]
  simp only [isTestCase_iff, firstError?]
  cases t.methods.findSome? fun method => errorOf? (classifier u method) with
  | some error => rfl
  | none => cases t.methods.any fun method => decide (classifier u method = .ok true) <;> rfl

/-- A node that declares no type is passed over. -/
lemma reportType_eq (id : NodeId) :
    reportType u classifier id = ((declared? u id).map (·.report u classifier)).getD .empty := by
  unfold reportType declared? Store.payload? Store.span?
  cases u.tree.node? id with
  | none => rfl
  | some node =>
    rw [Option.map_some, Option.bind_some]
    cases htype : node.payload.type? with
    | none => simp [htype]
    | some decl =>
      simp only [Option.bind_eq_bind, Option.bind_some, htype]
      exact (DeclaredType.report_eq ⟨decl.identity, node.span, methodsOf u decl⟩).symm

/-! ## The whole unit -/

/-- **A report is put together from what is found of each type.** -/
lemma reportUnit_eq (u : CompilationUnit) (classifier : Classifier) :
    reportUnit u classifier = .concat ((topLevelTypes u).map (·.report u classifier)) := by
  rw [reportUnit, topLevelTypes]
  induction u.types with
  | nil => rfl
  | cons id rest ih =>
    rw [List.map_cons, Report.concat_cons, ih, reportType_eq, List.filterMap_cons]
    cases declared? u id with
    | none => rfl
    | some t => rfl

lemma registered_concat_report (ts : List DeclaredType) :
    (Report.concat (ts.map (·.report u classifier))).registered =
      (ts.filter (·.IsTestCase (classifier u))).map DeclaredType.identity := by
  induction ts with
  | nil => rfl
  | cons t ts ih =>
    rw [List.map_cons, Report.concat_cons, Report.append, ih, List.filter_cons]
    by_cases htest : t.IsTestCase (classifier u) <;> simp [DeclaredType.report, htest]

lemma diagnostics_concat_report (ts : List DeclaredType) :
    (Report.concat (ts.map (·.report u classifier))).diagnostics =
      ts.filterMap fun t => (t.firstError? (classifier u)).map fun error =>
        ⟨u.path, t.identity, t.span, error⟩ := by
  induction ts with
  | nil => rfl
  | cons t ts ih =>
    rw [List.map_cons, Report.concat_cons, Report.append, ih, List.filterMap_cons]
    cases herror : t.firstError? (classifier u) <;> simp [DeclaredType.report, herror]

lemma anyTest_congr {classify classify' : MethodDecl → Except NamingError Bool}
    {methods : List MethodDecl} (h : ∀ method ∈ methods, classify' method = classify method) :
    anyTest classify' methods = anyTest classify methods := by
  induction methods with
  | nil => rfl
  | cons method methods ih =>
    rw [List.forall_mem_cons] at h
    rw [anyTest, anyTest, h.1, ih h.2]

/-- What is found of a type depends on the answers for its own methods. -/
lemma DeclaredType.report_congr {v : CompilationUnit} {t : DeclaredType} (hpath : v.path = u.path)
    (hanswers : ∀ method ∈ t.methods, classifier v method = classifier u method) :
    t.report v classifier = t.report u classifier := by
  rw [report_eq, report_eq, anyTest_congr hanswers, hpath]

lemma reportUnit_congr {v : CompilationUnit} (hpath : v.path = u.path)
    (htypes : topLevelTypes v = topLevelTypes u)
    (hanswers : ∀ t ∈ topLevelTypes u, ∀ method ∈ t.methods,
      classifier v method = classifier u method) :
    reportUnit v classifier = reportUnit u classifier := by
  rw [reportUnit_eq, reportUnit_eq, htypes]
  refine congrArg _ (List.map_congr_left fun t ht => ?_)
  exact DeclaredType.report_congr hpath (hanswers t ht)

namespace Registry

/-- **A unit is reported type by type, each type by its own methods.**  Registered are the types
with a test and without an error, and each type with an error has one diagnostic, with the first
error.  What else the tree holds makes no difference.  Nothing but what is reported as registered
comes into the registry. -/
theorem classifyUnit_reports (r : Registry) (u : CompilationUnit) (classifier : Classifier) :
    (r.classifyUnit u classifier).1.registered =
      ((topLevelTypes u).filter (·.IsTestCase (classifier u))).map DeclaredType.identity ∧
    (r.classifyUnit u classifier).1.diagnostics =
      ((topLevelTypes u).filterMap fun t => (t.firstError? (classifier u)).map fun error =>
        ⟨u.path, t.identity, t.span, error⟩) ∧
    (∀ v : CompilationUnit, v.path = u.path → topLevelTypes v = topLevelTypes u →
      (∀ t ∈ topLevelTypes u, ∀ method ∈ t.methods, classifier v method = classifier u method) →
      r.classifyUnit v classifier = r.classifyUnit u classifier) ∧
    ∀ t, (r.classifyUnit u classifier).2.isRegistered t = true ↔
      r.isRegistered t = true ∨ t ∈ (r.classifyUnit u classifier).1.registered := by
  refine ⟨?_, ?_, fun v hpath htypes hanswers => ?_, fun t => isRegistered_registerAll⟩
  · rw [classifyUnit, reportUnit_eq, registered_concat_report]
  · rw [classifyUnit, reportUnit_eq, diagnostics_concat_report]
  · rw [classifyUnit, classifyUnit, reportUnit_congr hpath htypes hanswers]

/-- The first type has a test and an error behind it, the second one a nested type with a test, and
the third one a test.  Without the nested type and the field, the report is the same. -/
theorem classifyUnit_reports_of_three_types :
    ∃ u v : CompilationUnit, u.tree.size = 10 ∧ v.tree.size = 7 ∧
      (empty.classifyUnit u byName).1.registered = [⟨"p.C"⟩] ∧
      (empty.classifyUnit u byName).1.diagnostics =
        [⟨"A.java", ⟨"p.A"⟩, ⟨4, 8⟩, .setUpName "init"⟩] ∧
      empty.classifyUnit v byName = empty.classifyUnit u byName := by
  let member (owner : Nat) : Option ParentLink := some ⟨⟨owner⟩, .members⟩
  let top : Option ParentLink := some ⟨CompilationUnit.root, .types⟩
  let named (name : String) : Payload := .method ⟨name, [], false⟩
  let init : Payload := .method ⟨"init", ["@Before"], false⟩
  let tree : Store := ⟨#[⟨.compilationUnit ⟨none, [], [], [⟨1⟩, ⟨2⟩, ⟨3⟩]⟩, .dummy, none⟩,
    ⟨.type ⟨.classForm, "A", ⟨"p.A"⟩, [⟨4⟩, ⟨5⟩, ⟨6⟩]⟩, ⟨4, 8⟩, top⟩,
    ⟨.type ⟨.classForm, "B", ⟨"p.B"⟩, [⟨7⟩]⟩, .dummy, top⟩,
    ⟨.type ⟨.classForm, "C", ⟨"p.C"⟩, [⟨9⟩]⟩, .dummy, top⟩,
    ⟨named "testA", .dummy, member 1⟩, ⟨.field ⟨"count", "int"⟩, .dummy, member 1⟩,
    ⟨init, .dummy, member 1⟩, ⟨.type ⟨.classForm, "D", ⟨"p.D"⟩, [⟨8⟩]⟩, .dummy, member 2⟩,
    ⟨named "testD", .dummy, member 7⟩, ⟨named "testC", .dummy, member 3⟩], by decide⟩
  let bare : Store := ⟨#[⟨.compilationUnit ⟨none, [], [], [⟨1⟩, ⟨2⟩, ⟨3⟩]⟩, .dummy, none⟩,
    ⟨.type ⟨.classForm, "A", ⟨"p.A"⟩, [⟨4⟩, ⟨5⟩]⟩, ⟨4, 8⟩, top⟩,
    ⟨.type ⟨.classForm, "B", ⟨"p.B"⟩, []⟩, .dummy, top⟩,
    ⟨.type ⟨.classForm, "C", ⟨"p.C"⟩, [⟨6⟩]⟩, .dummy, top⟩,
    ⟨named "testA", .dummy, member 1⟩, ⟨init, .dummy, member 1⟩, ⟨named "testC", .dummy, member 3⟩],
    by decide⟩
  let u : CompilationUnit := ⟨"A.java", "A", "", .build "", tree, .none, none⟩
  let v : CompilationUnit := ⟨"A.java", "A", "", .build "", bare, .none, none⟩
  obtain ⟨hregistered, hdiagnostics, hcongr, -⟩ := classifyUnit_reports empty u byName
  exact ⟨u, v, rfl, rfl, hregistered, hdiagnostics, hcongr v rfl rfl fun _ _ _ _ => rfl⟩

end Registry

end DeclTree.TestCase
