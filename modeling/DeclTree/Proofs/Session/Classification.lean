import Mathlib.Logic.Relation
import Mathlib.Data.List.Basic
import DeclTree.Session.Parallel

/-!
# Classification in any order

What is found in a unit depends on the unit and the classifier alone, so the calls of a batch get in
each other's way only where they register and record.  `Batch.Progress` says what the shared session
holds at any time: the test cases that some call has found, and the diagnostics of the calls that
have ended, in some order.  Each step keeps it, `Progress.step`, so every run ends with the registry
and, up to order, the diagnostics of the classification of one unit after the other:
`Batch.run_agrees`.
-/

namespace DeclTree

open TestCase
open scoped List

/-! ## Identities in order -/

namespace TypeIdentity

lemma le_iff {a b : TypeIdentity} : a.le b = true ↔ a.qualified ≤ b.qualified := decide_eq_true_iff

lemma le_trans (a b c : TypeIdentity) (hab : a.le b = true) (hbc : b.le c = true) :
    a.le c = true :=
  le_iff.mpr (String.le_trans (le_iff.mp hab) (le_iff.mp hbc))

lemma le_total (a b : TypeIdentity) : (a.le b || b.le a) = true := by
  rw [Bool.or_eq_true, le_iff, le_iff]
  exact String.le_total _ _

lemma le_antisymm {a b : TypeIdentity} (hab : a.le b = true) (hba : b.le a = true) : a = b := by
  cases a
  cases b
  exact congrArg mk (String.le_antisymm (le_iff.mp hab) (le_iff.mp hba))

/-- Sorting leaves no trace of the order that a list had. -/
lemma sort_congr {ts us : List TypeIdentity} (h : ts ~ us) : sort ts = sort us :=
  List.Perm.eq_of_pairwise (fun _ _ _ _ => le_antisymm)
    (List.pairwise_mergeSort le_trans le_total ts) (List.pairwise_mergeSort le_trans le_total us)
    ((List.mergeSort_perm ts le).trans (h.trans (List.mergeSort_perm us le).symm))

end TypeIdentity

/-! ## Reports and registries -/

namespace TestCase

namespace Report

@[simp] lemma append_empty (r : Report) : r.append empty = r := by
  simp [append, empty]

lemma append_assoc (r s t : Report) : (r.append s).append t = r.append (s.append t) := by
  simp [append]

@[simp] lemma concat_nil : concat [] = empty := rfl

@[simp] lemma concat_cons (r : Report) (rs : List Report) :
    concat (r :: rs) = r.append (concat rs) := rfl

lemma registered_concat (rs : List Report) :
    (concat rs).registered = rs.flatMap Report.registered := by
  induction rs with
  | nil => rfl
  | cons r rs ih => rw [concat_cons, append, ih, List.flatMap_cons]

lemma diagnostics_concat (rs : List Report) :
    (concat rs).diagnostics = rs.flatMap Report.diagnostics := by
  induction rs with
  | nil => rfl
  | cons r rs ih => rw [concat_cons, append, ih, List.flatMap_cons]

end Report

namespace Registry

lemma registerAll_append (r : Registry) (ts us : List TypeIdentity) :
    r.registerAll (ts ++ us) = (r.registerAll ts).registerAll us :=
  List.foldl_append

lemma isRegistered_registerAll {r : Registry} {ts : List TypeIdentity} {t : TypeIdentity} :
    (r.registerAll ts).isRegistered t = true ↔ r.isRegistered t = true ∨ t ∈ ts := by
  induction ts generalizing r with
  | nil => simp [registerAll]
  | cons u ts ih =>
    have hcons : r.registerAll (u :: ts) = (r.register u).2.registerAll ts := rfl
    have hregister : (r.register u).2.isRegistered t = true ↔ u = t ∨ r.isRegistered t = true := by
      simp [register, isRegistered]
    rw [hcons, ih, hregister, List.mem_cons, eq_comm, or_assoc, or_left_comm]

lemma equiv_members {r r' : Registry} (h : ∀ t, r.isRegistered t = r'.isRegistered t) :
    r.members.Equiv r'.members := by
  refine Std.HashSet.Equiv.of_forall_mem_iff fun t => ?_
  rw [← Std.HashSet.contains_iff_mem, ← Std.HashSet.contains_iff_mem]
  exact Bool.eq_iff_iff.mp (h t)

/-- Listing leaves no trace of the order in which types were registered. -/
lemma identities_congr {r r' : Registry} (h : ∀ t, r.isRegistered t = r'.isRegistered t) :
    r.identities = r'.identities :=
  TypeIdentity.sort_congr (equiv_members h).toList_perm

end Registry

end TestCase

namespace Session

variable {classifier : Classifier} {s s' : Session} {units : List CompilationUnit} {b b' : Batch}

/-! ## One call -/

namespace Call

variable {call call' : Call}

/-- What the call will have found when it ends. -/
def outcome (classifier : Classifier) (call : Call) : Report :=
  call.report.append (.concat (call.waiting.map (reportType call.unit classifier)))

/-- What the call has recorded. -/
def recorded (call : Call) : List Diagnostic :=
  if call.ended then call.report.diagnostics else []

/-- A step looks at the next type or, behind the last one, records. -/
lemma next?_cases (h : call.next? classifier s = some (s', call')) :
    (∃ id rest, call.waiting = id :: rest ∧
      s' = { s with
        testCases := s.testCases.registerAll (reportType call.unit classifier id).registered } ∧
      call' = { call with
        waiting := rest, report := call.report.append (reportType call.unit classifier id) }) ∨
    (call.waiting = [] ∧ call.ended = false ∧
      s' = { s with diagnostics := s.diagnostics ++ call.report.diagnostics } ∧
      call' = { call with ended := true }) := by
  unfold next? at h
  split at h
  · next id rest hwaiting =>
    cases h
    exact .inl ⟨id, rest, hwaiting, rfl, rfl⟩
  · next hwaiting hended =>
    cases h
    exact .inr ⟨hwaiting, hended, rfl, rfl⟩
  · cases h

/-- What a step adds to the session is what it adds to the call. -/
structure Adds (classifier : Classifier) (s : Session) (call : Call) (s' : Session) (call' : Call) :
    Prop where
  /-- What will have been found is settled. -/
  outcome : call'.outcome classifier = call.outcome classifier
  /-- A call that has ended has looked at everything. -/
  through : call'.ended = true → call'.waiting = []
  /-- The test cases found. -/
  registered : ∃ found, call'.report.registered = call.report.registered ++ found ∧
    ∀ t, s'.testCases.isRegistered t = true ↔ s.testCases.isRegistered t = true ∨ t ∈ found
  /-- The diagnostics recorded. -/
  diagnostics : ∃ added, call'.recorded = call.recorded ++ added ∧
    s'.diagnostics = s.diagnostics ++ added
  /-- The rest of the session is as before. -/
  untouched : s'.options = s.options ∧ s'.literals = s.literals ∧ s'.escaper = s.escaper

lemma adds_next? (hthrough : call.ended = true → call.waiting = [])
    (h : call.next? classifier s = some (s', call')) : Adds classifier s call s' call' := by
  rcases next?_cases h with ⟨id, rest, hwaiting, rfl, rfl⟩ | ⟨hwaiting, hended, rfl, rfl⟩
  · -- a call that has ended has no type left to look at
    have hended : call.ended = false := by
      by_contra htrue
      rw [hthrough (by simpa using htrue)] at hwaiting
      cases hwaiting
    refine ⟨?_, fun htrue => ?_, ⟨_, rfl, fun t => Registry.isRegistered_registerAll⟩, ⟨[], ?_, ?_⟩,
      rfl, rfl, rfl⟩
    · simp only [outcome, hwaiting, List.map_cons, Report.concat_cons, Report.append_assoc]
    · exact absurd (hended.symm.trans htrue) Bool.false_ne_true
    · simp [recorded, hended]
    · exact (List.append_nil _).symm
  · refine ⟨rfl, fun _ => hwaiting, ⟨[], (List.append_nil _).symm, by simp⟩, ⟨_, ?_, rfl⟩,
      rfl, rfl, rfl⟩
    simp [recorded, hended]

end Call

/-! ## Batches under way -/

namespace Batch

/-- Any number of steps. -/
abbrev Runs (classifier : Classifier) : Batch → Batch → Prop :=
  Relation.ReflTransGen (Step classifier)

/-- Where a batch is that was started with the session `s` for `units`. -/
structure Progress (classifier : Classifier) (s : Session) (units : List CompilationUnit)
    (b : Batch) : Prop where
  /-- Each call will find what there is in its unit. -/
  outcomes : b.calls.map (Call.outcome classifier) = units.map (reportUnit · classifier)
  /-- A call that has ended has looked at everything. -/
  through : ∀ call ∈ b.calls, call.ended = true → call.waiting = []
  /-- What has been found is registered, and nothing else. -/
  registered : ∀ t, b.session.testCases.isRegistered t = true ↔
    s.testCases.isRegistered t = true ∨ t ∈ b.merged.registered
  /-- What has been recorded are the diagnostics of the calls that have ended. -/
  diagnostics : ∃ recorded, b.session.diagnostics = s.diagnostics ++ recorded ∧
    recorded.Perm (b.calls.flatMap Call.recorded)
  /-- The rest of the session is as before. -/
  untouched : b.session.options = s.options ∧ b.session.literals = s.literals ∧
    b.session.escaper = s.escaper

lemma progress_start (classifier : Classifier) (s : Session) (units : List CompilationUnit) :
    Progress classifier s units (start s units) where
  outcomes := by
    rw [start, List.map_map]
    rfl
  through := by
    intro call hcall hended
    obtain ⟨u, -, rfl⟩ := List.mem_map.mp hcall
    cases hended
  registered t := by
    simp [start, merged, Call.start, Report.registered_concat, Report.empty]
  diagnostics := by
    refine ⟨[], (List.append_nil _).symm, ?_⟩
    have hnone : (units.map Call.start).flatMap Call.recorded = [] := by
      simp [Call.recorded, Call.start]
    rw [start, hnone]
  untouched := ⟨rfl, rfl, rfl⟩

/-- **A step of any of the calls keeps the session in step with what the calls have found.** -/
lemma Progress.step (h : Progress classifier s units b) (hstep : Step classifier b b') :
    Progress classifier s units b' := by
  obtain @⟨shared, shared', call, call', before, after, hnext⟩ := hstep
  have hadds : Call.Adds classifier shared call shared' call' :=
    Call.adds_next? (h.through call (by simp)) hnext
  obtain ⟨found, hreport, hfound⟩ := hadds.registered
  obtain ⟨added, hcall, hadded⟩ := hadds.diagnostics
  obtain ⟨recorded, hrecorded, hperm⟩ := h.diagnostics
  obtain ⟨hoptions, hliterals, hescaper⟩ := h.untouched
  obtain ⟨hoptions', hliterals', hescaper'⟩ := hadds.untouched
  refine ⟨?_, ?_, fun t => ?_, ⟨recorded ++ added, ?_, ?_⟩,
    hoptions'.trans hoptions, hliterals'.trans hliterals, hescaper'.trans hescaper⟩
  · have houtcomes := h.outcomes
    rwa [List.map_append, List.map_cons, ← hadds.outcome, ← List.map_cons, ← List.map_append]
      at houtcomes
  · intro c hc
    rw [List.mem_append, List.mem_cons] at hc
    rcases hc with hc | rfl | hc
    · exact h.through c (by simp [hc])
    · exact hadds.through
    · exact h.through c (by simp [hc])
  · have hregistered := h.registered t
    simp only [merged, Report.registered_concat, List.map_append, List.map_cons,
      List.flatMap_append, List.flatMap_cons, List.mem_append] at hregistered ⊢
    rw [hfound, hregistered, hreport, List.mem_append]
    simp only [or_assoc, or_left_comm, or_comm]
  · rw [hadded, hrecorded, List.append_assoc]
  · rw [List.flatMap_append, List.flatMap_cons] at hperm
    rw [List.flatMap_append, List.flatMap_cons, hcall]
    calc recorded ++ added
        ~ before.flatMap Call.recorded ++ (call.recorded ++ after.flatMap Call.recorded) ++ added :=
          hperm.append_right added
      _ ~ before.flatMap Call.recorded ++
            (call.recorded ++ added ++ after.flatMap Call.recorded) := by
          rw [List.append_assoc]
          refine List.Perm.append_left _ ?_
          rw [List.append_assoc, List.append_assoc]
          exact List.Perm.append_left _ List.perm_append_comm

/-- **So does every run, in whatever order the calls make their steps.** -/
lemma Progress.run (h : Progress classifier s units b) (hrun : Runs classifier b b') :
    Progress classifier s units b' := by
  induction hrun with
  | refl => exact h
  | tail _ hstep ih => exact ih.step hstep

/-! ## Whole calls -/

/-- A call after its last step. -/
def finished (u : CompilationUnit) (report : Report) : Call := ⟨u, [], report, true⟩

/-- The rest of a call, while all others wait. -/
lemma runs_rest (classifier : Classifier) (s : Session) (before after : List Call)
    (u : CompilationUnit) (waiting : List NodeId) (report : Report) :
    Runs classifier ⟨s, before ++ ⟨u, waiting, report, false⟩ :: after⟩
      ⟨{ s with
          testCases := s.testCases.registerAll
            (Report.concat (waiting.map (reportType u classifier))).registered
          diagnostics := s.diagnostics ++
            (report.append (.concat (waiting.map (reportType u classifier)))).diagnostics },
        before ++ finished u (report.append (.concat (waiting.map (reportType u classifier)))) ::
          after⟩ := by
  induction waiting generalizing s report with
  | nil =>
    rw [List.map_nil, Report.concat_nil, Report.append_empty]
    exact .single (.call before after rfl)
  | cons id waiting ih =>
    have hrest := ih
      { s with testCases := s.testCases.registerAll (reportType u classifier id).registered }
      (report.append (reportType u classifier id))
    rw [Report.append_assoc, ← Registry.registerAll_append] at hrest
    exact .head (.call before after rfl) hrest

/-- The steps of one call, while all others wait, are the classification of its unit. -/
lemma runs_classifyUnit (classifier : Classifier) (s : Session) (before after : List Call)
    (u : CompilationUnit) :
    Runs classifier ⟨s, before ++ Call.start u :: after⟩
      ⟨(s.classifyUnit u classifier).2,
        before ++ finished u (s.classifyUnit u classifier).1 :: after⟩ :=
  runs_rest classifier s before after u u.types .empty

/-- The calls one after the other are the classification of the units in their order. -/
lemma runs_classifyUnits (classifier : Classifier) (s : Session) (before : List Call)
    (units : List CompilationUnit) :
    Runs classifier ⟨s, before ++ units.map Call.start⟩
      ⟨(s.classifyUnits classifier units).2,
        before ++ units.map fun u => finished u (reportUnit u classifier)⟩ := by
  induction units generalizing s before with
  | nil => exact .refl
  | cons u units ih =>
    have hfirst := runs_classifyUnit classifier s before (units.map Call.start) u
    have hrest := ih (s.classifyUnit u classifier).2
      (before ++ [finished u (reportUnit u classifier)])
    rw [List.append_assoc, List.append_assoc] at hrest
    exact hfirst.trans hrest

/-- Calls that wait can always go on to their end. -/
lemma exists_ended (s : Session) (before calls : List Call)
    (hbefore : ∀ call ∈ before, call.ended = true) :
    ∃ b, Runs classifier ⟨s, before ++ calls⟩ b ∧ b.Ended := by
  induction calls generalizing s before with
  | nil =>
    rw [List.append_nil]
    exact ⟨_, .refl, hbefore⟩
  | cons call calls ih =>
    obtain ⟨u, waiting, report, ended⟩ := call
    cases ended with
    | true =>
      have hbefore' : ∀ call ∈ before ++ [⟨u, waiting, report, true⟩], call.ended = true := by
        simpa [or_imp, forall_and] using hbefore
      obtain ⟨b, hrun, hended⟩ := ih s _ hbefore'
      rw [List.append_assoc] at hrun
      exact ⟨b, hrun, hended⟩
    | false =>
      have hfirst := runs_rest classifier s before calls u waiting report
      have hbefore' : ∀ call ∈ before ++
          [finished u (report.append (.concat (waiting.map (reportType u classifier))))],
          call.ended = true := by
        simpa [or_imp, forall_and, finished] using hbefore
      obtain ⟨b, hrun, hended⟩ := ih _ _ hbefore'
      rw [List.append_assoc] at hrun
      exact ⟨b, hfirst.trans hrun, hended⟩

/-! ## The end -/

/-- What one classification after the other finds, and in which order it records it. -/
lemma classifyUnits_fst (s : Session) (units : List CompilationUnit) :
    (s.classifyUnits classifier units).1 = .concat (units.map (reportUnit · classifier)) := by
  induction units generalizing s with
  | nil => rfl
  | cons u units ih =>
    have hcons : (s.classifyUnits classifier (u :: units)).1 =
        (reportUnit u classifier).append
          ((s.classifyUnit u classifier).2.classifyUnits classifier units).1 := rfl
    rw [hcons, ih, List.map_cons, Report.concat_cons]

lemma classifyUnits_diagnostics (s : Session) (units : List CompilationUnit) :
    (s.classifyUnits classifier units).2.diagnostics =
      s.diagnostics ++ (s.classifyUnits classifier units).1.diagnostics := by
  induction units generalizing s with
  | nil => exact (List.append_nil _).symm
  | cons u units ih =>
    have hrest := ih (s.classifyUnit u classifier).2
    rw [show (s.classifyUnit u classifier).2.diagnostics =
      s.diagnostics ++ (reportUnit u classifier).diagnostics from rfl, List.append_assoc] at hrest
    exact hrest

/-- At the end the reports of all units are there, in their order. -/
lemma Progress.merged_eq (h : Progress classifier s units b) (hended : b.Ended) :
    b.merged = .concat (units.map (reportUnit · classifier)) := by
  rw [merged, ← h.outcomes]
  refine congrArg _ (List.map_congr_left fun call hcall => ?_)
  rw [Call.outcome, h.through call hcall (hended call hcall), List.map_nil, Report.concat_nil,
    Report.append_empty]

/-- At the end all diagnostics are recorded. -/
lemma recorded_of_ended (hended : b.Ended) :
    b.calls.flatMap Call.recorded = b.merged.diagnostics := by
  rw [merged, Report.diagnostics_concat, List.flatMap_map]
  refine List.flatMap_congr fun call hcall => ?_
  rw [Call.recorded, if_pos (hended call hcall)]

/-- The batch has come to what the classification of one unit after the other comes to. -/
structure Agrees (classifier : Classifier) (s : Session) (units : List CompilationUnit)
    (b : Batch) : Prop where
  /-- The same reports are put together. -/
  merged : b.merged = (s.classifyUnits classifier units).1
  /-- They are the reports of the units taken alone, in whatever session. -/
  single : ∀ other : Session,
    b.merged = .concat (units.map fun u => (other.classifyUnit u classifier).1)
  /-- Registered is what was registered before and what has been reported. -/
  registered : ∀ t, b.session.testCases.isRegistered t = true ↔
    s.testCases.isRegistered t = true ∨ t ∈ b.merged.registered
  /-- The same types are registered. -/
  registry : ∀ t, b.session.testCases.isRegistered t =
    (s.classifyUnits classifier units).2.testCases.isRegistered t
  /-- The registries cannot be told apart by their listings. -/
  identities : b.session.testCases.identities =
    (s.classifyUnits classifier units).2.testCases.identities
  /-- Each diagnostic reported has been recorded once. -/
  diagnostics : ∃ recorded, b.session.diagnostics = s.diagnostics ++ recorded ∧
    recorded ~ b.merged.diagnostics

/-- The classification of one unit after the other, as a batch at its end. -/
def inOrder (classifier : Classifier) (s : Session) (units : List CompilationUnit) : Batch :=
  ⟨(s.classifyUnits classifier units).2, units.map fun u => finished u (reportUnit u classifier)⟩

lemma runs_inOrder (classifier : Classifier) (s : Session) (units : List CompilationUnit) :
    Runs classifier (start s units) (inOrder classifier s units) :=
  runs_classifyUnits classifier s [] units

lemma ended_inOrder (classifier : Classifier) (s : Session) (units : List CompilationUnit) :
    (inOrder classifier s units).Ended := by
  intro call hcall
  obtain ⟨u, -, rfl⟩ := List.mem_map.mp hcall
  rfl

lemma agrees_of_runs (hrun : Runs classifier (start s units) b) (hended : b.Ended) :
    Agrees classifier s units b := by
  have hprogress := (progress_start classifier s units).run hrun
  have hprogress' := (progress_start classifier s units).run (runs_inOrder classifier s units)
  have hmerged := hprogress.merged_eq hended
  have hmerged' := hprogress'.merged_eq (ended_inOrder classifier s units)
  have hregistry : ∀ t, b.session.testCases.isRegistered t =
      (s.classifyUnits classifier units).2.testCases.isRegistered t := by
    intro t
    rw [Bool.eq_iff_iff, hprogress.registered, hmerged, ← hmerged', ← hprogress'.registered]
    rfl
  exact {
    merged := by rw [hmerged, classifyUnits_fst]
    single := fun _ => hmerged
    registered := hprogress.registered
    registry := hregistry
    identities := Registry.identities_congr hregistry
    diagnostics := by
      obtain ⟨recorded, hrecorded, hperm⟩ := hprogress.diagnostics
      rw [recorded_of_ended hended] at hperm
      exact ⟨recorded, hrecorded, hperm⟩ }

/-- **Classification in parallel agrees with classification of one unit after the other, in whatever
order the calls make their steps.**  A batch can always go on to its end, and one way to get there
is the order of the units, in which the diagnostics are recorded as they are reported. -/
theorem run_agrees (hrun : Runs classifier (start s units) b) :
    (b.Ended → Agrees classifier s units b) ∧
    (∃ b', Runs classifier b b' ∧ b'.Ended) ∧
    (∃ b', Runs classifier (start s units) b' ∧ b'.Ended ∧
      b'.session = (s.classifyUnits classifier units).2) ∧
    (s.classifyUnits classifier units).2.diagnostics =
      s.diagnostics ++ (s.classifyUnits classifier units).1.diagnostics :=
  ⟨agrees_of_runs hrun, exists_ended b.session [] b.calls nofun,
    ⟨_, runs_inOrder classifier s units, ended_inOrder classifier s units, rfl⟩,
    classifyUnits_diagnostics s units⟩

/-- The call for the second unit runs from its start to its end while the call for the first has yet
to record, so the diagnostics are recorded in the other order. -/
theorem run_agrees_of_overtaking :
    ∃ (classifier : Classifier) (s : Session) (u v : CompilationUnit) (b : Batch),
      Runs classifier (start s [u, v]) b ∧ b.Ended ∧
      b.session.diagnostics.map Diagnostic.file = ["B", "A"] ∧
      b.merged.diagnostics.map Diagnostic.file = ["A", "B"] ∧
      Agrees classifier s [u, v] b := by
  let classifier : Classifier := fun _ method => .error (.testName method.name)
  let tree : Store := ⟨#[⟨.compilationUnit ⟨none, [], [], [⟨1⟩]⟩, .dummy, none⟩,
    ⟨.type ⟨.classForm, "T", ⟨"T"⟩, [⟨2⟩]⟩, .dummy, some ⟨⟨0⟩, .types⟩⟩,
    ⟨.method ⟨"run", [], false⟩, .dummy, some ⟨⟨1⟩, .members⟩⟩], by decide⟩
  let u : CompilationUnit := ⟨"A", "T", "", .build "", tree, .none, none⟩
  let v : CompilationUnit := ⟨"B", "T", "", .build "", tree, .none, none⟩
  let s : Session := .create .default .cpp
  let waits : Call := ⟨u, [], reportUnit u classifier, false⟩
  let through : Call := finished v (reportUnit v classifier)
  have hlook : Step classifier (start s [u, v]) ⟨s, [waits, Call.start v]⟩ :=
    .call [] [Call.start v] rfl
  have hovertake : Runs classifier ⟨s, [waits, Call.start v]⟩
      ⟨(s.classifyUnit v classifier).2, [waits, through]⟩ :=
    runs_classifyUnit classifier s [waits] [] v
  have hrecord : Step classifier ⟨(s.classifyUnit v classifier).2, [waits, through]⟩
      ⟨_, [finished u (reportUnit u classifier), through]⟩ := .call [] [through] rfl
  have hrun := (hovertake.head hlook).tail hrecord
  have hended : ∀ call ∈ [finished u (reportUnit u classifier), through], call.ended = true := by
    simp [through, finished]
  exact ⟨classifier, s, u, v, _, hrun, hended, rfl, rfl, (run_agrees hrun).1 hended⟩

end Batch

end Session

end DeclTree
