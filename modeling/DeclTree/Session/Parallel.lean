import DeclTree.Session.Basic

/-!
# Classification in parallel

Units may be classified on several threads that share one session.  There is one call for each unit.
It takes the top-level types of the unit one after the other and registers a test case as soon as it
has found it; when it is through, it records all its diagnostics at once and ends.  The steps of
different calls interleave in any order.  The reports are put together in the order of the units,
once all calls have ended.
-/

namespace DeclTree.Session

/-- The classification of one unit. -/
structure Call where
  /-- The unit. -/
  unit : CompilationUnit
  /-- The children of the root that have not been looked at, in order. -/
  waiting : List NodeId
  /-- What has been found so far. -/
  report : TestCase.Report
  /-- Whether the diagnostics have been recorded, which is the last step. -/
  ended : Bool

namespace Call

/-- The call for a unit before its first step. -/
def start (u : CompilationUnit) : Call := ⟨u, u.types, .empty, false⟩

/-- The next step of a call, and what it does to the session that all calls share. -/
def next? (classifier : TestCase.Classifier) (s : Session) (call : Call) :
    Option (Session × Call) :=
  match call.waiting, call.ended with
  | id :: rest, _ =>
    let found := TestCase.reportType call.unit classifier id
    some ({ s with testCases := s.testCases.registerAll found.registered },
      { call with waiting := rest, report := call.report.append found })
  | [], false =>
    some ({ s with diagnostics := s.diagnostics ++ call.report.diagnostics },
      { call with ended := true })
  | [], true => none

end Call

/-- The calls for several units, in the order of the units, and the session that they share. -/
structure Batch where
  /-- The session. -/
  session : Session
  /-- The calls. -/
  calls : List Call

namespace Batch

/-- The calls before any step. -/
def start (s : Session) (units : List CompilationUnit) : Batch := ⟨s, units.map Call.start⟩

/-- One of the calls makes its next step. -/
inductive Step (classifier : TestCase.Classifier) : Batch → Batch → Prop
  | call {s s' : Session} {call call' : Call} (before after : List Call)
    (h : call.next? classifier s = some (s', call')) :
    Step classifier ⟨s, before ++ call :: after⟩ ⟨s', before ++ call' :: after⟩

/-- All calls have ended. -/
def Ended (b : Batch) : Prop := ∀ call ∈ b.calls, call.ended = true

/-- The reports of the calls in a row. -/
def merged (b : Batch) : TestCase.Report := .concat (b.calls.map Call.report)

end Batch

end DeclTree.Session
