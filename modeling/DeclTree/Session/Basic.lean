import DeclTree.Literal.Constant
import DeclTree.Session.Options
import DeclTree.TestCase.Registry
import DeclTree.CompilationUnit.Walk

/-!
# Sessions

A session holds what is shared by all units of one run and outlives each of them: the literal
pools of the files, the registry of test cases and the diagnostics of classification.
-/

namespace DeclTree

/-- The state that all units of a run share. -/
structure Session where
  /-- The options of the run. -/
  options : SessionOptions
  /-- The literals of each file. -/
  literals : Literal.LiteralPool
  /-- The test cases found so far. -/
  testCases : TestCase.Registry
  /-- The diagnostics of classification so far, in the order in which they arose. -/
  diagnostics : List TestCase.Diagnostic
  /-- How literals are written. -/
  escaper : Literal.Escaper

namespace Session

/-- A session at its beginning. -/
def create (options : SessionOptions) (escaper : Literal.Escaper) : Session where
  options := options
  literals := .empty
  testCases := .empty
  diagnostics := []
  escaper := escaper

/-- The constant for a text in a unit, interned for the file of the unit. -/
def stringConstant (s : Session) (u : CompilationUnit) (text : String) :
    Literal.Constant × Session :=
  let (constant, literals) := s.literals.constant s.escaper u.path text
  (constant, { s with literals := literals })

/-- Validates a unit after a pass, if the options want that. -/
def validateAfter (s : Session) (u : CompilationUnit) : Except ValidationError Unit :=
  if s.options.validateAfterPass then u.validate else .ok ()

/-- Runs a pass over a unit and validates the unit if the options want that. -/
def runPass {S : Type} (s : Session) (u : CompilationUnit) (v : Visitor S) (depth : Nat)
    (state : S) : Option (Except ValidationError Unit × S × CompilationUnit) :=
  match u.accept v depth state with
  | none => none
  | some (after, walked) => some (s.validateAfter walked, after, walked)

/-- Classifies a unit, and keeps the test cases and diagnostics found. -/
def classifyUnit (s : Session) (u : CompilationUnit) (classifier : TestCase.Classifier) :
    TestCase.Report × Session :=
  let (report, testCases) := s.testCases.classifyUnit u classifier
  (report, { s with testCases := testCases, diagnostics := s.diagnostics ++ report.diagnostics })

/-- Classifies several units one after the other and answers with their reports in a row. -/
def classifyUnits (s : Session) (classifier : TestCase.Classifier) :
    List CompilationUnit → TestCase.Report × Session
  | [] => (.empty, s)
  | u :: rest =>
    let (report, after) := s.classifyUnit u classifier
    let (reports, last) := after.classifyUnits classifier rest
    (report.append reports, last)

/-- The written form of a session. -/
def text (s : Session) : String :=
  "TranslationSession \x7b options: " ++ s.options.text ++ ", literals: " ++ s.literals.text ++
    ", test_cases: " ++ toString s.testCases.size ++ ", .. \x7d"

end Session

end DeclTree
