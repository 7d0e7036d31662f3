import Std.Data.HashSet
import DeclTree.TestCase.Naming

/-!
# The registry of test cases

The registry collects the identities of the types that are test cases, over all units.  A type
that breaks the naming rules is left out and reported; the types after it are classified all
the same.
-/

namespace DeclTree.TestCase

/-- A type that breaks the naming rules. -/
structure Diagnostic where
  /-- The path of the unit that declares the type. -/
  file : String
  /-- The type. -/
  identity : TypeIdentity
  /-- Where the type is declared. -/
  span : Span
  /-- The first rule that one of its methods breaks. -/
  error : NamingError
deriving DecidableEq

namespace Diagnostic

/-- What the user reads. -/
def display (d : Diagnostic) : String :=
  s!"testcase conversion error in {d.file} ({d.identity}): {d.error.message}"

/-- What the user is reminded of. -/
def notes (_ : Diagnostic) : List String := namingRules

end Diagnostic

/-- What comes of classifying units. -/
structure Report where
  /-- The test cases found, in order of declaration. -/
  registered : List TypeIdentity
  /-- The types left out, in order of declaration. -/
  diagnostics : List Diagnostic
deriving DecidableEq

namespace Report

/-- Nothing was found. -/
def empty : Report := ⟨[], []⟩

/-- One report after another. -/
def append (r s : Report) : Report :=
  ⟨r.registered ++ s.registered, r.diagnostics ++ s.diagnostics⟩

/-- Several reports in a row. -/
def concat (reports : List Report) : Report := reports.foldr append empty

end Report

/-- The methods among the members of a type, in order. -/
def methodsOf (u : CompilationUnit) (decl : TypeDecl) : List MethodDecl :=
  decl.members.filterMap fun member => (u.tree.payload? member).bind Payload.method?

/-- Whether one of the methods is a test; stops at the first method that breaks a rule. -/
def anyTest (classify : MethodDecl → Except NamingError Bool) :
    List MethodDecl → Except NamingError Bool
  | [] => .ok false
  | method :: rest => do
    let isTest ← classify method
    let later ← anyTest classify rest
    return isTest || later

/-- Whether a type is a test case. -/
def isTestCase (u : CompilationUnit) (classifier : Classifier) (decl : TypeDecl) :
    Except NamingError Bool :=
  anyTest (classifier u) (methodsOf u decl)

/-- What comes of classifying one child of the root of a unit. -/
def reportType (u : CompilationUnit) (classifier : Classifier) (id : NodeId) : Report :=
  match (u.tree.payload? id).bind Payload.type? with
  | none => .empty
  | some decl =>
    match isTestCase u classifier decl with
    | .ok true => ⟨[decl.identity], []⟩
    | .ok false => .empty
    | .error error =>
      ⟨[], [⟨u.path, decl.identity, (u.tree.span? id).getD .dummy, error⟩]⟩

/-- What comes of classifying the top-level types of a unit. -/
def reportUnit (u : CompilationUnit) (classifier : Classifier) : Report :=
  Report.concat (u.types.map (reportType u classifier))

/-- The types known to be test cases. -/
structure Registry where
  /-- The registered identities. -/
  members : Std.HashSet TypeIdentity

namespace Registry

/-- No type is registered. -/
def empty : Registry := ⟨∅⟩

/-- Whether a type is registered. -/
def isRegistered (r : Registry) (t : TypeIdentity) : Bool := r.members.contains t

/-- Registers a type and answers whether it was new. -/
def register (r : Registry) (t : TypeIdentity) : Bool × Registry :=
  (!r.isRegistered t, ⟨r.members.insert t⟩)

/-- Registers several types. -/
def registerAll (r : Registry) (ts : List TypeIdentity) : Registry :=
  ts.foldl (fun r t => (r.register t).2) r

/-- The number of registered types. -/
def size (r : Registry) : Nat := r.members.size

/-- Whether no type is registered. -/
def isEmpty (r : Registry) : Bool := r.members.isEmpty

/-- The registered types in ascending order. -/
def identities (r : Registry) : List TypeIdentity := TypeIdentity.sort r.members.toList

/-- Classifies the top-level types of a unit and registers the test cases among them. -/
def classifyUnit (r : Registry) (u : CompilationUnit) (classifier : Classifier) :
    Report × Registry :=
  let report := reportUnit u classifier
  (report, r.registerAll report.registered)

end Registry

end DeclTree.TestCase
