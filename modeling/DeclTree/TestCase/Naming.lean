import DeclTree.CompilationUnit.Basic

/-!
# Naming rules for test methods

A type is a test case when one of its methods is a test.  The generated test runner calls
methods by name, so a method that is annotated to play a part in a test has to be named for it:
a test starts with `test`, the method run before each test is `setUp` and the one run after it
is `tearDown`.
-/

namespace DeclTree.TestCase

/-- A method that the test runner could not call, by the name that it has. -/
inductive NamingError
  /-- An annotated test whose name does not start with `test`. -/
  | testName (method : String)
  /-- A method to run before each test that is not named `setUp`. -/
  | setUpName (method : String)
  /-- A method to run after each test that is not named `tearDown`. -/
  | tearDownName (method : String)
deriving DecidableEq

namespace NamingError

/-- The name of the method. -/
def method : NamingError → String
  | testName method => method
  | setUpName method => method
  | tearDownName method => method

/-- What the user reads. -/
def message : NamingError → String
  | testName method => s!"test method `{method}` must be named `test*`"
  | setUpName method => s!"method `{method}` annotated @Before must be named `setUp`"
  | tearDownName method => s!"method `{method}` annotated @After must be named `tearDown`"

end NamingError

/-- The naming rules, as the user is reminded of them. -/
def namingRules : List String :=
  [ "test method names must start with `test`",
    "the method annotated @Before must be named `setUp`",
    "the method annotated @After must be named `tearDown`" ]

/-- Decides whether a method of a unit makes its type a test case. -/
abbrev Classifier := CompilationUnit → MethodDecl → Except NamingError Bool

/-- Whether a method is named like a test. -/
def isNamedTest (method : MethodDecl) : Bool :=
  "test".toList.isPrefixOf method.name.toList

/-- The naming rules for one method.  An annotated test has to be named like one; without the
annotation every method that is named like a test is one, unless it is a constructor. -/
def classifyMethod (method : MethodDecl) : Except NamingError Bool :=
  if method.isAnnotated "Before" && method.name != "setUp" then
    .error (.setUpName method.name)
  else if method.isAnnotated "After" && method.name != "tearDown" then
    .error (.tearDownName method.name)
  else if method.isAnnotated "Test" then
    if isNamedTest method then .ok true else .error (.testName method.name)
  else .ok (!method.isConstructor && isNamedTest method)

/-- The classifier that follows the naming rules. -/
def byName : Classifier := fun _ method => classifyMethod method

end DeclTree.TestCase
