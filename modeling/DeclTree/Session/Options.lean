import DeclTree.Text.Blank

/-!
# Options of a session

The options have defaults, and an environment variable may override them.
-/

namespace DeclTree

/-- The options of a session. -/
structure SessionOptions where
  /-- Whether a unit is validated after every pass. -/
  validateAfterPass : Bool
deriving DecidableEq

namespace SessionOptions

/-- The options that hold unless something else is said: units are validated. -/
def default : SessionOptions := ⟨true⟩

/-- The environment variable that overrides the options. -/
def variableName : String := "XLT_VALIDATE"

/-- The options under a value of the variable.  Blanks around the value do not count; a value
that is neither a yes nor a no leaves the defaults. -/
def ofValue (value : Option String) : SessionOptions :=
  match value.map Text.trimBlanks with
  | some "1" => ⟨true⟩
  | some "true" => ⟨true⟩
  | some "0" => ⟨false⟩
  | some "false" => ⟨false⟩
  | _ => default

/-- The written form of the options. -/
def text (options : SessionOptions) : String :=
  "SessionOptions \x7b validate_after_pass: " ++
    (if options.validateAfterPass then "true" else "false") ++ " \x7d"

end SessionOptions

end DeclTree
