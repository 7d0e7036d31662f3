import Std.Data.HashMap
import DeclTree.Text.Dotted

/-!
# Imports that generated code cannot reference

An oracle says of a qualified class name whether generated code can reference the class
directly.  The imports of a unit that it rejects are recorded under their simple names; of two
rejected imports with one simple name the later counts.  Imports on demand, such as `a.b.*`,
name no single class: the oracle is not asked about them.
-/

namespace DeclTree

/-- Rejected imports: the qualified name for each simple name. -/
abbrev ImportTable := Std.HashMap String String

/-- Whether an import names no single class. -/
def isOnDemand (imported : String) : Bool :=
  ['.', '*'].isSuffixOf imported.toList

/-- The imports that the oracle is asked about, in order. -/
def askedImports (imports : List String) : List String :=
  imports.filter fun imported => !isOnDemand imported

/-- The imports that the oracle rejects. -/
def unreachableImports (imports : List String) (canImport : String → Bool) : ImportTable :=
  (askedImports imports).foldl
    (fun table imported =>
      if canImport imported then table else table.insert (Text.lastSegment imported) imported)
    ∅

end DeclTree
