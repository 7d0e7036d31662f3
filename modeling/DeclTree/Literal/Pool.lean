import Std.Data.HashMap
import DeclTree.Text.Offset

/-!
# Literal pools

Every source file has a pool of its own for the literals that occur in it.  The first distinct
literal of a file gets the number 1, the next distinct one the number 2, and so on; a literal
that occurs again gets the number that it has.  Pools only grow.

Interning is a lookup and, when that finds nothing, an insertion that looks again.  The two are
separate operations, so clients that share a pool may interleave them.
-/

namespace DeclTree.Literal

/-- The number of a literal in the pool of its file. -/
structure LiteralId where
  /-- The number, from 1. -/
  raw : UInt32
deriving DecidableEq

namespace LiteralId

/-- The number of the first literal. -/
def first : LiteralId := ⟨1⟩

/-- The number of the literal at an index of the pool. -/
def ofIndex (index : Nat) : LiteralId := ⟨Text.Offset.clamp (index + 1)⟩

/-- The number as it stands in generated code. -/
def display (id : LiteralId) : String := toString id.raw.toNat

/-- The written form that names the sort of value. -/
def text (id : LiteralId) : String := "LiteralId(" ++ id.display ++ ")"

end LiteralId

/-- The literals of one file. -/
structure FilePool where
  /-- The number of each literal. -/
  ids : Std.HashMap String LiteralId
  /-- The literals in the order of their numbers. -/
  texts : Array String

namespace FilePool

/-- The pool without literals. -/
def empty : FilePool := ⟨∅, #[]⟩

/-- The number of a literal, which is entered if it is missing. -/
def insert (pool : FilePool) (text : String) : LiteralId × FilePool :=
  match pool.ids[text]? with
  | some id => (id, pool)
  | none =>
    let id := LiteralId.ofIndex pool.texts.size
    (id, ⟨pool.ids.insert text id, pool.texts.push text⟩)

end FilePool

/-- The pools of all files. -/
structure LiteralPool where
  /-- The pool of each file that has a literal. -/
  files : Std.HashMap String FilePool

namespace LiteralPool

/-- No file has a literal yet. -/
def empty : LiteralPool := ⟨∅⟩

/-- The number of a literal of a file, if it has one. -/
def lookup (pool : LiteralPool) (file text : String) : Option LiteralId :=
  pool.files[file]?.bind fun own => own.ids[text]?

/-- Enters a literal of a file if it is missing, and answers with its number. -/
def insertIfAbsent (pool : LiteralPool) (file text : String) : LiteralId × LiteralPool :=
  let (id, own) := (pool.files[file]?.getD .empty).insert text
  (id, ⟨pool.files.insert file own⟩)

/-- The number of a literal of a file, which is entered if it is missing. -/
def intern (pool : LiteralPool) (file text : String) : LiteralId × LiteralPool :=
  match pool.lookup file text with
  | some id => (id, pool)
  | none => pool.insertIfAbsent file text

/-- The literals of a file in the order of their numbers; nothing if it has none. -/
def literals (pool : LiteralPool) (file : String) : Option (List String) :=
  pool.files[file]?.map fun own => own.texts.toList

/-- The number of literals of a file. -/
def count (pool : LiteralPool) (file : String) : Nat :=
  match pool.files[file]? with
  | some own => own.texts.size
  | none => 0

/-- The number of files with a literal. -/
def fileCount (pool : LiteralPool) : Nat := pool.files.size

/-- Whether no file has a literal. -/
def isEmpty (pool : LiteralPool) : Bool := pool.files.isEmpty

/-- The written form of the pools. -/
def text (pool : LiteralPool) : String :=
  "LiteralPool \x7b files: " ++ toString pool.fileCount ++ " \x7d"

end LiteralPool

end DeclTree.Literal
