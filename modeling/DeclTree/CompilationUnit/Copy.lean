import DeclTree.Store.Copy
import DeclTree.CompilationUnit.Basic

/-!
# Copies of units

A copy of a unit has a tree of its own.  Path, main type name, source, flags and imports are
taken over; the children of the root are copied, slot by slot, under a new root.  Nodes that
cannot be reached from the root are not carried over.
-/

namespace DeclTree.CompilationUnit

/-- Copies the given slots of the root of `source` into a tree. -/
def copySlots (source : Store) : List Slot → Store → Option (Reply Unit)
  | [], tree => some (.ok (), tree)
  | slot :: rest, tree =>
    match source.slotChildren root slot with
    | .error e => some (.error e, tree)
    | .ok children =>
      match tree.copyFrom root slot source children with
      | none => none
      | some (.error e, after) => some (.error e, after)
      | some (.ok (), after) => copySlots source rest after

/-- A copy of a unit, or why its tree cannot be copied.  No answer means that the tree descends
without end. -/
def copy (u : CompilationUnit) : Option (Except TreeError CompilationUnit) :=
  match copySlots u.tree Kind.compilationUnit.slots emptyTree with
  | none => none
  | some (.error e, _) => some (.error e)
  | some (.ok (), tree) => some (.ok (u.withTree tree))

end DeclTree.CompilationUnit
