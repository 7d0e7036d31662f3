import DeclTree.Store.Edit
import DeclTree.CompilationUnit.Basic

/-!
# Scripts of passes

What a pass does at a node is a script: a series of steps that look at the unit, change it, or
walk on from some node, each step chosen on what the steps before it answered.  A script is
data, so what a pass does can be restricted to some edits, and the effect of all passes at once
can be reasoned about.

`S` in the types below is the state that a pass carries along.  A step that walks hands the
state over to the walk and gets the state after it.
-/

namespace DeclTree

/-- The changes to a unit. -/
inductive UnitEdit
  /-- An edit of the tree. -/
  | tree (edit : Edit)
  /-- Writes a payload past all checks, see `Store.overwrite`. -/
  | overwrite (id : NodeId) (payload : Payload)
  /-- Raises a flag. -/
  | raise (flag : Flag)
  /-- Resolves imports. -/
  | resolveImports (imports : List String) (canImport : String → Bool)

/-- Whether a change is one that clients may make: all but writing past the checks. -/
def UnitEdit.Public : UnitEdit → Prop
  | overwrite _ _ => False
  | _ => True

/-- Carries out a change.  No answer means that a copy descends without end. -/
def UnitEdit.apply : UnitEdit → CompilationUnit →
    Option (Except TreeError Answer × CompilationUnit)
  | tree edit, u => (edit.apply u.tree).map fun reply => (reply.1, u.withTree reply.2)
  | overwrite id payload, u =>
    let reply := u.tree.overwrite id payload
    some (reply.1.map fun () => .done, u.withTree reply.2)
  | raise flag, u => some (.ok .done, u.raise flag)
  | resolveImports imports canImport, u => some (.ok .done, u.resolveImports imports canImport)

/-- What a pass does at a node, with a result at the end. -/
inductive Script (S R : Type)
  /-- Ends with a result. -/
  | done (result : R)
  /-- Looks at the unit. -/
  | inspect (next : CompilationUnit → Script S R)
  /-- Changes the unit. -/
  | edit (change : UnitEdit) (next : Except TreeError Answer → Script S R)
  /-- Walks on from a node with the pass that the script belongs to. -/
  | walk (id : NodeId) (state : S) (next : S → Script S R)

namespace Script

variable {S R : Type}

/-- Runs a script on a unit; `walk` is what a step that walks does. -/
def run (walk : NodeId → S → CompilationUnit → Option (S × CompilationUnit)) :
    Script S R → CompilationUnit → Option (R × CompilationUnit)
  | done result, u => some (result, u)
  | inspect next, u => (next u).run walk u
  | edit change next, u =>
    match change.apply u with
    | none => none
    | some (answer, after) => (next answer).run walk after
  | .walk id state next, u =>
    match walk id state u with
    | none => none
    | some (state', after) => (next state').run walk after

/-- Every change that the script may make satisfies `P`, whatever the steps answer. -/
inductive Only (P : UnitEdit → Prop) : Script S R → Prop
  | done (result : R) : Only P (done result)
  | inspect {next : CompilationUnit → Script S R} (h : ∀ u, Only P (next u)) :
    Only P (inspect next)
  | edit {change : UnitEdit} {next : Except TreeError Answer → Script S R}
    (allowed : P change) (h : ∀ answer, Only P (next answer)) : Only P (edit change next)
  | walk {id : NodeId} {state : S} {next : S → Script S R} (h : ∀ after, Only P (next after)) :
    Only P (walk id state next)

/-- The script never walks on by itself. -/
inductive Walkless : Script S R → Prop
  | done (result : R) : Walkless (done result)
  | inspect {next : CompilationUnit → Script S R} (h : ∀ u, Walkless (next u)) :
    Walkless (inspect next)
  | edit {change : UnitEdit} {next : Except TreeError Answer → Script S R}
    (h : ∀ answer, Walkless (next answer)) : Walkless (edit change next)

end Script

end DeclTree
