import DeclTree.CompilationUnit.Basic
import DeclTree.Proofs.Text.Segments

/-!
# What the resolution of imports asks and records

`unreachableImportsM` resolves imports with an oracle that may act when it is asked.  It asks about
the imports that name single classes and about nothing else, `unreachableImportsM_eq`; for an oracle
that keeps a list, this is `run_unreachableImportsM`.  The table is written import by import, so a
simple name leads to the last rejected import that has it, `getElem?_unreachableImports`.
-/

namespace DeclTree

/-! ## Oracles that act -/

section Oracle

variable {m : Type → Type} [Monad m]

/-- Goes through imports and asks an oracle that may act when it is asked. -/
def unreachableImportsM (ask : String → m Bool) (imports : List String) : m ImportTable :=
  imports.foldlM
    (fun table imported => do
      if isOnDemand imported then return table
      else if ← ask imported then return table
      else return table.insert (Text.lastSegment imported) imported)
    ∅

/-- Records which imports generated code cannot reference, with an oracle that may act. -/
def CompilationUnit.resolveImportsM (u : CompilationUnit) (imports : List String)
    (ask : String → m Bool) : m CompilationUnit := do
  let table ← unreachableImportsM ask imports
  return { u with imports := some table }

/-- An import on demand is passed over, and about each other one the oracle is asked once. -/
lemma unreachableImportsM_eq [LawfulMonad m] (ask : String → m Bool) (imports : List String) :
    unreachableImportsM ask imports =
      (askedImports imports).foldlM
        (fun table imported => do
          if ← ask imported then return table
          else return table.insert (Text.lastSegment imported) imported)
        ∅ := by
  rw [unreachableImportsM, askedImports, List.foldlM_filter]
  congr
  funext table imported
  cases isOnDemand imported <;> rfl

end Oracle

/-- Answers like a given oracle and keeps the list of what it was asked. -/
def listening (canImport : String → Bool) (imported : String) : StateM (List String) Bool := do
  modify (· ++ [imported])
  return canImport imported

variable {imports : List String} {canImport : String → Bool}

/-- **The oracle is asked about the imports that name single classes, in their order and as often as
they are there, and about nothing else.** -/
lemma run_unreachableImportsM (imports : List String) (canImport : String → Bool)
    (asked : List String) :
    (unreachableImportsM (listening canImport) imports).run asked =
      (unreachableImports imports canImport, asked ++ askedImports imports) := by
  rw [unreachableImportsM_eq, unreachableImports]
  generalize (∅ : ImportTable) = table
  induction askedImports imports generalizing table asked with
  | nil =>
    rw [List.append_nil]
    rfl
  | cons imported rest ih =>
    have hrest := ih (asked ++ [imported])
      (if canImport imported then table else table.insert (Text.lastSegment imported) imported)
    rw [List.append_assoc, List.singleton_append] at hrest
    rw [List.foldlM_cons, List.foldl_cons, ← hrest, StateT.run_bind]
    unfold listening
    cases canImport imported <;> rfl

lemma run_resolveImportsM (u : CompilationUnit) (imports : List String)
    (canImport : String → Bool) (asked : List String) :
    (u.resolveImportsM imports (listening canImport)).run asked =
      (u.resolveImports imports canImport, asked ++ askedImports imports) := by
  rw [CompilationUnit.resolveImportsM, StateT.run_bind, run_unreachableImportsM]
  rfl

/-- An import is on demand if it ends with a full stop and an asterisk. -/
lemma isOnDemand_iff {imported : String} :
    isOnDemand imported = true ↔ ∃ package, imported = package ++ ".*" := by
  have htail : ['.', '*'] = ".*".toList := by decide
  rw [isOnDemand, List.isSuffixOf_iff_suffix, htail, Text.toList_suffix_iff]

/-! ## The table -/

/-- The imports that the oracle rejects, in their order. -/
def rejectedImports (imports : List String) (canImport : String → Bool) : List String :=
  (askedImports imports).filter fun imported => !canImport imported

lemma unreachableImports_eq (imports : List String) (canImport : String → Bool) :
    unreachableImports imports canImport =
      (rejectedImports imports canImport).foldl
        (fun table imported => table.insert (Text.lastSegment imported) imported) ∅ := by
  rw [unreachableImports, rejectedImports, List.foldl_filter]
  congr
  funext table imported
  cases canImport imported <;> rfl

/-- What is written later counts. -/
lemma getElem?_foldl_insert (rejected : List String) (table : ImportTable) (simple : String) :
    (rejected.foldl (fun table imported => table.insert (Text.lastSegment imported) imported)
        table)[simple]? =
      (rejected.reverse.find? (Text.lastSegment · == simple)).or table[simple]? := by
  induction rejected generalizing table with
  | nil => rfl
  | cons imported rest ih =>
    rw [List.foldl_cons, ih, Std.HashMap.getElem?_insert, List.reverse_cons, List.find?_append,
      List.find?_singleton, Option.or_assoc]
    cases Text.lastSegment imported == simple <;> rfl

/-- The last element with a property is the one behind which no other has it. -/
lemma find?_reverse_eq_some_iff {α : Type} {p : α → Bool} {xs : List α} {x : α} :
    xs.reverse.find? p = some x ↔
      ∃ before after, xs = before ++ x :: after ∧ p x = true ∧ ∀ y ∈ after, p y = false := by
  rw [List.find?_eq_some_iff_append]
  constructor
  · rintro ⟨hx, later, earlier, hsplit, hlater⟩
    refine ⟨earlier.reverse, later.reverse, ?_, hx, fun y hy => ?_⟩
    · rw [← List.reverse_reverse xs, hsplit]
      simp
    · simpa using hlater y (List.mem_reverse.mp hy)
  · rintro ⟨before, after, rfl, hx, hafter⟩
    refine ⟨hx, after.reverse, before.reverse, by simp, fun y hy => ?_⟩
    rw [hafter y (List.mem_reverse.mp hy)]
    rfl

/-- **A simple name leads to the last rejected import that has it.** -/
lemma getElem?_unreachableImports (simple : String) :
    (unreachableImports imports canImport)[simple]? =
      (rejectedImports imports canImport).reverse.find? (Text.lastSegment · == simple) := by
  rw [unreachableImports_eq, getElem?_foldl_insert, Std.HashMap.getElem?_empty, Option.or_none]

example : (unreachableImports ["a.B", "b.*", "c.B", "c.B.", "d.B"] (· == "d.B"))["B"]? =
    some "c.B" := by
  rw [getElem?_unreachableImports]
  decide

lemma unreachableImports_eq_some_iff {simple name : String} :
    (unreachableImports imports canImport)[simple]? = some name ↔
      ∃ before after, rejectedImports imports canImport = before ++ name :: after ∧
        Text.lastSegment name = simple ∧ ∀ later ∈ after, Text.lastSegment later ≠ simple := by
  rw [getElem?_unreachableImports, find?_reverse_eq_some_iff]
  simp only [beq_iff_eq, beq_eq_false_iff_ne]

/-- What the table of rejected imports says. -/
structure ImportTable.Records (table : ImportTable) (rejected : List String) : Prop where
  /-- The entries are the simple names of the rejected imports. -/
  mem_iff : ∀ simple, simple ∈ table ↔ ∃ name ∈ rejected, Text.lastSegment name = simple
  /-- Each leads to the last import that has it. -/
  getElem?_iff : ∀ simple name, table[simple]? = some name ↔
    ∃ before after, rejected = before ++ name :: after ∧ Text.lastSegment name = simple ∧
      ∀ later ∈ after, Text.lastSegment later ≠ simple
  /-- This import ends with the simple name, and no full stop is in that. -/
  ends : ∀ simple name, table[simple]? = some name →
    '.' ∉ simple.toList ∧ (name = simple ∨ ∃ qualifier, name = qualifier ++ "." ++ simple)
  /-- An import is found under its simple name, unless a later one has the same. -/
  found : ∀ before name after, rejected = before ++ name :: after →
    table[Text.lastSegment name]? = some name ∨
      ∃ later ∈ after, Text.lastSegment later = Text.lastSegment name

lemma records_unreachableImports (imports : List String) (canImport : String → Bool) :
    ImportTable.Records (unreachableImports imports canImport)
      (rejectedImports imports canImport) where
  mem_iff simple := by
    rw [Std.HashMap.mem_iff_isSome_getElem?, getElem?_unreachableImports, List.find?_isSome]
    simp only [List.mem_reverse, beq_iff_eq]
  getElem?_iff _ _ := unreachableImports_eq_some_iff
  ends simple name hname := by
    obtain ⟨before, after, -, hsimple, -⟩ := unreachableImports_eq_some_iff.mp hname
    exact Text.lastSegment_eq_iff.mp hsimple
  found before name after hsplit := by
    by_cases hlater : ∃ later ∈ after, Text.lastSegment later = Text.lastSegment name
    · exact .inr hlater
    · refine .inl (unreachableImports_eq_some_iff.mpr ⟨before, after, hsplit, rfl, ?_⟩)
      exact fun later hmem heq => hlater ⟨later, hmem, heq⟩

/-- **The resolution of imports asks about the imports that do not end with a full stop and an
asterisk, and records the rejected ones, each under its simple name.**  What was recorded before is
gone, and the rest of the unit is as it was. -/
theorem CompilationUnit.resolveImports_records (u : CompilationUnit) (imports : List String)
    (canImport : String → Bool) (asked : List String) (earlier : Option ImportTable) :
    (u.resolveImportsM imports (listening canImport)).run asked =
      (u.resolveImports imports canImport,
        asked ++ imports.filter fun imported => !isOnDemand imported) ∧
    (∀ imported, isOnDemand imported = true ↔ ∃ package, imported = package ++ ".*") ∧
    (∃ table, (u.resolveImports imports canImport).imports = some table ∧
      ImportTable.Records table ((imports.filter fun imported => !isOnDemand imported).filter
        fun imported => !canImport imported)) ∧
    ({ u with imports := earlier }).resolveImports imports canImport =
      u.resolveImports imports canImport ∧
    { u.resolveImports imports canImport with imports := u.imports } = u :=
  ⟨run_resolveImportsM u imports canImport asked, fun _ => isOnDemand_iff,
    ⟨_, rfl, records_unreachableImports imports canImport⟩, rfl, rfl⟩

end DeclTree
