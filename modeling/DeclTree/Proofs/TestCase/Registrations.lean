import DeclTree.Proofs.Session.Classification

/-!
# The registry as a set

Types come into the registry in two ways, one by one and with the units that are classified.
`Registry.run` performs calls of both sorts and lists what they answer.  Each call adds the
identities that its answer tells of, `isRegistered_perform`, so after a run the registry is the set
of those that some answer tells of, whatever way one looks at it: `Registry.run_represents`.
-/

namespace DeclTree

/-! ## Identities in strict order -/

namespace TypeIdentity

/-- The code points of the qualified name. -/
def codePoints (t : TypeIdentity) : List Nat := t.qualified.toList.map Char.toNat

lemma codePoints_lt {a b : TypeIdentity} (hle : a.le b = true) (hne : a ≠ b) :
    a.codePoints < b.codePoints := by
  have hlt : a.qualified < b.qualified := by
    refine Std.lt_of_le_of_ne (le_iff.mp hle) fun heq => hne ?_
    cases a
    exact congrArg mk heq
  exact List.map_lt (fun _ _ h => Nat.lt_of_succ_le h) (String.lt_iff.mp hlt)

/-- Sorting a list without repetitions makes it ascend strictly. -/
lemma pairwise_sort {ts : List TypeIdentity} (h : ts.Nodup) :
    (sort ts).Pairwise fun a b => a.codePoints < b.codePoints := by
  have hsorted : (sort ts).Pairwise fun a b => a.le b = true :=
    List.pairwise_mergeSort le_trans le_total ts
  have hnodup : (sort ts).Nodup := (List.mergeSort_perm ts le).nodup_iff.mpr h
  exact (hsorted.and hnodup).imp fun h => codePoints_lt h.1 h.2

end TypeIdentity

namespace TestCase.Registry

/-! ## Calls -/

/-- A call that may add to a registry. -/
inductive Call
  /-- Registers a type. -/
  | register (t : TypeIdentity)
  /-- Classifies a unit, each call with a classifier of its own. -/
  | classifyUnit (u : CompilationUnit) (classifier : Classifier)

/-- What a call answers. -/
inductive Answer
  /-- The type was registered; whether it was new. -/
  | registered (t : TypeIdentity) (isNew : Bool)
  /-- The unit was classified. -/
  | classified (report : Report)

/-- The identities that were registered or reported as registered. -/
def Answer.identities : Answer → List TypeIdentity
  | registered t _ => [t]
  | classified report => report.registered

/-- Performs a call. -/
def perform (r : Registry) : Call → Answer × Registry
  | .register t => (.registered t (r.register t).1, (r.register t).2)
  | .classifyUnit u classifier =>
    (.classified (r.classifyUnit u classifier).1, (r.classifyUnit u classifier).2)

/-- Performs calls one after the other. -/
def run (r : Registry) : List Call → List Answer × Registry
  | [] => ([], r)
  | call :: calls =>
    ((r.perform call).1 :: ((r.perform call).2.run calls).1, ((r.perform call).2.run calls).2)

/-- The identities that some of the answers tell of. -/
def identitiesOf (answers : List Answer) : List TypeIdentity := answers.flatMap Answer.identities

variable {r : Registry} {t : TypeIdentity}

/-- A later part of a run starts where the earlier part ends. -/
lemma run_append (calls more : List Call) :
    r.run (calls ++ more) =
      ((r.run calls).1 ++ ((r.run calls).2.run more).1, ((r.run calls).2.run more).2) := by
  induction calls generalizing r with
  | nil => rfl
  | cons call calls ih => rw [List.cons_append, run, ih, run, List.cons_append]

/-- **A call adds the identities that its answer tells of.** -/
lemma isRegistered_perform (call : Call) :
    (r.perform call).2.isRegistered t = true ↔
      r.isRegistered t = true ∨ t ∈ (r.perform call).1.identities := by
  cases call with
  | register u => exact @isRegistered_registerAll r [u] t
  | classifyUnit u classifier => exact isRegistered_registerAll

/-- **So does a run of calls.** -/
lemma isRegistered_run (calls : List Call) :
    (r.run calls).2.isRegistered t = true ↔
      r.isRegistered t = true ∨ t ∈ identitiesOf (r.run calls).1 := by
  induction calls generalizing r with
  | nil => simp [run, identitiesOf]
  | cons call calls ih =>
    rw [run, ih, isRegistered_perform, identitiesOf, identitiesOf, List.flatMap_cons,
      List.mem_append, or_assoc]

lemma isRegistered_run_empty (calls : List Call) (t : TypeIdentity) :
    (empty.run calls).2.isRegistered t = true ↔ t ∈ identitiesOf (empty.run calls).1 := by
  have hempty : empty.isRegistered t = false := Std.HashSet.contains_empty
  rw [isRegistered_run, hempty, or_iff_right Bool.false_ne_true]

/-! ## Listings -/

lemma mem_identities : t ∈ r.identities ↔ r.isRegistered t = true := by
  rw [identities, TypeIdentity.sort, List.mem_mergeSort, Std.HashSet.mem_toList, isRegistered,
    Std.HashSet.contains_iff_mem]

lemma length_identities (r : Registry) : r.identities.length = r.size := by
  rw [identities, TypeIdentity.sort, List.length_mergeSort, Std.HashSet.length_toList, size]

/-- A table lists each of its entries once. -/
lemma nodup_members (r : Registry) : r.members.toList.Nodup :=
  Std.HashSet.distinct_toList.imp fun hne => ne_of_beq_false hne

/-! ## Sets -/

/-- The registry is the set of some identities, whatever way one looks at it. -/
structure Represents (r : Registry) (ts : List TypeIdentity) : Prop where
  /-- They are those that are registered. -/
  isRegistered_iff : ∀ t, r.isRegistered t = true ↔ t ∈ ts
  /-- All others would be new. -/
  isNew_iff : ∀ t, (r.register t).1 = true ↔ t ∉ ts
  /-- They are those that are listed. -/
  listed_iff : ∀ t, t ∈ r.identities ↔ t ∈ ts
  /-- The listing goes up in the order of code points, so that each is listed once. -/
  ascending : r.identities.Pairwise fun a b => a.codePoints < b.codePoints
  /-- The listing is as long as the registry is large. -/
  size_eq : r.size = r.identities.length
  /-- The registry is empty if the listing is. -/
  isEmpty_iff : r.isEmpty = true ↔ r.identities = []

lemma represents_of_isRegistered {ts : List TypeIdentity}
    (h : ∀ t, r.isRegistered t = true ↔ t ∈ ts) : r.Represents ts where
  isRegistered_iff := h
  isNew_iff t := by rw [register, Bool.not_eq_true', ← h, Bool.not_eq_true]
  listed_iff t := mem_identities.trans (h t)
  ascending := TypeIdentity.pairwise_sort r.nodup_members
  size_eq := r.length_identities.symm
  isEmpty_iff := by
    rw [← List.length_eq_zero_iff, length_identities, isEmpty, size,
      Std.HashSet.isEmpty_eq_size_eq_zero, beq_iff_eq]

/-- **After any run of calls, the registry is the set of the identities that were registered or
reported as registered.**  A call of `register` at any place of a run answers whether the identity
is not among those before it, and what is listed stays listed. -/
theorem run_represents (calls more : List Call) (t : TypeIdentity) :
    (empty.run calls).2.Represents (identitiesOf (empty.run calls).1) ∧
    (∃ later, (empty.run (calls ++ .register t :: more)).1 = (empty.run calls).1 ++
      .registered t (decide (t ∉ identitiesOf (empty.run calls).1)) :: later) ∧
    (empty.run calls).2.identities ⊆ (empty.run (calls ++ more)).2.identities := by
  have hset := represents_of_isRegistered fun t => isRegistered_run_empty calls t
  refine ⟨hset, ?_, fun x hx => ?_⟩
  · have hanswer : ((empty.run calls).2.register t).1 =
        decide (t ∉ identitiesOf (empty.run calls).1) := by
      rw [Bool.eq_iff_iff, hset.isNew_iff, decide_eq_true_iff]
    rw [run_append, run, perform, hanswer]
    exact ⟨_, rfl⟩
  · rw [mem_identities, run_append, isRegistered_run]
    exact .inl (mem_identities.mp hx)

end TestCase.Registry

end DeclTree
