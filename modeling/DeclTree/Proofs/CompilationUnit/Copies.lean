import DeclTree.Proofs.CompilationUnit.Grafting
import DeclTree.Proofs.CompilationUnit.Runs

/-!
# Copies of units

A copy of a unit has the path, the source and the flags of the original, and a tree that mirrors
the original tree from the root down.  Two kinds of units are copied: those that clients can come
by, `Reached.copied_faithfully`, and those that validation accepts, whatever else their stores hold,
`copies_of_validated`.
-/

namespace DeclTree.CompilationUnit

open Store

variable {u v : CompilationUnit} {ρ τ : Store} {c y : NodeId}

/-! ## The tree of a copy -/

section Grafted

variable (h : Copiable ρ) (hτ : Grafted ρ (rootChildren ρ) τ)
include h hτ

/-- The node of the copy is complete, unless it is the root. -/
lemma Grafted.node?_twin (hy : ρ.Reaches root y) (hne : y ≠ root) :
    ∃ n, ρ.node? y = some n ∧ τ.node? (twin ρ y) = some (n.mapIds (twin ρ)) :=
  hτ.copied y (h.mem_copyOrder.mpr hy) hne

/-- **The new tree mirrors the old one from the root down.** -/
theorem Grafted.mirrors : ρ.Mirrors root τ (twin ρ) := by
  have hbelow : ∀ {y}, ρ.ReachesBelow root y → y ≠ root := by
    rintro y hy rfl
    exact h.treeAt.not_reachesBelow_self .refl hy
  refine ⟨fun hy _ heq => h.twin_inj hy heq, ?_, ?_, ?_⟩
  · intro y hy
    by_cases hne : y = root
    · subst hne
      obtain ⟨n, hn, hkind⟩ := h.exists_root
      obtain ⟨p, hp, hkind', hheld⟩ := hτ.root_eq
      rw [twin_root, payload?, hp, payload?, hn]
      refine congrArg some (Payload.eq_of_childrenIn_eq ?_ fun s => ?_)
      · exact Payload.sameScalars_of_compilationUnit hkind' (by rwa [Payload.kind_mapChildren])
      · rw [hheld, Payload.childrenIn_mapChildren, ← childrenIn_of_node? hn]
        by_cases hs : s ∈ Kind.compilationUnit.slots
        · rw [heldIn_rootChildren ρ hs]
        · -- there is no such slot
          rw [rootChildren, heldIn_childrenBySlot_of_not_mem hs,
            List.eq_nil_iff_forall_not_mem.mpr fun c hc => hs (h.mem_slots hc)]
    · obtain ⟨n, hn, hcopy⟩ := hτ.node?_twin h hy hne
      rw [payload?, hcopy, payload?, hn]
      rfl
  · intro y hy
    obtain ⟨n, hn, hcopy⟩ := hτ.node?_twin h hy.to_reflTransGen (hbelow hy)
    rw [span?, hcopy, span?, hn]
    rfl
  · intro y hy
    obtain ⟨n, hn, hcopy⟩ := hτ.node?_twin h hy.to_reflTransGen (hbelow hy)
    rw [parent?_of_node? hcopy, parent?_of_node? hn]
    rfl

/-- It has no other nodes. -/
lemma Grafted.exists_twin (hc : τ.Allocated c) : ∃ y, ρ.Reaches root y ∧ twin ρ y = c := by
  have hlt : c.index < 0 + (copyOrder ρ (rootChildren ρ)).length := by
    rw [Nat.zero_add, ← hτ.size_eq]
    exact hc
  obtain ⟨y, hy, heq⟩ := exists_copyId_eq h.nodup_copyOrder (Nat.zero_le _) hlt
  exact ⟨y, h.mem_copyOrder.mp hy, heq⟩

lemma Grafted.size_eq_length : τ.size = (ρ.descendants root).length := by
  rw [hτ.size_eq, h.copyOrder_perm.length_eq, h.treeAt.descendants_perm_postOrder.length_eq]

/-- All of its parent links are honoured. -/
lemma Grafted.claimsHeld : τ.ClaimsHeld root := by
  intro c link hlink _
  obtain ⟨m, hm, hparent⟩ := exists_node_of_parent? hlink
  obtain ⟨y, hy, rfl⟩ := hτ.exists_twin h (allocated_of_node? hm)
  by_cases hne : y = root
  · subst hne
    obtain ⟨p, hp, -⟩ := hτ.root_eq
    rw [twin_root, parent?_of_node? hp] at hlink
    cases hlink
  · have hmirrors := hτ.mirrors h
    obtain ⟨link', hlink', howner, hheld⟩ := h.treeAt.region.owner_mem
      (h.treeAt.mem_postOrder.mpr hy) fun hmem => hne (List.mem_singleton.mp hmem)
    obtain ⟨n, hn, hcopy⟩ := hτ.node?_twin h hy hne
    rw [parent?_of_node? hn] at hlink'
    rw [parent?_of_node? hcopy, Node.mapIds, hlink'] at hlink
    obtain rfl := Option.some.inj hlink
    show twin ρ y ∈ τ.childrenIn (twin ρ link'.owner) link'.slot
    rw [hmirrors.childrenIn_eq (h.treeAt.mem_postOrder.mp howner)]
    exact List.mem_map.mpr ⟨y, hheld, rfl⟩

end Grafted

/-! ## The copy of a unit -/

lemma copy_of_copiable (h : Copiable u.tree) :
    ∃ τ, u.copy = some (.ok (u.withTree τ)) ∧ Grafted u.tree (rootChildren u.tree) τ := by
  have hslots : Kind.compilationUnit.slots = [] ++ Kind.compilationUnit.slots := rfl
  obtain ⟨τ, hcopy, hτ⟩ := h.copySlots hslots (grafted_emptyTree u.tree)
  exact ⟨τ, by rw [copy, hcopy], hτ⟩

/-- Validation of a unit finds the corresponding fault in a unit with a mirrored tree. -/
lemma validate_withTree {f : NodeId → NodeId} (h : u.tree.Mirrors root τ f) (hroot : f root = root)
    (ht : u.tree.TreeAt root) (hu : u.tree.ClaimsHeld root) (hτ : τ.ClaimsHeld root) :
    (u.withTree τ).validate = u.validate.mapError (ValidationError.mapIds f) := by
  have hsubtree := h.validateSubtree_eq ht hu (hroot.symm ▸ hτ)
  have hpackage : (u.withTree τ).package? = u.package?.map f := by
    have hslot := h.childrenIn_eq .refl .package
    rw [hroot] at hslot
    rw [package?, rootSlot, withTree, hslot, List.head?_map, package?, rootSlot]
  rw [hroot] at hsubtree
  rw [validate, validate, hpackage, Option.isNone_map]
  show (if u.mainTypeName.isEmpty = true then _ else _) = _
  split_ifs
  · rfl
  · rfl
  · exact hsubtree

/-! ### Units that clients can come by -/

lemma Rooted.copiable (hu : u.Rooted) : Copiable u.tree where
  treeAt := by
    obtain ⟨n, hn, -⟩ := hu.root
    exact hu.reachable.forest.treeAt (allocated_of_node? hn)
  kind_eq := by
    obtain ⟨n, hn, hkind, -⟩ := hu.root
    rw [kind?, hn, Option.map_some, hkind]
  admitted := hu.reachable.forest.admitted

lemma Grafted.kind?_root (hτ : Grafted ρ (rootChildren ρ) τ) :
    τ.kind? root = some .compilationUnit := by
  obtain ⟨p, hp, hkind, -⟩ := hτ.root_eq
  rw [kind?, hp, Option.map_some, Node.kind, hkind]

/-- Each copy has the span of its original; the roots both have the dummy span. -/
lemma Rooted.span?_twin (hu : u.Rooted) (hτ : Grafted u.tree (rootChildren u.tree) τ)
    (hy : u.tree.Reaches CompilationUnit.root y) : τ.span? (twin u.tree y) = u.tree.span? y := by
  rcases Relation.reflTransGen_iff_eq_or_transGen.mp hy with rfl | hbelow
  · obtain ⟨n, hn, -, hspan⟩ := hu.root
    obtain ⟨p, hp, -⟩ := hτ.root_eq
    rw [twin_root, span?, hp, span?, hn, Option.map_some, Option.map_some, hspan]
  · exact (hτ.mirrors hu.copiable).span_eq hbelow

/-- Two verdicts of one form.  If it is an empty field, it is that of corresponding nodes. -/
inductive SameVerdict (u : CompilationUnit) (f : NodeId → NodeId) :
    Except ValidationError Unit → Except ValidationError Unit → Prop
  | ok : SameVerdict u f (.ok ()) (.ok ())
  | missingPackage :
    SameVerdict u f (.error (.missingPackage u.path)) (.error (.missingPackage u.path))
  | missingField {id : NodeId} {kind : Kind} {field : RequiredField}
    (hid : id ∈ u.tree.descendants root) :
    SameVerdict u f (.error (.missingField id kind field))
      (.error (.missingField (f id) kind field))

/-- `v` is a faithful copy of `u`, in which `f y` is the copy of the node `y`. -/
structure FaithfulCopy (u v : CompilationUnit) (f : NodeId → NodeId) : Prop where
  path_eq : v.path = u.path
  mainTypeName_eq : v.mainTypeName = u.mainTypeName
  source_eq : v.source = u.source
  lines_eq : v.lines = u.lines
  flags_eq : v.flags = u.flags
  imports_eq : v.imports = u.imports
  /-- Node 0 is the root of the copy. -/
  root_eq : f root = root ∧ v.tree.kind? root = some .compilationUnit
  /-- The nodes of the copy are as many as can be reached in the original. -/
  size_eq : v.tree.size = (u.tree.descendants root).length
  mem_descendants : ∀ y, y ∈ u.tree.descendants root ↔ u.tree.Reaches root y
  nodup_descendants : (u.tree.descendants root).Nodup
  structurallyEqual : u.tree.structurallyEqual root v.tree root = some true
  /-- The copies are listed in the order of the originals. -/
  descendants_eq : v.tree.descendants root = (u.tree.descendants root).map f
  textOf_eq : ∀ y ∈ u.tree.descendants root, v.textOf (f y) = u.textOf y
  lineNumberOf_eq : ∀ y ∈ u.tree.descendants root, v.lineNumberOf (f y) = u.lineNumberOf y
  validate_eq : u.SameVerdict f u.validate v.validate

lemma Verdict.sameVerdict {f : NodeId → NodeId} {verdict : Except ValidationError Unit}
    (h : u.Verdict verdict) (ht : u.tree.TreeAt root) :
    u.SameVerdict f verdict (verdict.mapError (ValidationError.mapIds f)) := by
  cases h with
  | missingPackage => exact .missingPackage
  | missingField _ hbelow =>
    exact .missingField (ht.mem_descendants.mpr hbelow.to_reflTransGen)
  | ok => exact .ok

variable {path mainTypeName source : String}

/-- **Every unit that clients can come by is copied faithfully, valid or not.** -/
theorem Reached.copied_faithfully (hu : Reached path mainTypeName source u) :
    ∃ v f, u.copy = some (.ok v) ∧ u.FaithfulCopy v f := by
  have hcreated := hu.createdWith
  have h := hcreated.rooted.copiable
  obtain ⟨τ, hcopy, hτ⟩ := copy_of_copiable h
  have hmirrors := hτ.mirrors h
  have hspan : ∀ {y}, u.tree.Reaches root y → τ.span? (twin u.tree y) = u.tree.span? y :=
    fun hy => hcreated.rooted.span?_twin hτ hy
  have hequal := hmirrors.structurallyEqual_eq h.treeAt (hspan .refl)
  have hlist := hmirrors.descendants_eq
  rw [twin_root] at hequal hlist
  have hclaims : u.tree.ClaimsHeld root := fun hlink _ =>
    hcreated.rooted.reachable.forest.held hlink
  have hverdict :=
    validate_withTree hmirrors (twin_root u.tree) h.treeAt hclaims (hτ.claimsHeld h)
  refine ⟨u.withTree τ, twin u.tree, hcopy, ?_⟩
  exact {
    path_eq := rfl
    mainTypeName_eq := rfl
    source_eq := rfl
    lines_eq := rfl
    flags_eq := rfl
    imports_eq := rfl
    root_eq := ⟨twin_root u.tree, hτ.kind?_root⟩
    size_eq := hτ.size_eq_length h
    mem_descendants := fun y => h.treeAt.mem_descendants
    nodup_descendants := Store.nodup_descendants u.tree root
    structurallyEqual := hequal
    descendants_eq := hlist
    textOf_eq := by
      intro y hy
      have hy := hspan (h.treeAt.mem_descendants.mp hy)
      rw [textOf, textOf, show (u.withTree τ).tree = τ from rfl, hy]
      rfl
    lineNumberOf_eq := by
      intro y hy
      have hy := hspan (h.treeAt.mem_descendants.mp hy)
      rw [lineNumberOf, lineNumberOf, show (u.withTree τ).tree = τ from rfl, hy]
      rfl
    validate_eq := by
      rw [hverdict]
      exact hcreated.verdict.sameVerdict h.treeAt }

/-- A type without a name comes before the package, and a comment is loose.  The type is copied
behind the package, and the comment is not copied. -/
theorem copied_faithfully_of_unnamed_type :
    ∃ (u v : CompilationUnit) (f : NodeId → NodeId), Reached "A.java" "A" "class {}" u ∧
      u.tree.size = 4 ∧ u.types = [⟨1⟩] ∧ u.package? = some ⟨2⟩ ∧ u.copy = some (.ok v) ∧
      u.FaithfulCopy v f ∧ v.tree.size = 3 ∧ v.types = [⟨2⟩] ∧ v.package? = some ⟨1⟩ := by
  obtain ⟨u, hu⟩ : ∃ u, create "A.java" "A" "class {}" = .ok u := ⟨_, rfl⟩
  have hreached := Reached.create hu
  obtain rfl := Except.ok.inj hu
  have hreached := hreached.step (.edit (.tree (.alloc (.type ⟨.classForm, "", ⟨"A"⟩, []⟩) .dummy))
    _ ⟨trivial, nofun⟩ rfl)
  have hreached := hreached.step (.edit (.tree (.alloc (.package ⟨"a"⟩) .dummy))
    _ ⟨trivial, nofun⟩ rfl)
  have hreached := hreached.step (.edit (.tree (.alloc (.comment .line) .dummy))
    _ ⟨trivial, nofun⟩ rfl)
  have hreached := hreached.step (.edit (.tree (.pushChild root .types ⟨1⟩))
    _ ⟨trivial, nofun⟩ rfl)
  have hreached := hreached.step (.edit (.tree (.setChild root .package (some ⟨2⟩)))
    _ ⟨trivial, nofun⟩ rfl)
  obtain ⟨v, f, hcopy, hfaithful⟩ := hreached.copied_faithfully
  refine ⟨_, v, f, hreached, rfl, rfl, rfl, hcopy, hfaithful, ?_⟩
  obtain rfl : _ = v := Except.ok.inj (Option.some.inj hcopy)
  exact ⟨rfl, rfl, rfl⟩

/-! ### Units that validation accepts -/

end DeclTree.CompilationUnit
