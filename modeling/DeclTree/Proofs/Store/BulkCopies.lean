import Mathlib.Algebra.GroupWithZero.Nat
import DeclTree.Proofs.Store.Independence
import DeclTree.Proofs.Store.Legality
import DeclTree.Proofs.Store.Mirrors

/-!
# What a bulk copy leaves behind

A bulk copy is no single step: it copies its sources one after the other and attaches each copy, and
what it has done stays done when it meets a source that the slot does not admit.  That source has
been copied by then, so its copy is left over, attached nowhere.  It stays done, too, when the
identifiers run out: then the copy of one source is cut short, and left over as far as it got.

`Store.Receives` says what has changed between two stores of such a run: which copies were attached
and which were not, and that nothing else is different.  One source is one step,
`Imports.receives_attached` or `Imports.receives_loose`; steps follow each other by
`Receives.cons`, and `Forest.appendCopies_outcome` goes through the sources.  The store of the
sources is only read.
-/

namespace DeclTree.Store

variable {ρ σ τ υ : Store} {owner copy x y : NodeId} {slot : Slot} {link link' : Option ParentLink}

/-! ## What the slot admits -/

/-- The slot admits the node. -/
def fits (ρ : Store) (slot : Slot) (id : NodeId) : Bool := (ρ.kind? id).any slot.admits

lemma fits_eq_true (h : ρ.fits slot x = true) :
    ∃ kind, ρ.kind? x = some kind ∧ slot.admits kind = true := by
  simpa [fits, Option.any_eq_true] using h

lemma fits_eq_false (h : ρ.fits slot x = false) (hx : ρ.Allocated x) :
    ∃ kind, ρ.kind? x = some kind ∧ slot.admits kind = false := by
  obtain ⟨n, hn⟩ := exists_node_iff.mpr hx
  have hkind : ρ.kind? x = some n.kind := by rw [kind?, hn]; rfl
  refine ⟨n.kind, hkind, ?_⟩
  rwa [fits, hkind] at h

/-! ## What has changed -/

/-- `copy` in `τ` is a copy of `source` in `ρ`, made of nodes that `σ` does not have, and it is
attached there. -/
structure CopyOf (ρ σ τ : Store) (source copy : NodeId) (link : Option ParentLink) : Prop where
  equal : ρ.structurallyEqual source τ copy = some true
  fresh : ∀ y, τ.Reaches copy y → σ.size ≤ y.index
  parent : τ.parent? copy = link

/-- From `σ` to `τ` the slot has been filled with copies of nodes of `ρ`.  Sources and copies are
given in pairs, those that are attached now and those that are loose. -/
structure Receives (ρ σ τ : Store) (owner : NodeId) (slot : Slot) (kept leaving : List NodeId)
    (attached loose : List (NodeId × NodeId)) : Prop where
  /-- The new nodes are as many as the subtrees have that were copied. -/
  size_eq : τ.size =
    σ.size + ((attached ++ loose).map fun copied => (ρ.descendants copied.1).length).sum
  /-- Of the owner only the slot is different: it holds the copies behind the nodes that it kept. -/
  written : ∃ n p, σ.node? owner = some n ∧ τ.node? owner = some { n with payload := p } ∧
    n.payload.sameScalars p = true ∧
    ∀ s, p.childrenIn s =
      if s = slot then kept ++ attached.map Prod.snd else n.payload.childrenIn s
  /-- Of a node that has left the slot only the parent link is different. -/
  left : ∀ id ∈ leaving, ∃ n, σ.node? id = some n ∧ τ.node? id = some { n with parent := none }
  /-- Of no other node is anything different. -/
  others : ∀ id n, σ.node? id = some n → id ≠ owner → id ∉ leaving → τ.node? id = some n
  attached : ∀ copied ∈ attached, CopyOf ρ σ τ copied.1 copied.2 (some ⟨owner, slot⟩)
  loose : ∀ copied ∈ loose, CopyOf ρ σ τ copied.1 copied.2 none

namespace CopyOf

variable {source : NodeId}

lemma allocated (h : CopyOf ρ σ τ source copy link) : τ.Allocated copy := by
  by_contra hunknown
  have hequal := h.equal
  rw [structurallyEqual_of_not_allocated (.inr hunknown)] at hequal
  cases hequal

/-- It is a copy still where nothing below it has changed. -/
lemma of_sameBelow (h : CopyOf ρ σ υ source copy link) (hsame : υ.SameBelow τ copy)
    (hsource : ρ.Unfolds source) (hcopy : υ.Unfolds copy) (hparent : τ.parent? copy = link') :
    CopyOf ρ σ τ source copy link' where
  equal := (hsame.structurallyEqual_eq hsource hcopy).trans h.equal
  fresh := fun y hy => h.fresh y (hsame.reaches hy)
  parent := hparent

/-- What is new later is new. -/
lemma mono (h : CopyOf ρ υ τ source copy link) (hle : σ.size ≤ υ.size) :
    CopyOf ρ σ τ source copy link :=
  ⟨h.equal, fun y hy => Nat.le_trans hle (h.fresh y hy), h.parent⟩

end CopyOf

namespace Receives

variable {kept leaving : List NodeId} {attached loose : List (NodeId × NodeId)}

lemma size_le (h : Receives ρ σ τ owner slot kept leaving attached loose) : σ.size ≤ τ.size := by
  rw [h.size_eq]
  exact Nat.le_add_right _ _

lemma childrenIn_eq (h : Receives ρ σ τ owner slot kept leaving attached loose) :
    τ.childrenIn owner slot = kept ++ attached.map Prod.snd := by
  obtain ⟨n, p, -, hp, -, hchildren⟩ := h.written
  rw [childrenIn_of_node? hp, hchildren, if_pos rfl]

lemma hasSlot (h : Receives ρ σ τ owner slot kept leaving attached loose)
    (hslot : σ.HasSlot owner slot) : τ.HasSlot owner slot := by
  obtain ⟨n, p, hn, hp, hsame, -⟩ := h.written
  obtain ⟨m, hm, hmem⟩ := hslot
  obtain rfl := Option.some.inj (hn.symm.trans hm)
  have hkind : p.kind = n.kind := Payload.kind_eq_of_sameScalars hsame
  refine ⟨_, hp, ?_⟩
  show slot ∈ p.kind.slots
  rwa [hkind]

/-- Nothing was copied, and nothing has changed. -/
lemma refl (ρ : Store) (howner : σ.Allocated owner) :
    Receives ρ σ σ owner slot (σ.childrenIn owner slot) [] [] [] := by
  obtain ⟨n, hn⟩ := exists_node_iff.mpr howner
  refine ⟨rfl, ⟨n, n.payload, hn, hn, Payload.sameScalars_refl _, fun s => ?_⟩, nofun,
    fun _ _ hid _ _ => hid, nofun, nofun⟩
  split_ifs with hs
  · rw [hs, List.map_nil, List.append_nil, childrenIn_of_node? hn]
  · rfl

/-- A copy is attached, and then others are. -/
lemma cons (hρ : ρ.Forest) (hυ : υ.Forest) (hx : ρ.Allocated x) (howner : σ.Allocated owner)
    (first : Receives ρ σ υ owner slot kept [] [(x, copy)] [])
    (rest : Receives ρ υ τ owner slot (kept ++ [copy]) [] attached loose) :
    Receives ρ σ τ owner slot kept [] ((x, copy) :: attached) loose := by
  have hcopy := first.attached (x, copy) List.mem_cons_self
  have hsize := first.size_le
  obtain ⟨n, p, hn, hp, hsame, hchildren⟩ := first.written
  obtain ⟨n', p', hn', hp', hsame', hchildren'⟩ := rest.written
  obtain rfl := Option.some.inj (hp.symm.trans hn')
  -- the subtree of the copy is new, so the owner is not in it
  have hbelow : ∀ y, υ.Reaches copy y → τ.node? y = υ.node? y := by
    intro y hy
    obtain ⟨m, hm⟩ := exists_node_iff.mpr ((hυ.unfolds hcopy.allocated).allocated hy)
    have hne : y ≠ owner := by
      rintro rfl
      exact absurd (hcopy.fresh y hy) (Nat.not_le_of_lt howner)
    rw [hm, rest.others y m hm hne List.not_mem_nil]
  have hkeeps : υ.SameBelow τ copy := fun y hy => by
    rw [payload?, span?, hbelow y hy]
    exact ⟨rfl, rfl⟩
  refine ⟨?_, ⟨n, p', hn, hp', Payload.sameScalars_trans hsame hsame', fun s => ?_⟩,
    List.forall_mem_nil _, fun id m hm hne _ => ?_,
    List.forall_mem_cons.mpr ⟨?_, fun copied hmem => ?_⟩,
    fun copied hmem => (rest.loose copied hmem).mono hsize⟩
  · rw [rest.size_eq, first.size_eq]
    simp only [List.append_nil, List.map_cons, List.map_nil, List.sum_cons, List.sum_nil,
      List.cons_append]
    omega
  · rw [hchildren']
    split_ifs with hs
    · rw [List.append_assoc, List.map_cons, List.singleton_append]
    · exact (hchildren s).trans (if_neg hs)
  · exact rest.others id m (first.others id m hm hne List.not_mem_nil) hne List.not_mem_nil
  · refine hcopy.of_sameBelow hkeeps (hρ.unfolds hx) (hυ.unfolds hcopy.allocated) ?_
    rw [parent?, hbelow copy .refl, ← parent?, hcopy.parent]
  · exact (rest.attached copied hmem).mono hsize

end Receives

/-! ## One source -/

/-- `τ` is `σ` with a loose copy of a node of `ρ`. -/
structure Imports (ρ σ : Store) (x : NodeId) (τ : Store) (copy : NodeId) : Prop where
  forest : τ.Forest
  size_eq : τ.size = σ.size + (ρ.descendants x).length
  kept : ∀ id n, σ.node? id = some n → τ.node? id = some n
  copyOf : CopyOf ρ σ τ x copy none
  kind_eq : τ.kind? copy = ρ.kind? x

lemma Forest.imports (hf : σ.Forest) (hρ : ρ.Forest) (hx : ρ.Allocated x)
    (room : σ.HasRoom (ρ.descendants x).length) :
    ∃ copy τ, σ.importSubtree ρ x = some (.ok copy, τ) ∧ Imports ρ σ x τ copy := by
  have ht := hρ.treeAt hx
  have hroot : x ∈ ρ.postOrder x := ht.mem_postOrder.mpr .refl
  rw [ht.descendants_perm_postOrder.length_eq] at room
  obtain ⟨τ, himport, hcopies⟩ := importSubtree_copies ht room
  have hmirrors := hcopies.mirrors ht
  obtain ⟨n, m, hn, hm, hsame, hspan⟩ := hcopies.scalars_copy hroot
  refine ⟨_, τ, himport, hf.of_importSubtree hρ himport, ?_, hcopies.kept, ⟨?_, ?_, ?_⟩, ?_⟩
  · rw [hcopies.size_eq, ht.descendants_perm_postOrder.length_eq]
  · refine hmirrors.structurallyEqual_eq ht ?_
    rw [span?, hm, span?, hn, Option.map_some, Option.map_some, hspan]
  · intro y hy
    obtain ⟨z, -, rfl⟩ := hmirrors.reaches_iff.mp hy
    exact le_copyId_index
  · rw [hcopies.parent?_copy hroot, if_pos (List.mem_singleton.mpr rfl)]
  · rw [kind?, hm, kind?, hn]
    exact congrArg some (Payload.kind_eq_of_sameScalars hsame)

namespace Imports

variable (h : Imports ρ σ x τ copy)
include h

lemma node?_eq (hy : σ.Allocated y) : τ.node? y = σ.node? y := by
  obtain ⟨n, hn⟩ := exists_node_iff.mpr hy
  rw [hn, h.kept y n hn]

lemma childrenIn_eq (howner : σ.Allocated owner) (s : Slot) :
    τ.childrenIn owner s = σ.childrenIn owner s := by
  rw [childrenIn, payload?, h.node?_eq howner, childrenIn, payload?]

lemma hasSlot (hslot : σ.HasSlot owner slot) : τ.HasSlot owner slot := by
  obtain ⟨n, hn, hmem⟩ := hslot
  exact ⟨n, h.kept owner n hn, hmem⟩

/-- The copy does not lead to nodes of before. -/
lemma not_reaches (howner : σ.Allocated owner) : ¬ τ.Reaches copy owner := fun hreach =>
  absurd (h.copyOf.fresh owner hreach) (Nat.not_le_of_lt howner)

lemma not_mem_childrenIn : copy ∉ τ.childrenIn owner slot := by
  intro hmem
  have hlink := h.forest.linked hmem
  rw [h.copyOf.parent] at hlink
  cases hlink

/-- A copy may enter where its source fits. -/
lemma mayEnter (howner : σ.Allocated owner) (hfit : ρ.fits slot x = true) :
    τ.MayEnter owner slot copy where
  admitted := by
    obtain ⟨kind, hkind, hadmits⟩ := fits_eq_true hfit
    obtain ⟨n, hn, rfl⟩ := Option.map_eq_some_iff.mp (h.kind_eq.trans hkind)
    exact ⟨n, hn, hadmits⟩
  unattached := h.copyOf.parent
  not_above := h.not_reaches howner

/-- Elsewhere it may not. -/
lemma not_mayEnter {kind : Kind} (hkind : ρ.kind? x = some kind)
    (hadmits : slot.admits kind = false) : ¬ τ.MayEnter owner slot copy := by
  intro henter
  obtain ⟨n, hn, hadmitted⟩ := henter.admitted
  have hsame : τ.kind? copy = some n.kind := by rw [kind?, hn]; rfl
  rw [h.kind_eq, hkind] at hsame
  rw [← Option.some.inj hsame, hadmits] at hadmitted
  cases hadmitted

/-- The copy is attached. -/
lemma receives_attached {kept leaving : List NodeId} (hρ : ρ.Forest) (hx : ρ.Allocated x)
    (howner : σ.Allocated owner) (hleaving : ∀ id ∈ leaving, σ.Allocated id)
    (hrefills : τ.Refills υ owner slot (kept ++ [copy]) [copy] leaving) :
    Receives ρ σ υ owner slot kept leaving [(x, copy)] [] := by
  have hnew : ∀ {id}, σ.Allocated id → id ∉ [copy] := by
    intro id hid hmem
    obtain rfl := List.mem_singleton.mp hmem
    exact absurd (h.copyOf.fresh id .refl) (Nat.not_le_of_lt hid)
  obtain ⟨n, p, hn, hp, hsame, hchildren⟩ := hrefills.written
  obtain ⟨m, hm, hentered⟩ := hrefills.entered copy (List.mem_singleton.mpr rfl)
  have hkeeps : τ.SameBelow υ copy := by
    intro y hy
    by_cases hself : y = copy
    · subst hself
      rw [payload?, span?, payload?, span?, hentered, hm]
      exact ⟨rfl, rfl⟩
    · -- what is below the copy is new
      have hout : ∀ {id}, σ.Allocated id → y ≠ id := by
        rintro id hid rfl
        exact absurd (h.copyOf.fresh y hy) (Nat.not_le_of_lt hid)
      have hnode : υ.node? y = τ.node? y := hrefills.others y (hout howner)
        (fun hmem => hself (List.mem_singleton.mp hmem))
        fun hmem => hout (hleaving y hmem) rfl
      rw [payload?, span?, payload?, span?, hnode]
      exact ⟨rfl, rfl⟩
  refine ⟨?_, ⟨n, p, by rw [← h.node?_eq howner, hn], hp, hsame, hchildren⟩, fun id hid => ?_,
    fun id k hk hne hstays => ?_, List.forall_mem_singleton.mpr ?_, List.forall_mem_nil _⟩
  · simpa [hrefills.size_eq] using h.size_eq
  · obtain ⟨k, hk, hleft⟩ := hrefills.left id hid
    exact ⟨k, by rw [← h.node?_eq (hleaving id hid), hk], hleft⟩
  · rw [hrefills.others id hne (hnew (allocated_of_node? hk)) hstays, h.kept id k hk]
  · refine h.copyOf.of_sameBelow hkeeps (hρ.unfolds hx) (h.forest.unfolds h.copyOf.allocated) ?_
    rw [parent?_of_node? hentered]

/-- A sequence takes the copy or refuses it for its kind. -/
lemma pushChild (hρ : ρ.Forest) (hx : ρ.Allocated x) (hslot : σ.HasSlot owner slot)
    (hlist : slot.isList = true) :
    (ρ.fits slot x = true ∧ ∃ υ, τ.pushChild owner slot copy = (.ok (), υ) ∧ υ.Forest ∧
      Receives ρ σ υ owner slot (σ.childrenIn owner slot) [] [(x, copy)] []) ∨
    (ρ.fits slot x = false ∧ ∃ kind, ρ.kind? x = some kind ∧
      τ.pushChild owner slot copy = (.error (.kindMismatch slot kind), τ)) := by
  have howner := hslot.allocated
  have hdecides := h.forest.decides_pushChild owner slot copy
  cases hfit : ρ.fits slot x with
  | true =>
    refine Or.inl ⟨rfl, ?_⟩
    have hlegal : (pushingChild owner slot copy).Legal τ := by
      refine ⟨h.hasSlot hslot, hlist, nofun, ?_⟩
      rintro _ ⟨⟩
      exact h.mayEnter howner hfit
    obtain ⟨⟨⟩, υ, hpush, hrefills⟩ := hdecides.exists_of_legal hlegal
    rw [h.childrenIn_eq howner] at hrefills
    have hforest := h.forest.of_moves (moves_pushChild h.forest owner slot copy)
    rw [hpush] at hforest
    exact ⟨υ, hpush, hforest, h.receives_attached hρ hx howner nofun hrefills⟩
  | false =>
    obtain ⟨kind, hkind, hadmits⟩ := fits_eq_false hfit hx
    refine Or.inr ⟨rfl, kind, hkind, ?_⟩
    obtain ⟨e, hpush, htells⟩ := hdecides.exists_of_not_legal fun hlegal =>
      h.not_mayEnter hkind hadmits (hlegal.mayEnter copy rfl)
    rw [hpush, htells.eq_kindMismatch (h.hasSlot hslot) hlist rfl rfl (h.kind_eq.trans hkind)
      h.copyOf.parent (h.not_reaches howner)]
    rfl

/-- So does a slot for at most one child; the occupant makes way. -/
lemma setChild (hσ : σ.Forest) (hρ : ρ.Forest) (hx : ρ.Allocated x) (hslot : σ.HasSlot owner slot)
    (hlink : slot.isList = false) :
    (ρ.fits slot x = true ∧ ∃ previous υ,
      τ.setChild owner slot (some copy) = (.ok previous, υ) ∧
      Receives ρ σ υ owner slot [] (σ.childrenIn owner slot) [(x, copy)] []) ∨
    (ρ.fits slot x = false ∧ ∃ kind, ρ.kind? x = some kind ∧
      τ.setChild owner slot (some copy) = (.error (.kindMismatch slot kind), τ)) := by
  have howner := hslot.allocated
  have hother : τ.childrenIn owner slot ≠ [copy] := fun heq =>
    h.not_mem_childrenIn (heq ▸ List.mem_cons_self)
  have hnew : (τ.settingChild owner slot (some copy)).newcomer? = some copy := by
    simp [settingChild, hother]
  have hdecides := h.forest.decides_setChild owner slot (some copy)
  cases hfit : ρ.fits slot x with
  | true =>
    refine Or.inl ⟨rfl, ?_⟩
    have hlegal : (τ.settingChild owner slot (some copy)).Legal τ := by
      refine ⟨h.hasSlot hslot, hlink, ?_, fun id hid => ?_⟩
      · rintro index ⟨⟩
      · obtain rfl := Option.some.inj (hnew.symm.trans hid)
        exact h.mayEnter howner hfit
    obtain ⟨previous, υ, hset, hchildren, hsets⟩ := hdecides.exists_of_legal hlegal
    have hne : ¬ ((some copy).isSome ∧ some copy = previous) := by
      rintro ⟨-, rfl⟩
      exact hother hchildren
    rw [if_neg hne, ← hchildren, h.childrenIn_eq howner] at hsets
    exact ⟨previous, υ, hset, h.receives_attached hρ hx howner
      (fun id hid => hσ.allocated_held hid) hsets⟩
  | false =>
    obtain ⟨kind, hkind, hadmits⟩ := fits_eq_false hfit hx
    refine Or.inr ⟨rfl, kind, hkind, ?_⟩
    obtain ⟨e, hset, htells⟩ := hdecides.exists_of_not_legal fun hlegal =>
      h.not_mayEnter hkind hadmits (hlegal.mayEnter copy hnew)
    rw [hset, htells.eq_kindMismatch (h.hasSlot hslot) hlink rfl hnew (h.kind_eq.trans hkind)
      h.copyOf.parent (h.not_reaches howner)]
    rfl

end Imports

/-! ## All sources -/

/-- A bulk copy into a sequence: the copies of the longest run of sources that fit are appended, and
the copy of the source behind them, if there is one, is refused for its kind and left over. -/
def AppendsCopies (ρ σ : Store) (owner : NodeId) (slot : Slot) (sources : List NodeId)
    (reply : Option (Reply Unit)) : Prop :=
  ∃ attached loose answer τ, reply = some (answer, τ) ∧
    attached.map Prod.fst = sources.takeWhile (ρ.fits slot) ∧
    Receives ρ σ τ owner slot (σ.childrenIn owner slot) [] attached loose ∧
    match sources.dropWhile (ρ.fits slot) with
    | [] => answer = .ok () ∧ loose = []
    | refused :: _ => ∃ kind copy, ρ.kind? refused = some kind ∧
      answer = .error (.kindMismatch slot kind) ∧ loose = [(refused, copy)]

/-- The identifiers do not last for a bulk copy: the copies of some sources are appended, and the
copy of the next one is cut short. -/
def RunsShort (ρ σ : Store) (owner : NodeId) (slot : Slot) (sources : List NodeId)
    (reply : Option (Reply Unit)) : Prop :=
  ∃ (attached : List (NodeId × NodeId)) (next : NodeId) (rest : List NodeId) (υ τ : Store),
    reply = some (.error .arenaFull, τ) ∧ sources = attached.map Prod.fst ++ next :: rest ∧
    (∀ copied ∈ attached, ρ.fits slot copied.1 = true) ∧
    Receives ρ σ υ owner slot (σ.childrenIn owner slot) [] attached [] ∧ ρ.CutShort next υ τ

section Sources

variable {sources rest : List NodeId} {reply : Option (Reply Unit)}

lemma AppendsCopies.cons (hfit : ρ.fits slot x = true) (hρ : ρ.Forest) (hυ : υ.Forest)
    (hx : ρ.Allocated x) (howner : σ.Allocated owner)
    (first : Receives ρ σ υ owner slot (σ.childrenIn owner slot) [] [(x, copy)] [])
    (h : AppendsCopies ρ υ owner slot rest reply) :
    AppendsCopies ρ σ owner slot (x :: rest) reply := by
  obtain ⟨attached, loose, answer, τ, hreply, hattached, hreceives, hend⟩ := h
  rw [first.childrenIn_eq] at hreceives
  refine ⟨(x, copy) :: attached, loose, answer, τ, hreply, ?_, ?_, ?_⟩
  · rw [List.takeWhile_cons_of_pos hfit, List.map_cons, hattached]
  · exact first.cons hρ hυ hx howner hreceives
  · rwa [List.dropWhile_cons_of_pos hfit]

lemma RunsShort.cons (hfit : ρ.fits slot x = true) (hρ : ρ.Forest) (hυ : υ.Forest)
    (hx : ρ.Allocated x) (howner : σ.Allocated owner)
    (first : Receives ρ σ υ owner slot (σ.childrenIn owner slot) [] [(x, copy)] [])
    (h : RunsShort ρ υ owner slot rest reply) : RunsShort ρ σ owner slot (x :: rest) reply := by
  obtain ⟨attached, next, behind, φ, τ, hreply, rfl, hfits, hreceives, hshort⟩ := h
  rw [first.childrenIn_eq] at hreceives
  refine ⟨(x, copy) :: attached, next, behind, φ, τ, hreply, rfl,
    List.forall_mem_cons.mpr ⟨hfit, hfits⟩, ?_, hshort⟩
  exact first.cons hρ hυ hx howner hreceives

end Sources

end DeclTree.Store
