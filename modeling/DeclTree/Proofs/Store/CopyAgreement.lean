import DeclTree.Proofs.Store.Identity
import DeclTree.Proofs.Store.Unfolding

/-!
# Copying from the growing store and from a snapshot of it

A copy within a store reads the store that it grows and links, while an import from a snapshot reads
one that stays as it is.  The two agree on what unfolds, because of what a copy leaves alone at any
time, `Store.Grows`: the records of before stay as they are, and new nodes hold and link to each
other only.  Whatever is read on the way is a record of before.  They agree on how far the
identifiers last, too, for both make the same copies in the same order.

`Growth.Answers` says at once that several computations answer alike and what comes of it.  It is
kept by one level of copying, `answers_copyNode`, and so by any number of them.
-/

namespace DeclTree

/-! ## Computations that answer alike -/

namespace Growth

variable {ι α β : Type} {xs : ι → Growth α} {σ : Store} {P : α → Store → Prop}
  {Q : β → Store → Prop} {E : Option (TreeError × Store) → Prop}

/-- The computations, begun on one store, all come to the same: to an answer and a store as they
should be, or, where that is allowed, to the same error and store or to nothing. -/
inductive Answers (xs : ι → Growth α) (σ : Store) (P : α → Store → Prop)
    (E : Option (TreeError × Store) → Prop) : Prop
  | ok {a : α} {τ : Store} (h : ∀ i, xs i σ = some (.ok a, τ)) (hpost : P a τ)
  | error {e : TreeError} {τ : Store} (h : ∀ i, xs i σ = some (.error e, τ))
    (hstop : E (some (e, τ)))
  | nothing (h : ∀ i, xs i σ = none) (hstop : E none)

lemma bind_of_none {x : Growth α} {f : α → Growth β} (h : x σ = none) : (x >>= f) σ = none := by
  simp only [bind, ExceptT.bind, ExceptT.mk, StateT.bind, h]
  rfl

lemma answers_pure {a : α} (h : P a σ) : Answers (fun _ : ι => pure a) σ P E :=
  .ok (fun _ => rfl) h

/-- A first step that succeeds everywhere. -/
lemma answers_bind_of_ok {f : ι → α → Growth β} {a : α} {τ : Store}
    (hx : ∀ i, xs i σ = some (.ok a, τ)) (hf : Answers (fun i => f i a) τ Q E) :
    Answers (fun i => xs i >>= f i) σ Q E := by
  cases hf with
  | ok h hpost => exact .ok (fun i => (bind_of_ok (hx i)).trans (h i)) hpost
  | error h hstop => exact .error (fun i => (bind_of_ok (hx i)).trans (h i)) hstop
  | nothing h hstop => exact .nothing (fun i => (bind_of_ok (hx i)).trans (h i)) hstop

lemma Answers.bind {f : ι → α → Growth β} (hx : Answers xs σ P E)
    (hf : ∀ a τ, P a τ → Answers (fun i => f i a) τ Q E) :
    Answers (fun i => xs i >>= f i) σ Q E := by
  cases hx with
  | ok h hpost => exact answers_bind_of_ok h (hf _ _ hpost)
  | error h hstop => exact .error (fun i => bind_of_error (h i)) hstop
  | nothing h hstop => exact .nothing (fun i => bind_of_none (h i)) hstop

lemma Answers.mono {P' : α → Store → Prop} {E' : Option (TreeError × Store) → Prop}
    (h : Answers xs σ P E) (hpost : ∀ a τ, P a τ → P' a τ) (hstops : ∀ stop, E stop → E' stop) :
    Answers xs σ P' E' := by
  cases h with
  | ok h hp => exact .ok h (hpost _ _ hp)
  | error h hstop => exact .error h (hstops _ hstop)
  | nothing h hstop => exact .nothing h (hstops _ hstop)

section Children

/-- The copying of each child keeps what holds of the children copied so far and their copies. -/
def KeepsAlong (f : ι → NodeId → Growth NodeId) (cs : List NodeId)
    (I : List NodeId → List NodeId → Store → Prop) (E : Option (TreeError × Store) → Prop) : Prop :=
  ∀ {done c rest copies σ}, cs = done ++ c :: rest → I done copies σ →
    Answers (fun i => f i c) σ (fun copy τ => I (done ++ [c]) (copies ++ [copy]) τ) E

variable {f : ι → NodeId → Growth NodeId} {I : List NodeId → List NodeId → Store → Prop}
  {cs done copies : List NodeId}

lemma answers_mapM {ahead : List NodeId} (hf : KeepsAlong f cs I E) (hcs : cs = done ++ ahead)
    (h : I done copies σ) :
    Answers (fun i => ahead.mapM (f i)) σ
      (fun more τ => more.length = ahead.length ∧ I cs (copies ++ more) τ) E := by
  induction ahead generalizing done copies σ with
  | nil =>
    obtain rfl : cs = done := by rw [hcs, List.append_nil]
    simp only [List.mapM_nil]
    refine answers_pure ⟨rfl, ?_⟩
    rwa [List.append_nil]
  | cons c ahead ih =>
    simp only [List.mapM_cons]
    refine (hf hcs h).bind fun copy τ hcopy => ?_
    refine (ih (by rw [hcs, List.append_cons]) hcopy).bind fun more υ ⟨hlength, hmore⟩ => ?_
    refine answers_pure ⟨congrArg (· + 1) hlength, ?_⟩
    rwa [List.append_cons]

/-- The children are copied in order, and what is kept on the way holds at the end. -/
lemma answers_mapChildrenM {p : Payload} (hf : KeepsAlong f p.children I E) (h : I [] [] σ) :
    Answers (fun i => p.mapChildrenM (f i)) σ (fun q τ => I p.children q.children τ) E := by
  simp only [Payload.mapChildrenM_eq]
  refine (answers_mapM hf rfl h).bind fun copies τ ⟨hlength, hcopies⟩ => answers_pure ?_
  rw [Payload.children_withChildren hlength]
  exact hcopies

end Children

end Growth

/-! ## What a copy leaves alone -/

namespace Store

variable {ρ σ τ υ : Store} {x y z : NodeId} {roots roots' : List NodeId}

/-- The store has grown by copies, and `roots` are those that no other copy holds. -/
structure Grows (σ τ : Store) (roots : List NodeId) : Prop where
  /-- No record that was there changes. -/
  kept : ∀ id n, σ.node? id = some n → τ.node? id = some n
  /-- The roots are new. -/
  fresh : ∀ {y}, y ∈ roots → σ.size ≤ y.index ∧ y.index < τ.size
  /-- A new node holds nodes from before it only. -/
  below : ∀ {y c}, σ.size ≤ y.index → c ∈ τ.children y → c.index < y.index
  /-- A new node that is no root is linked to a new node from behind it. -/
  owned : ∀ {y}, σ.size ≤ y.index → y.index < τ.size → y ∉ roots →
    ∃ link, τ.parent? y = some link ∧ y.index < link.owner.index ∧ link.owner.index < τ.size

lemma children_of_not_allocated (h : ¬ σ.Allocated y) : σ.children y = [] := by
  rw [children, payload?, node?_eq_none_iff.mpr h]
  rfl

namespace Grows

lemma size_le (h : σ.Grows τ roots) : σ.size ≤ τ.size := (retains_of_kept h.kept).size_le

lemma refl (σ : Store) : σ.Grows σ [] where
  kept := fun _ _ hn => hn
  fresh := nofun
  below := by
    intro y c hy hc
    rw [children_of_not_allocated (Nat.not_lt_of_le hy)] at hc
    cases hc
  owned := fun hle hlt => absurd hlt (Nat.not_lt_of_le hle)

/-- What grows further keeps the nodes that were new before. -/
lemma append (h : σ.Grows υ roots) (h' : υ.Grows τ roots') : σ.Grows τ (roots ++ roots') where
  kept := fun id n hn => h'.kept id n (h.kept id n hn)
  fresh := by
    intro y hy
    have hle := h.size_le
    have hle' := h'.size_le
    rcases List.mem_append.mp hy with hy | hy
    · have hnew := h.fresh hy
      omega
    · have hnew := h'.fresh hy
      omega
  below := by
    intro y c hy hc
    rcases Nat.lt_or_ge y.index υ.size with hlt | hge
    · obtain ⟨n, hn⟩ := exists_node_iff.mpr (show υ.Allocated y from hlt)
      rw [children_of_node? (h'.kept y n hn), ← children_of_node? hn] at hc
      exact h.below hy hc
    · exact h'.below hge hc
  owned := by
    intro y hle hlt hy
    rw [List.mem_append, not_or] at hy
    rcases Nat.lt_or_ge y.index υ.size with hbefore | hbehind
    · obtain ⟨link, hlink, habove, howner⟩ := h.owned hle hbefore hy.1
      obtain ⟨n, hn, hparent⟩ := exists_node_of_parent? hlink
      refine ⟨link, ?_, habove, Nat.lt_of_lt_of_le howner h'.size_le⟩
      rw [parent?_of_node? (h'.kept y n hn), hparent]
    · exact h'.owned hbehind hlt hy.2

end Grows

/-- The owner that adopts the copies is the one root then. -/
lemma Grows.adopt {p : Payload} (h : σ.Grows υ p.children) (span : Span) (room : υ.HasRoom 1) :
    σ.Grows (υ.adopt p span).2 [υ.nextId] := by
  have hsize := size_adopt room p span
  have hle := h.size_le
  have hnext : υ.nextId.index = υ.size := rfl
  refine ⟨fun id n hn => ?_, fun {y} hy => ?_, fun {y c} hy hc => ?_, fun {y} hge hlt hy => ?_⟩
  · have hold : id.index < σ.size := allocated_of_node? hn
    rw [node?_adopt_of_not_mem room, h.kept id n hn]
    · exact fun hmem => absurd (h.fresh hmem).1 (Nat.not_le_of_lt hold)
    · rintro rfl
      omega
  · obtain rfl := List.mem_singleton.mp hy
    omega
  · obtain ⟨slot, hslot⟩ := mem_children.mp hc
    rw [adopt_of_room room, childrenIn_setLinks, childrenIn_push] at hslot
    split_ifs at hslot with hself
    · rw [hself, hnext]
      exact (h.fresh (Payload.mem_children.mpr ⟨slot, hslot⟩)).2
    · exact h.below hy (mem_children.mpr ⟨slot, hslot⟩)
  · have hne : y ≠ υ.nextId := fun heq => hy (List.mem_singleton.mpr heq)
    have hbefore : y.index < υ.size := by
      have hindex : y.index ≠ υ.size := fun heq => hne (NodeId.ext_index heq)
      omega
    by_cases hchild : y ∈ p.children
    · -- the copy of a child, or what stands for it twice, is linked to the new owner
      have halloc : (υ.push ⟨p, span, none⟩ room).Allocated y := by
        rw [Allocated, size_push]
        omega
      obtain ⟨slot, hlink⟩ := parent?_setLinks_of_mem υ.nextId halloc hchild
      rw [adopt_of_room room] at hsize ⊢
      refine ⟨_, hlink, hbefore, ?_⟩
      rw [hsize]
      exact Nat.lt_succ_self υ.size
    · obtain ⟨link, hlink, habove, howner⟩ := h.owned hge hbefore hchild
      refine ⟨link, ?_, habove, by omega⟩
      rw [parent?, node?_adopt_of_not_mem room hchild hne, ← parent?, hlink]

end Store

/-! ## Level by level -/

open Store

section Copying

variable {ι : Type} {src : ι → CopySource} {depth : ι → Nat} {ρ σ τ : Store} {x : NodeId}
  {P : NodeId → Store → Prop} {E : Option (TreeError × Store) → Prop}
  {I : List NodeId → List NodeId → Store → Prop}

/-- **One level of copying**: where all see the same node, and the copies of its children answer
alike, so does the copy of the node. -/
lemma answers_copyNode {seen : Option Node} (hseen : ∀ i, ((src i).store σ).node? x = seen)
    (hunknown : seen = none → E (some (.unknownNode x, σ))) (hstart : I [] [] σ)
    (hchildren : ∀ n, seen = some n →
      Growth.KeepsAlong (fun i => copyNode (src i) (depth i)) n.payload.children I E)
    (hadopt : ∀ n q υ, seen = some n → I n.payload.children q.children υ →
      Growth.Answers (fun _ : ι => Growth.adopt q n.span) υ P E) :
    Growth.Answers (fun i => copyNode (src i) (depth i + 1) x) σ P E := by
  cases seen with
  | none => exact .error (fun i => copyNode_of_not_allocated (hseen i)) (hunknown rfl)
  | some n =>
    have hsource : ∀ i, Growth.source (src i) x σ = some (.ok n, σ) := by
      intro i
      simp only [Growth.source, node, hseen i]
    have hcopied := Growth.answers_mapChildrenM (hchildren n rfl) hstart
    simp only [copyNode]
    exact Growth.answers_bind_of_ok hsource (hcopied.bind fun q υ hq => hadopt n q υ rfl hq)

/-- The copies of the children are adopted if there is an identifier for their owner. -/
lemma answers_adopt {q : Payload} {υ : Store} (hgrows : σ.Grows υ q.children) (span : Span)
    (hadopted : ∀ copy τ, σ.Grows τ [copy] → τ.size = υ.size + 1 → P copy τ)
    (hfull : ¬ υ.HasRoom 1 → E (some (.arenaFull, υ))) :
    Growth.Answers (fun _ : ι => Growth.adopt q span) υ P E := by
  by_cases room : υ.HasRoom 1
  · have hgrown := hgrows.adopt span room
    have hsize := size_adopt room q span
    rw [adopt_of_room room] at hgrown hsize
    exact .ok (fun _ => congrArg some (adopt_of_room room q span)) (hadopted _ _ hgrown hsize)
  · exact .error (fun _ => congrArg some (adopt_of_full q span room)) (hfull room)

/-- Copies of so many nodes are stopped, for no identifier is left, and change no record that was
there. -/
def Store.Stops (σ : Store) (count : Nat) : Option (TreeError × Store) → Prop
  | some (e, τ) => e = .arenaFull ∧ τ.size = NodeId.bound ∧ ¬ σ.HasRoom count ∧
      ∀ id n, σ.node? id = some n → τ.node? id = some n
  | none => False

/-- What stops a part stops the whole. -/
lemma Store.Stops.of_part {υ : Store} {count part : Nat} {stop : Option (TreeError × Store)}
    (h : υ.Stops part stop) (hkept : ∀ id n, σ.node? id = some n → υ.node? id = some n)
    (hle : υ.size + part ≤ σ.size + count) : σ.Stops count stop := by
  match stop, h with
  | some (e, τ), ⟨he, hfull, hroom, hkept'⟩ =>
    exact ⟨he, hfull, fun room => hroom (Nat.le_trans hle room),
      fun id n hn => hkept' id n (hkept id n hn)⟩

/-- **Copies of what unfolds agree**, wherever they read it from and however deep they might go.
They succeed if there are identifiers for all copies. -/
theorem answers_of_unfoldsWithin {levels : Nat} (hx : ρ.UnfoldsWithin levels x)
    (hdepth : ∀ i, levels ≤ depth i) (hs : ∀ i, (src i).Shows ρ σ) :
    Growth.Answers (fun i => copyNode (src i) (depth i) x) σ
      (fun copy τ => σ.Grows τ [copy] ∧ τ.size = σ.size + (ρ.postOrderWithin levels x).length)
      (σ.Stops (ρ.postOrderWithin levels x).length) := by
  induction levels generalizing x σ depth with
  | zero => exact hx.elim
  | succ levels ih =>
    obtain ⟨less, rfl⟩ : ∃ less : ι → Nat, depth = fun i => less i + 1 := by
      refine ⟨fun i => depth i - 1, funext fun i => ?_⟩
      have hlevel := hdepth i
      show depth i = depth i - 1 + 1
      omega
    obtain ⟨n, hn⟩ := exists_node_iff.mpr hx.1
    have hcount : (ρ.postOrderWithin (levels + 1) x).length =
        (n.payload.children.flatMap (ρ.postOrderWithin levels)).length + 1 := by
      rw [postOrderWithin, children_of_node? hn, List.length_append, List.length_singleton]
    -- so many nodes are new when the children in `done` are copied
    refine answers_copyNode (I := fun done copies υ => σ.Grows υ copies ∧
        υ.size = σ.size + (done.flatMap (ρ.postOrderWithin levels)).length)
      (fun i => hs i x n hn) (fun hnone => absurd hnone (Option.some_ne_none n))
      ⟨Grows.refl σ, rfl⟩ ?_ ?_
    · rintro _ ⟨⟩ done c rest copies υ hsplit ⟨hgrows, hsize⟩
      have hc : c ∈ ρ.children x := by
        rw [children_of_node? hn, hsplit]
        exact List.mem_append_right done List.mem_cons_self
      -- what is read next is shown still, whatever has been copied so far
      have hcopy := ih (hx.2 c hc) (fun i => Nat.le_of_succ_le_succ (hdepth i)) fun i =>
        (hs i).of_kept hgrows.kept
      refine hcopy.mono ?_ ?_
      · rintro copy τ ⟨hcopy, hsize'⟩
        refine ⟨hgrows.append hcopy, ?_⟩
        rw [hsize', hsize, List.flatMap_append, List.length_append, List.flatMap_singleton,
          Nat.add_assoc]
      · intro stop hstop
        refine hstop.of_part hgrows.kept ?_
        rw [hcount, hsplit, hsize, List.flatMap_append, List.flatMap_cons, List.length_append,
          List.length_append]
        omega
    · rintro _ q υ ⟨⟩ ⟨hgrows, hsize⟩
      refine answers_adopt hgrows n.span (fun copy τ hcopy hsize' => ⟨hcopy, ?_⟩) fun full =>
        ⟨rfl, size_of_full full, fun room => full ?_, hgrows.kept⟩
      · rw [hsize', hsize, hcount, Nat.add_assoc]
      · rw [HasRoom, hcount] at room
        rw [HasRoom, hsize]
        omega

/-- What a copy that succeeds leaves alone, whatever it reads. -/
lemma grows_of_copyNode {src : CopySource} {depth : Nat} {copy : NodeId}
    (h : copyNode src depth x σ = some (.ok copy, τ)) : σ.Grows τ [copy] := by
  have hany : ∀ depth x σ, Growth.Answers (fun _ : Unit => copyNode src depth x) σ
      (fun copy τ => σ.Grows τ [copy]) fun _ => True := by
    intro depth
    induction depth with
    | zero => exact fun x σ => .nothing (fun _ => rfl) trivial
    | succ depth ih =>
      intro x σ
      refine answers_copyNode (I := fun _ copies υ => σ.Grows υ copies) (fun _ => rfl)
        (fun _ => trivial) (Grows.refl σ) ?_ fun n q υ _ hq =>
          answers_adopt hq n.span (fun _ _ hcopy _ => hcopy) fun _ => trivial
      intro n _ done c rest copies υ _ hgrows
      exact (ih c υ).mono (fun copy τ hcopy => hgrows.append hcopy) fun _ h => h
  cases hany depth x σ with
  | ok hok hgrows =>
    obtain ⟨heq, rfl⟩ := Prod.mk.inj (Option.some.inj ((hok ()).symm.trans h))
    obtain rfl := Except.ok.inj heq
    exact hgrows
  | error herror _ =>
    have hclash := (herror ()).symm.trans h
    cases hclash
  | nothing hnone _ =>
    have hclash := (hnone ()).symm.trans h
    cases hclash

end Copying

namespace Store

variable {σ : Store} {x : NodeId}

/-- What a copy of `x` and an import of it from a snapshot come to, if both answer `answer` and
leave `τ`. -/
structure SameCopy (σ : Store) (x : NodeId) (answer : Except TreeError NodeId) (τ : Store) :
    Prop where
  copied : σ.copySubtree x = some (answer, τ)
  imported : σ.importSubtree σ x = some (answer, τ)
  /-- No record that was there changes. -/
  kept : ∀ id n, σ.node? id = some n → τ.node? id = some n
  /-- With identifiers for all nodes, as often as they are met on the way down, the copy is made,
  and its root comes last. -/
  made : σ.HasRoom (σ.postOrder x).length →
    ∃ copy, answer = .ok copy ∧ τ.size = copy.index + 1 ∧ τ.size = σ.size + (σ.postOrder x).length
  /-- With less, all identifiers are used up. -/
  ranOut : ¬ σ.HasRoom (σ.postOrder x).length → answer = .error .arenaFull ∧ τ.size = NodeId.bound

lemma Unfolds.copies_agree (h : σ.Unfolds x) : ∃ answer τ, σ.SameCopy x answer τ := by
  have hcopies : Growth.Answers (fun growing : Bool => copyNode
      (if growing then .within else .across σ) (if growing then σ.copyDepth else σ.size + 1) x) σ
      (fun copy τ => σ.Grows τ [copy] ∧ τ.size = σ.size + (σ.postOrder x).length)
      (σ.Stops (σ.postOrder x).length) := by
    refine answers_of_unfoldsWithin h.unfoldsWithin ?_ ?_
    · rintro (_ | _)
      · exact Nat.le_succ σ.size
      · exact size_le_copyDepth σ
    · rintro (_ | _)
      · exact fun _ _ hn => hn
      · exact fun _ _ hn => hn
  cases hcopies with
  | @ok copy τ hcopy hgrown =>
    obtain ⟨hgrows, hsize⟩ := hgrown
    have hroom : σ.HasRoom (σ.postOrder x).length := by
      rw [HasRoom, ← hsize]
      exact τ.size_le_bound
    exact ⟨.ok copy, τ, hcopy true, hcopy false, hgrows.kept,
      fun _ => ⟨copy, rfl, (last_of_copyNode (hcopy true)).2, hsize⟩, fun full => absurd hroom full⟩
  | @error e τ herror hstop =>
    obtain ⟨rfl, hfull, hroom, hkept⟩ := hstop
    exact ⟨.error .arenaFull, τ, herror true, herror false, hkept, fun room => absurd room hroom,
      fun _ => ⟨rfl, hfull⟩⟩
  | nothing _ hstop => exact hstop.elim

/-- **A copy within a store agrees with an import from a snapshot of it**, on every store, for what
unfolds; on stores that clients can build, for all identifiers.  They give the copy the same
identifier and leave the same store, with all records of before in it; or the identifiers do not
last for either, and they leave the same store again; or both refuse the unknown node and change
nothing. -/
theorem copySubtree_eq_importSubtree :
    (∀ (σ : Store) (x : NodeId), σ.Unfolds x → ∃ answer τ, σ.SameCopy x answer τ) ∧
    ∀ σ : Store, σ.Reachable → ∀ x, σ.copySubtree x = σ.importSubtree σ x ∧
      (¬ σ.Allocated x → σ.copySubtree x = some (.error (.unknownNode x), σ)) := by
  refine ⟨fun σ x hx => hx.copies_agree, fun σ hσ x => ?_⟩
  by_cases hx : σ.Allocated x
  · obtain ⟨answer, τ, hcopies⟩ := (hσ.forest.unfolds hx).copies_agree
    exact ⟨hcopies.copied.trans hcopies.imported.symm, fun hunknown => absurd hx hunknown⟩
  · have hcopy := copySubtree_of_not_allocated hx
    exact ⟨hcopy.trans (importSubtree_of_not_allocated σ hx).symm, fun _ => hcopy⟩

/-- A type lists one field twice and the field is linked nowhere, which clients cannot bring about.
The field is copied twice, and the copies are members of the copy of the type.  The next store is
one that clients can build, with an identifier that it does not have; and the last one too, with a
type and its method and one identifier left. -/
theorem copySubtree_eq_importSubtree_of_shared_field : ∃ (σ ρ τ υ φ : Store), σ.Unfolds ⟨1⟩ ∧
    σ.childrenIn ⟨1⟩ .members = [⟨0⟩, ⟨0⟩] ∧ σ.copySubtree ⟨1⟩ = some (.ok ⟨4⟩, τ) ∧
    σ.importSubtree σ ⟨1⟩ = some (.ok ⟨4⟩, τ) ∧ τ.childrenIn ⟨4⟩ .members = [⟨2⟩, ⟨3⟩] ∧
    ρ.Reachable ∧ ¬ ρ.Allocated ⟨1⟩ ∧ ρ.copySubtree ⟨1⟩ = ρ.importSubtree ρ ⟨1⟩ ∧
    υ.Reachable ∧ υ.size + 1 = NodeId.bound ∧ φ.size = NodeId.bound ∧
    υ.copySubtree ⟨0⟩ = some (.error .arenaFull, φ) ∧
    υ.importSubtree υ ⟨0⟩ = some (.error .arenaFull, φ) := by
  let field : Payload := .field ⟨"x", "int"⟩
  let type (members : List NodeId) : Payload := .type ⟨.classForm, "A", ⟨"A"⟩, members⟩
  let σ : Store := ⟨#[⟨field, .dummy, none⟩, ⟨type [⟨0⟩, ⟨0⟩], .dummy, none⟩], by decide⟩
  let τ : Store := ⟨#[⟨field, .dummy, none⟩, ⟨type [⟨0⟩, ⟨0⟩], .dummy, none⟩,
    ⟨field, .dummy, some ⟨⟨4⟩, .members⟩⟩, ⟨field, .dummy, some ⟨⟨4⟩, .members⟩⟩,
    ⟨type [⟨2⟩, ⟨3⟩], .dummy, none⟩], by decide⟩
  let leaf : PlainTree := .node field .dummy []
  have hσ : σ.Unfolds ⟨1⟩ := exists_tree?_iff.mp ⟨.node (type []) .dummy [[leaf, leaf]], rfl⟩
  have hρ := Reachable.empty.step (.alloc field .dummy) nofun rfl
  have hcopy : σ.copySubtree ⟨1⟩ = some (.ok ⟨4⟩, τ) := by decide +kernel
  obtain ⟨hagree, hreachable⟩ := copySubtree_eq_importSubtree
  obtain ⟨answer, υ, hcopies⟩ := hagree σ ⟨1⟩ hσ
  obtain ⟨rfl, rfl⟩ :=
    Prod.mk.inj (Option.some.inj (hcopies.copied.symm.trans hcopy))
  obtain ⟨υ, hυ, halloc, -, hleft, full⟩ := exists_reachable_without_room
  obtain ⟨answer, φ, hshort⟩ := hagree υ ⟨0⟩ (hυ.forest.unfolds halloc)
  obtain ⟨rfl, hsize⟩ := hshort.ranOut full
  exact ⟨σ, _, τ, υ, φ, hσ, rfl, hcopy, hcopies.imported, rfl, hρ, by decide,
    (hreachable _ hρ ⟨1⟩).1, hυ, hleft, hsize, hshort.copied, hshort.imported⟩

end Store

end DeclTree
