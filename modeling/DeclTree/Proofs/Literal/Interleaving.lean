import DeclTree.Literal.Parallel
import DeclTree.Proofs.Literal.Numbering

/-!
# Interleaved interning

However the steps of clients that share a pool interleave, their calls come to what they come to one
after the other, in the order in which they took effect.  The number of a text depends on the texts
entered before it, `LiteralId.among`, and the two ways in which a call may take effect give this
number: a lookup that finds the text, and an insertion, `Client.Step.id_eq`.  That the text may have
come in since the lookup of the same call makes no difference, as the insertion looks again.

So each step keeps `Sharing.Progress`, and a run does: at any time the pool records the calls that
have taken effect, and each of these got the number that its text has then and ever after.
-/

namespace DeclTree.Literal

variable {pool pool' : LiteralPool} {entries : List (String × String)}

/-! ## The number of an entry -/

/-- The order of the elements has no part in how many distinct ones there are. -/
lemma length_eraseDups_of_perm {xs ys : List String} (h : xs.Perm ys) :
    xs.eraseDups.length = ys.eraseDups.length := by
  have hmem : ∀ x, x ∈ xs.eraseDups ↔ x ∈ ys.eraseDups := fun x => by
    rw [List.mem_eraseDups, List.mem_eraseDups, h.mem_iff]
  exact ((List.perm_ext_iff_of_nodup (nodup_eraseDups xs) (nodup_eraseDups ys)).mpr hmem).length_eq

/-- The number of a text of a file among texts that have been entered. -/
def LiteralId.among (entries : List (String × String)) (entry : String × String) : LiteralId :=
  .ofIndex ((textsFor entry.1 entries).eraseDups.idxOf entry.2)

lemma LiteralId.among_append {entry : String × String} (h : entry ∈ entries)
    (later : List (String × String)) : among (entries ++ later) entry = among entries entry := by
  rw [among, idxOf_textsFor_append (mem_textsFor.mpr h), among]

lemma LiteralId.among_concat (entry : String × String) :
    among (entries ++ [entry]) entry = among entries entry := by
  rw [among, idxOf_textsFor_concat, among]

/-- A number that does not fit a word is the largest word. -/
lemma LiteralId.toNat_ofIndex_eq_min (index : Nat) :
    (LiteralId.ofIndex index).raw.toNat = min (index + 1) (UInt32.size - 1) := by
  have hlast : Text.Offset.last.toNat = UInt32.size - 1 := rfl
  by_cases h : index + 1 < UInt32.size
  · rw [LiteralId.toNat_ofIndex h]
    omega
  · rw [LiteralId.ofIndex, Text.Offset.clamp, Text.Offset.ofNat?, dif_neg h, Option.getD_none,
      hlast]
    omega

namespace LiteralPool

/-- Two pools answer alike. -/
structure Agrees (pool pool' : LiteralPool) : Prop where
  lookup : ∀ file text, pool.lookup file text = pool'.lookup file text
  literals : ∀ file, pool.literals file = pool'.literals file
  count : ∀ file, pool.count file = pool'.count file
  fileCount : pool.fileCount = pool'.fileCount

namespace Records

variable (h : pool.Records entries)
include h

lemma agrees (h' : pool'.Records entries) : pool.Agrees pool' where
  lookup file text := by rw [h.lookup_eq, h'.lookup_eq]
  literals file := by rw [h.literals_eq, h'.literals_eq]
  count file := by rw [h.count_eq, h'.count_eq]
  fileCount := by rw [h.fileCount_eq, h'.fileCount_eq]

lemma lookup_eq_among {entry : String × String} (hentry : entry ∈ entries) :
    pool.lookup entry.1 entry.2 = some (.among entries entry) := by
  rw [h.lookup_eq, if_pos (mem_textsFor.mpr hentry)]
  rfl

lemma eq_among_of_lookup {file text : String} {id : LiteralId}
    (hid : pool.lookup file text = some id) :
    (file, text) ∈ entries ∧ id = .among entries (file, text) := by
  rw [h.lookup_eq] at hid
  split at hid
  · next hmem =>
    cases hid
    exact ⟨mem_textsFor.mp hmem, rfl⟩
  · cases hid

/-- The numbers of a file are those from 1 to the number of its texts, as far as words go. -/
lemma exists_lookup_iff (file : String) (k : UInt32) :
    (∃ text, pool.lookup file text = some ⟨k⟩) ↔ 1 ≤ k.toNat ∧ k.toNat ≤ pool.count file := by
  rw [h.count_eq]
  constructor
  · rintro ⟨text, hk⟩
    obtain ⟨hmem, hnumber⟩ := h.eq_among_of_lookup hk
    have hplace := List.idxOf_lt_length_of_mem (List.mem_eraseDups.mpr (mem_textsFor.mpr hmem))
    have hraw := congrArg (·.raw.toNat) hnumber
    simp only [LiteralId.among, LiteralId.toNat_ofIndex_eq_min] at hraw
    have hsize : UInt32.size = 4294967296 := rfl
    omega
  · rintro ⟨hpos, hle⟩
    have hlt : k.toNat - 1 < (textsFor file entries).eraseDups.length := by omega
    refine ⟨(textsFor file entries).eraseDups[k.toNat - 1], ?_⟩
    have hmem := List.mem_eraseDups.mp (List.getElem_mem hlt)
    rw [h.lookup_eq, if_pos hmem, (nodup_eraseDups _).idxOf_getElem]
    refine congrArg (fun raw => some (LiteralId.mk raw)) (UInt32.toNat_inj.mp ?_)
    show (LiteralId.ofIndex (k.toNat - 1)).raw.toNat = k.toNat
    have hk := k.toNat_lt_size
    rw [LiteralId.toNat_ofIndex_eq_min]
    omega

/-- The literals of a file are its texts, each once. -/
lemma stored {file : String} {texts : List String} (htexts : pool.literals file = some texts) :
    texts.Nodup ∧ ∀ text, text ∈ texts ↔ (file, text) ∈ entries := by
  rw [h.literals_eq] at htexts
  split at htexts
  · cases htexts
  · cases htexts
    exact ⟨nodup_eraseDups _, fun text => List.mem_eraseDups.trans mem_textsFor⟩

lemma length_literals {file : String} {texts : List String}
    (htexts : pool.literals file = some texts) : texts.length = pool.count file := by
  rw [h.literals_eq] at htexts
  rw [h.count_eq]
  split at htexts
  · cases htexts
  · cases htexts
    rfl

/-- One client interning one text after the other. -/
lemma internAll (later : List (String × String)) :
    (pool.internAll later).2.Records (entries ++ later) := by
  induction later generalizing pool entries with
  | nil =>
    rw [List.append_nil]
    exact h
  | cons entry later ih =>
    have hrest := ih (h.intern entry.1 entry.2).2
    rwa [List.append_assoc] at hrest

end Records

lemma internAll_concat (pool : LiteralPool) (entries : List (String × String))
    (entry : String × String) : pool.internAll (entries ++ [entry]) =
      ((pool.internAll entries).1 ++ [((pool.internAll entries).2.intern entry.1 entry.2).1],
        ((pool.internAll entries).2.intern entry.1 entry.2).2) := by
  induction entries generalizing pool with
  | nil => rfl
  | cons first entries ih =>
    simp only [List.cons_append, LiteralPool.internAll, ih]

end LiteralPool

/-! ## One step -/

namespace Client

/-- All that a client has been asked to intern. -/
def asked (client : Client) : List (String × String) :=
  client.answered.map Prod.fst ++ client.waiting

namespace Step

variable {client client' : Client} {answer : Option ((String × String) × LiteralId)}
  (h : client.Step pool answer pool' client')
include h

lemma waiting_eq : client.waiting = answer.toList.map Prod.fst ++ client'.waiting := by
  cases h <;> rfl

lemma answered_eq : client'.answered = client.answered ++ answer.toList := by
  cases h <;> simp

lemma asked_eq : client'.asked = client.asked := by
  rw [asked, asked, h.answered_eq, h.waiting_eq, List.map_append, List.append_assoc]

/-- The pool records the call that the step answers. -/
lemma records (hpool : pool.Records entries) :
    pool'.Records (entries ++ answer.toList.map Prod.fst) := by
  cases h with
  | @found file text _ _ _ hid =>
    exact hpool.again (mem_textsFor.mpr (hpool.eq_among_of_lookup hid).1)
  | missing =>
    rw [Option.toList_none, List.map_nil, List.append_nil]
    exact hpool
  | @inserted _ file text _ _ _ hid =>
    have hnext := (hpool.insertIfAbsent file text).2
    rwa [hid] at hnext

/-- Whether it was found or inserted, a text gets its number among those entered so far. -/
lemma id_eq (hpool : pool.Records entries) : ∀ a ∈ answer, a.2 = .among entries a.1 := by
  cases h with
  | found hid =>
    rintro _ ⟨⟩
    exact (hpool.eq_among_of_lookup hid).2
  | missing => nofun
  | @inserted _ file text _ _ _ hid =>
    rintro _ ⟨⟩
    have hnumber := (hpool.insertIfAbsent file text).1
    rwa [hid] at hnumber

end Step

end Client

namespace Sharing

variable {s : Sharing} {work : List (List (String × String))} {history : List Effect}

/-! ## Any number of steps -/

/-- What the calls of one client were answered, in the order in which they took effect. -/
def answersTo (i : Nat) (history : List Effect) : List ((String × String) × LiteralId) :=
  (history.filter (·.client = i)).map fun e => (e.entry, e.id)

/-- The clients on their way, from a pool that recorded `entries`. -/
structure Progress (pool : LiteralPool) (entries : List (String × String))
    (work : List (List (String × String))) (history : List Effect) (s : Sharing) : Prop where
  /-- The pool records the calls that have taken effect. -/
  records : s.pool.Records (entries ++ history.map Effect.entry)
  /-- Each got the number of its text. -/
  ids : ∀ e ∈ history, e.id = .among (entries ++ history.map Effect.entry) e.entry
  /-- These numbers are those that one client would have got. -/
  sequential : (pool.internAll (history.map Effect.entry)).1 = history.map Effect.id
  /-- Each client keeps to its texts. -/
  asked : s.clients.map Client.asked = work
  /-- Each client was answered what took effect. -/
  answers : ∀ {i : Nat} {client}, s.clients[i]? = some client →
    client.answered = answersTo i history
  /-- What has taken effect and what has not make up the work. -/
  shares : (history.map Effect.entry ++ s.clients.flatMap Client.waiting).Perm work.flatten

lemma progress_start (hpool : pool.Records entries) (work : List (List (String × String))) :
    Progress pool entries work [] (start pool work) where
  records := by
    rw [List.map_nil, List.append_nil]
    exact hpool
  ids := nofun
  sequential := rfl
  asked := by simp [start, Client.asked, Client.start, Function.comp_def]
  answers := by
    intro i client hclient
    obtain ⟨texts, -, rfl⟩ := List.mem_map.mp (List.mem_of_getElem? hclient)
    rfl
  shares := by simp [start, Client.start, List.flatMap_map, List.flatMap_id']

/-- The call that a step answers takes effect. -/
def effects (before : List Client) (answer : Option ((String × String) × LiteralId)) :
    List Effect :=
  answer.toList.map fun a => ⟨before.length, a.1, a.2⟩

@[simp] lemma map_entry_effects (before : List Client)
    (answer : Option ((String × String) × LiteralId)) :
    (effects before answer).map Effect.entry = answer.toList.map Prod.fst := by
  simp [effects]

lemma answersTo_effects (i : Nat) (history : List Effect) (before : List Client)
    (answer : Option ((String × String) × LiteralId)) :
    answersTo i (history ++ effects before answer) =
      answersTo i history ++ if before.length = i then answer.toList else [] := by
  cases answer with
  | none => simp [effects]
  | some a =>
    rw [answersTo, List.filter_append, List.map_append]
    congr 1
    by_cases hi : before.length = i <;> simp [effects, hi]

section Step

variable {before after : List Client} {client client' : Client}
  {answer : Option ((String × String) × LiteralId)} {next : LiteralPool}

/-- **A step of one client keeps what holds of all.** -/
lemma Progress.step (hpool : pool.Records entries)
    (h : Progress pool entries work history ⟨pool', before ++ client :: after⟩)
    (hstep : client.Step pool' answer next client') :
    Progress pool entries work (history ++ effects before answer)
      ⟨next, before ++ client' :: after⟩ where
  records := by
    have hnext := hstep.records h.records
    rwa [List.append_assoc, ← map_entry_effects before, ← List.map_append] at hnext
  ids := by
    intro e he
    rw [List.map_append, ← List.append_assoc, map_entry_effects]
    rcases List.mem_append.mp he with hold | hnew
    · rw [LiteralId.among_append (List.mem_append_right _ (List.mem_map_of_mem hold))]
      exact h.ids e hold
    · obtain ⟨a, ha, rfl⟩ := List.mem_map.mp hnew
      obtain rfl := Option.mem_toList.mp ha
      exact (hstep.id_eq h.records a rfl).trans (LiteralId.among_concat a.1).symm
  sequential := by
    cases answer with
    | none => simpa [effects] using h.sequential
    | some a =>
      have hnumber := hstep.id_eq h.records a rfl
      have hnumber' := ((hpool.internAll (history.map Effect.entry)).intern a.1.1 a.1.2).1
      rw [List.map_append, map_entry_effects, List.map_append]
      show (pool.internAll (_ ++ [a.1])).1 = _ ++ [a.2]
      rw [LiteralPool.internAll_concat, h.sequential, hnumber', hnumber]
      rfl
  asked := by
    have hasked := h.asked
    simp only [List.map_append, List.map_cons, hstep.asked_eq] at hasked ⊢
    exact hasked
  answers := by
    intro i other hother
    have hset : before ++ client' :: after =
        (before ++ client :: after).set before.length client' := by
      simp
    rw [hset, List.getElem?_set] at hother
    rw [answersTo_effects]
    split at hother
    · next hi =>
      subst hi
      have hclient : (before ++ client :: after)[before.length]? = some client := by simp
      obtain rfl : client' = other := by simpa using hother
      rw [if_pos rfl, hstep.answered_eq, h.answers hclient]
    · next hi =>
      rw [if_neg hi, List.append_nil]
      exact h.answers hother
  shares := by
    have hshares := h.shares
    simp only [List.flatMap_append, List.flatMap_cons, hstep.waiting_eq, List.map_append,
      map_entry_effects, List.append_assoc] at hshares ⊢
    refine List.Perm.trans ?_ hshares
    exact (List.perm_append_comm_assoc _ _ _).append_left _

end Step

/-- **However the steps interleave, what holds of all clients is kept.** -/
theorem Run.progress (hpool : pool.Records entries) (h : (start pool work).Run history s) :
    Progress pool entries work history s := by
  induction h with
  | refl => exact progress_start hpool work
  | step _ hstep ih => exact ih.step hpool hstep

/-! ## To the end -/

section End

variable {s₀ : Sharing} {before after : List Client}

/-- A client that is alone gets an answer, whether its last lookup found nothing or it has still to
make one. -/
lemma Run.answer {entry : String × String} {rest : List (String × String)} {missed : Bool}
    {answered : List ((String × String) × LiteralId)}
    (h : s₀.Run history ⟨pool, before ++ ⟨entry :: rest, missed, answered⟩ :: after⟩) :
    ∃ history' pool' answered',
      s₀.Run (history ++ history') ⟨pool', before ++ ⟨rest, false, answered'⟩ :: after⟩ := by
  have hinsert : ∀ {history : List Effect},
      s₀.Run history ⟨pool, before ++ ⟨entry :: rest, true, answered⟩ :: after⟩ →
      ∃ history' pool' answered',
        s₀.Run (history ++ history') ⟨pool', before ++ ⟨rest, false, answered'⟩ :: after⟩ :=
    fun hmissed => ⟨_, _, _, hmissed.step (.inserted rfl)⟩
  cases missed with
  | true => exact hinsert h
  | false =>
    cases hlookup : pool.lookup entry.1 entry.2 with
    | some id => exact ⟨_, _, _, h.step (.found hlookup)⟩
    | none =>
      have hmissed := h.step (.missing hlookup)
      rw [Option.toList_none, List.map_nil, List.append_nil] at hmissed
      exact hinsert hmissed

lemma Run.answer_all {waiting : List (String × String)} {missed : Bool}
    {answered : List ((String × String) × LiteralId)}
    (h : s₀.Run history ⟨pool, before ++ ⟨waiting, missed, answered⟩ :: after⟩) :
    ∃ history' pool' client, client.waiting = [] ∧
      s₀.Run (history ++ history') ⟨pool', before ++ client :: after⟩ := by
  induction waiting generalizing history pool missed answered with
  | nil => exact ⟨[], pool, _, rfl, by rwa [List.append_nil]⟩
  | cons entry rest ih =>
    obtain ⟨history₁, pool₁, answered₁, hfirst⟩ := h.answer
    obtain ⟨history₂, pool₂, client, hnone, hrest⟩ := ih hfirst
    rw [List.append_assoc] at hrest
    exact ⟨_, pool₂, client, hnone, hrest⟩

/-- One client after the other can be brought to its end. -/
lemma Run.exists_ended {clients : List Client} (hbefore : ∀ client ∈ before, client.waiting = [])
    (h : s₀.Run history ⟨pool, before ++ clients⟩) :
    ∃ history' s', s₀.Run (history ++ history') s' ∧ s'.Ended := by
  induction clients generalizing history pool before with
  | nil =>
    rw [List.append_nil] at h
    exact ⟨[], ⟨pool, before⟩, by rwa [List.append_nil], hbefore⟩
  | cons client clients ih =>
    obtain ⟨history₁, pool₁, client', hnone, hfirst⟩ := h.answer_all
    have hbefore' : ∀ client ∈ before ++ [client'], client.waiting = [] := by
      simpa [or_imp, forall_and, hnone] using hbefore
    obtain ⟨history₂, s', hrest, hended⟩ := ih hbefore' (by rwa [List.append_assoc])
    rw [List.append_assoc] at hrest
    exact ⟨_, s', hrest, hended⟩

end End

/-! ## What the clients see -/

/-- Clients share a pool that was used by `earlier` requests, and `history` has taken effect. -/
structure Agreement (earlier : List Request) (work : List (List (String × String)))
    (history : List Effect) (s : Sharing) : Prop where
  /-- Each client interns its texts in its order and gets what took effect. -/
  clients : s.clients.map Client.asked = work ∧
    ∀ {i : Nat} {client}, s.clients[i]? = some client → client.answered = answersTo i history
  /-- The numbers are those that one client gets which interns the texts in the order in which the
  calls took effect. -/
  sequential :
    ((LiteralPool.empty.after earlier).internAll (history.map Effect.entry)).1 =
      history.map Effect.id
  /-- The pool answers like the pool of that client. -/
  pool_agrees : s.pool.Agrees
    ((LiteralPool.empty.after earlier).internAll (history.map Effect.entry)).2
  /-- The numbers that were given are found. -/
  lookup : ∀ e ∈ history, s.pool.lookup e.entry.1 e.entry.2 = some e.id
  /-- Calls with the same file and text got the same number. -/
  same : ∀ e ∈ history, ∀ e' ∈ history, e.entry = e'.entry → e.id = e'.id
  /-- The numbers of a file are those from 1 to the number of its literals. -/
  numbers : ∀ file (k : UInt32),
    (∃ text, s.pool.lookup file text = some ⟨k⟩) ↔ 1 ≤ k.toNat ∧ k.toNat ≤ s.pool.count file
  /-- These are the texts entered for the file, each stored once. -/
  stored : ∀ file, s.pool.count file =
      (textsFor file (enteredBy earlier ++ history.map Effect.entry)).eraseDups.length ∧
    ∀ {texts}, s.pool.literals file = some texts →
      texts.length = s.pool.count file ∧ texts.Nodup ∧
      ∀ text, text ∈ texts ↔ (file, text) ∈ enteredBy earlier ++ history.map Effect.entry
  /-- While there are fewer literals of each file than words, a number leads back to its text. -/
  answers : (∀ file, s.pool.count file < UInt32.size - 1) →
    s.pool.Answers (enteredBy earlier ++ history.map Effect.entry)
  /-- In the end all calls have taken effect. -/
  ended : s.Ended → (history.map Effect.entry).Perm work.flatten ∧ ∀ file, s.pool.count file =
    (textsFor file (enteredBy earlier ++ work.flatten)).eraseDups.length
  /-- No client ever waits for another. -/
  continues : ∃ history' s',
    (start (LiteralPool.empty.after earlier) work).Run (history ++ history') s' ∧ s'.Ended

/-- **Clients that share a pool agree.**  In every interleaving of their lookups and insertions they
get the numbers that one client gets which interns the texts in the order in which the calls take
effect. -/
theorem run_agrees_with_sequential {earlier : List Request}
    (h : (start (LiteralPool.empty.after earlier) work).Run history s) :
    Agreement earlier work history s := by
  have hpool : (LiteralPool.empty.after earlier).Records (enteredBy earlier) :=
    LiteralPool.records_empty.after earlier
  have hprogress := h.progress hpool
  have hrecords := hprogress.records
  have hlookup : ∀ e ∈ history, s.pool.lookup e.entry.1 e.entry.2 = some e.id := by
    intro e he
    rw [hprogress.ids e he]
    exact hrecords.lookup_eq_among (List.mem_append_right _ (List.mem_map_of_mem he))
  refine {
    clients := ⟨hprogress.asked, hprogress.answers⟩
    sequential := hprogress.sequential
    pool_agrees := hrecords.agrees (hpool.internAll _)
    lookup := hlookup
    same := ?_
    numbers := hrecords.exists_lookup_iff
    stored := ?_
    answers := ?_
    ended := ?_
    continues := Run.exists_ended (List.forall_mem_nil _) h }
  · intro e he e' he' hentry
    have hboth := hlookup e he
    rw [hentry, hlookup e' he'] at hboth
    exact (Option.some.inj hboth).symm
  · intro file
    refine ⟨hrecords.count_eq file, fun {texts} htexts => ⟨?_, hrecords.stored htexts⟩⟩
    rw [hrecords.length_literals htexts]
  · intro hfew
    exact hrecords.answers fun file => (hrecords.count_eq file).symm ▸ hfew file
  · intro hended
    have hperm := hprogress.shares
    rw [List.flatMap_eq_nil_iff.mpr hended, List.append_nil] at hperm
    refine ⟨hperm, fun file => ?_⟩
    rw [hrecords.count_eq]
    exact length_eraseDups_of_perm ((hperm.append_left _).filterMap _)

/-- The first client does not find its text, and before it inserts it, the second client has done
so, and has interned another. -/
theorem run_agrees_with_sequential_of_overtaking : ∃ (s : Sharing) (history : List Effect),
    (start (LiteralPool.empty.after []) [[("F", "x")], [("F", "x"), ("F", "y")]]).Run history s ∧
    s.Ended ∧ history.map Effect.client = [1, 1, 0] ∧
    history.map Effect.entry = [("F", "x"), ("F", "y"), ("F", "x")] ∧
    history.map Effect.id = [⟨1⟩, ⟨2⟩, ⟨1⟩] ∧ s.pool.count "F" = 2 ∧
    s.pool.lookup "F" "x" = some ⟨1⟩ ∧ s.pool.lookup "F" "y" = some ⟨2⟩ := by
  obtain ⟨pool, hstart⟩ : ∃ pool, pool = LiteralPool.empty.after [] := ⟨_, rfl⟩
  have hpool : pool.Records [] := hstart ▸ LiteralPool.records_empty
  rw [← hstart]
  -- the insertions, in the order in which they are made
  obtain ⟨hx, hpool₁⟩ := hpool.insertIfAbsent "F" "x"
  rcases hinsert₁ : pool.insertIfAbsent "F" "x" with ⟨x, pool₁⟩
  rw [hinsert₁] at hx hpool₁
  obtain ⟨hy, hpool₂⟩ := hpool₁.insertIfAbsent "F" "y"
  rcases hinsert₂ : pool₁.insertIfAbsent "F" "y" with ⟨y, pool₂⟩
  rw [hinsert₂] at hy hpool₂
  obtain ⟨hx', -⟩ := hpool₂.insertIfAbsent "F" "x"
  rcases hinsert₃ : pool₂.insertIfAbsent "F" "x" with ⟨x', pool₃⟩
  rw [hinsert₃] at hx'
  -- the first client looks, the second one makes both of its calls, the first one goes on
  have hrun : (start pool [[("F", "x")], [("F", "x"), ("F", "y")]]).Run []
      ⟨pool, [] ++ .start [("F", "x")] :: [.start [("F", "x"), ("F", "y")]]⟩ := .refl
  have hrun : Run _ []
      ⟨pool, [⟨[("F", "x")], true, []⟩] ++ .start [("F", "x"), ("F", "y")] :: []⟩ :=
    hrun.step (.missing (hpool.lookup_eq "F" "x"))
  have hrun := (hrun.step (.missing (hpool.lookup_eq "F" "x"))).step (.inserted hinsert₁)
  have hrun := (hrun.step (.missing (hpool₁.lookup_eq "F" "y"))).step (.inserted hinsert₂)
  have hrun : Run _ _ ⟨pool₂, [] ++ ⟨[("F", "x")], true, []⟩ :: _⟩ := hrun
  have hrun := hrun.step (.inserted hinsert₃)
  obtain rfl : x = ⟨1⟩ := hx
  obtain rfl : y = ⟨2⟩ := hy
  obtain rfl : x' = ⟨1⟩ := hx'
  have hagree := run_agrees_with_sequential (hstart ▸ hrun)
  refine ⟨_, _, hrun, ?_, rfl, rfl, rfl, hagree.stored "F" |>.1, ?_, ?_⟩
  · simp [Ended]
  · exact hagree.lookup ⟨1, ("F", "x"), ⟨1⟩⟩ (by simp)
  · exact hagree.lookup ⟨1, ("F", "y"), ⟨2⟩⟩ (by simp)

end Sharing

end DeclTree.Literal
