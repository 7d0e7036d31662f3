import Mathlib.Data.List.Induction
import Mathlib.Data.List.Nodup
import DeclTree.CompilationUnit.Basic
import DeclTree.Literal.Constant

/-!
# The numbers of literals

The pool of a file holds its literals twice: in a table that tells the number of a text, and in
the list of the texts in the order of their numbers.  At every time both say the same,
`FilePool.Lists`: the list is that of the distinct texts in the order in which they were first
entered, and the number of each is its place in the list.

`LiteralPool.Records` says so of the pools of all files after a history of entries.  One entry
keeps it, `Records.insertIfAbsent`, and so does a lookup that finds the text,
`Records.again`; with a run of requests the history grows by what they enter, `Records.after`.
What the pools answer can then be read off the history: `LiteralPool.answers_after`.
-/

namespace DeclTree.Literal

/-! ## Distinct elements in order -/

section Distinct

variable {α : Type} [BEq α] [LawfulBEq α] {x : α}

lemma eraseDups_concat (xs : List α) (x : α) :
    (xs ++ [x]).eraseDups = if x ∈ xs then xs.eraseDups else xs.eraseDups ++ [x] := by
  rw [List.eraseDups_append]
  by_cases hx : x ∈ xs <;> simp [List.removeAll, List.eraseDups_cons, hx]

lemma nodup_eraseDups (xs : List α) : xs.eraseDups.Nodup := by
  induction xs using List.reverseRecOn with
  | nil => exact List.nodup_nil
  | append_singleton xs x ih =>
    rw [eraseDups_concat]
    split
    · exact ih
    · next hx =>
      rw [List.nodup_append]
      refine ⟨ih, List.nodup_singleton x, fun y hy z hz => ?_⟩
      rintro rfl
      rw [List.mem_singleton] at hz
      subst hz
      exact hx (List.mem_eraseDups.mp hy)

lemma length_eraseDups_le (xs : List α) : xs.eraseDups.length ≤ xs.length := by
  induction xs using List.reverseRecOn with
  | nil => exact Nat.le_refl 0
  | append_singleton xs x ih =>
    rw [eraseDups_concat, List.length_append, List.length_singleton]
    split
    · exact Nat.le_succ_of_le ih
    · rw [List.length_append, List.length_singleton]
      exact Nat.succ_le_succ ih

/-- The place of an element among the distinct ones is the number of distinct elements in front of
its first occurrence. -/
lemma idxOf_eraseDups (xs : List α) (x : α) :
    xs.eraseDups.idxOf x = (xs.takeWhile (· != x)).eraseDups.length := by
  have hfront : x ∉ xs.takeWhile (· != x) := by
    intro hx
    have hne := List.all_eq_true.mp (List.all_takeWhile (p := (· != x)) (l := xs)) x hx
    simp at hne
  have hfront' : x ∉ (xs.takeWhile (· != x)).eraseDups := fun hx =>
    hfront (List.mem_eraseDups.mp hx)
  have hsplit := List.takeWhile_append_dropWhile (p := (· != x)) (l := xs)
  have hhead := List.head?_dropWhile_not (· != x) xs
  cases hback : xs.dropWhile (· != x) with
  | nil =>
    rw [hback, List.append_nil] at hsplit
    rw [hsplit] at hfront' ⊢
    exact List.idxOf_eq_length hfront'
  | cons y back =>
    rw [hback] at hhead hsplit
    obtain rfl : y = x := by simpa using hhead
    have hfresh : (y :: back).removeAll (xs.takeWhile (· != y)) =
        y :: back.removeAll (xs.takeWhile (· != y)) := by
      simp [List.cons_removeAll, hfront]
    conv_lhs => rw [← hsplit]
    rw [List.eraseDups_append, hfresh, List.eraseDups_cons,
      List.idxOf_append_of_notMem hfront', List.idxOf_cons_self, Nat.add_zero]

end Distinct

/-! ## One file -/

lemma LiteralId.toNat_ofIndex {index : Nat} (h : index + 1 < UInt32.size) :
    (LiteralId.ofIndex index).raw.toNat = 1 + index := by
  rw [LiteralId.ofIndex, Text.Offset.toNat_clamp h, Nat.add_comm]

namespace FilePool

variable {own : FilePool} {texts : List String}

/-- The table and the list of the pool say the same: these texts, numbered by their places. -/
structure Lists (own : FilePool) (texts : List String) : Prop where
  texts_eq : own.texts.toList = texts
  ids_eq : ∀ text, own.ids[text]? =
    if text ∈ texts then some (LiteralId.ofIndex (texts.idxOf text)) else none

lemma lists_empty : FilePool.empty.Lists [] where
  texts_eq := rfl
  ids_eq _ := by simp [FilePool.empty]

/-- A text that is there gets its number, and one that is not goes to the end. -/
lemma Lists.insert (h : own.Lists texts) (text : String) :
    (own.insert text).1 = LiteralId.ofIndex (texts.idxOf text) ∧
    (own.insert text).2.Lists (if text ∈ texts then texts else texts ++ [text]) := by
  have hid := h.ids_eq text
  by_cases hmem : text ∈ texts
  · rw [if_pos hmem] at hid
    rw [FilePool.insert, hid, if_pos hmem]
    exact ⟨rfl, h⟩
  · rw [if_neg hmem] at hid
    have hsize : own.texts.size = texts.idxOf text := by
      rw [List.idxOf_eq_length hmem, ← h.texts_eq, Array.length_toList]
    rw [FilePool.insert, hid, if_neg hmem, hsize]
    refine ⟨rfl, ⟨by simp [h.texts_eq], fun other => ?_⟩⟩
    simp only [Std.HashMap.getElem?_insert, h.ids_eq other, beq_iff_eq]
    by_cases hother : text = other
    · subst hother
      rw [if_pos rfl, if_pos (by simp), List.idxOf_append_of_notMem hmem,
        List.idxOf_eq_length hmem, List.idxOf_cons_self, Nat.add_zero]
    · rw [if_neg hother]
      by_cases hin : other ∈ texts
      · rw [if_pos hin, if_pos (List.mem_append_left _ hin), List.idxOf_append_of_mem hin]
      · have hout : other ∉ texts ++ [text] := by
          simp [hin, Ne.symm hother]
        rw [if_neg hin, if_neg hout]

end FilePool

/-! ## All files -/

/-- The texts entered for a file, in order and with repetitions. -/
def textsFor (file : String) (entries : List (String × String)) : List String :=
  entries.filterMap fun entry => if entry.1 = file then some entry.2 else none

lemma textsFor_append (file : String) (entries later : List (String × String)) :
    textsFor file (entries ++ later) = textsFor file entries ++ textsFor file later :=
  List.filterMap_append

lemma textsFor_singleton (file : String) (entry : String × String) :
    textsFor file [entry] = if entry.1 = file then [entry.2] else [] := by
  by_cases h : entry.1 = file <;> simp [textsFor, h]

lemma length_textsFor_le (file : String) (entries : List (String × String)) :
    (textsFor file entries).length ≤ entries.length :=
  List.length_filterMap_le _ entries

lemma mem_textsFor {file text : String} {entries : List (String × String)} :
    text ∈ textsFor file entries ↔ (file, text) ∈ entries := by
  simp [textsFor, List.mem_filterMap]

/-- Entries behind a text do not move it. -/
lemma idxOf_textsFor_append {file text : String} {entries : List (String × String)}
    (hmem : text ∈ textsFor file entries) (later : List (String × String)) :
    (textsFor file (entries ++ later)).eraseDups.idxOf text =
      (textsFor file entries).eraseDups.idxOf text := by
  rw [textsFor_append, List.eraseDups_append,
    List.idxOf_append_of_mem (List.mem_eraseDups.mpr hmem)]

/-- A text gets its place among the texts of before, as a new text comes last. -/
lemma idxOf_textsFor_concat (file text : String) (entries : List (String × String)) :
    (textsFor file (entries ++ [(file, text)])).eraseDups.idxOf text =
      (textsFor file entries).eraseDups.idxOf text := by
  rw [textsFor_append, textsFor_singleton, if_pos rfl, eraseDups_concat]
  split
  · rfl
  · next hnew =>
    have hout : text ∉ (textsFor file entries).eraseDups := fun hin =>
      hnew (List.mem_eraseDups.mp hin)
    rw [List.idxOf_append_of_notMem hout, List.idxOf_cons_self, List.idxOf_eq_length hout,
      Nat.add_zero]

/-- What is entered for one file does not count for another. -/
lemma textsFor_eq_nil_iff {file : String} {entries : List (String × String)} :
    textsFor file entries = [] ↔ file ∉ entries.map Prod.fst := by
  constructor
  · intro hnil hmem
    obtain ⟨entry, hentry, rfl⟩ := List.mem_map.mp hmem
    have hnone := List.filterMap_eq_nil_iff.mp hnil entry hentry
    simp at hnone
  · intro hout
    refine List.filterMap_eq_nil_iff.mpr fun entry hentry => if_neg ?_
    rintro rfl
    exact hout (List.mem_map_of_mem hentry)

namespace LiteralPool

variable {pool : LiteralPool} {entries : List (String × String)}

/-- The pools hold what was entered, in this order. -/
structure Records (pool : LiteralPool) (entries : List (String × String)) : Prop where
  files_eq_none_iff : ∀ file, pool.files[file]? = none ↔ textsFor file entries = []
  lists : ∀ file, (pool.files[file]?.getD FilePool.empty).Lists (textsFor file entries).eraseDups

lemma records_empty : LiteralPool.empty.Records [] where
  files_eq_none_iff _ := by simp [LiteralPool.empty, textsFor]
  lists _ := by simpa [LiteralPool.empty, textsFor] using FilePool.lists_empty

namespace Records

/-- A file without a pool is like one with an empty pool. -/
lemma lookup_eq (h : pool.Records entries) (file text : String) :
    pool.lookup file text =
      if text ∈ textsFor file entries then
        some (LiteralId.ofIndex ((textsFor file entries).eraseDups.idxOf text))
      else none := by
  have hids := (h.lists file).ids_eq text
  simp only [List.mem_eraseDups] at hids
  rw [← hids, LiteralPool.lookup]
  cases pool.files[file]? with
  | none => simp [FilePool.empty]
  | some own => rfl

lemma literals_eq (h : pool.Records entries) (file : String) :
    pool.literals file =
      if textsFor file entries = [] then none else some (textsFor file entries).eraseDups := by
  have htexts := (h.lists file).texts_eq
  rw [LiteralPool.literals]
  split
  · next hnil => rw [(h.files_eq_none_iff file).mpr hnil, Option.map_none]
  · next hne =>
    obtain ⟨own, hown⟩ := Option.ne_none_iff_exists'.mp (mt (h.files_eq_none_iff file).mp hne)
    rw [hown, Option.getD_some] at htexts
    rw [hown, Option.map_some, htexts]

lemma count_eq (h : pool.Records entries) (file : String) :
    pool.count file = (textsFor file entries).eraseDups.length := by
  have htexts := (h.lists file).texts_eq
  rw [← htexts, LiteralPool.count]
  cases pool.files[file]? with
  | none => rfl
  | some own => rfl

/-- The files with a pool are those for which something was entered. -/
lemma fileCount_eq (h : pool.Records entries) :
    pool.fileCount = (entries.map Prod.fst).eraseDups.length := by
  have hmem : ∀ file, file ∈ pool.files.keys ↔ file ∈ (entries.map Prod.fst).eraseDups := by
    intro file
    rw [Std.HashMap.mem_keys, Std.HashMap.mem_iff_isSome_getElem?, Option.isSome_iff_ne_none,
      ne_eq, h.files_eq_none_iff, textsFor_eq_nil_iff, not_not, List.mem_eraseDups]
  have hperm : pool.files.keys.Perm (entries.map Prod.fst).eraseDups :=
    (List.perm_ext_iff_of_nodup Std.HashMap.nodup_keys (nodup_eraseDups _)).mpr hmem
  rw [LiteralPool.fileCount, ← Std.HashMap.length_keys, hperm.length_eq]

/-- An entry concerns the pool of its file only. -/
lemma concat (h : pool.Records entries) {after : LiteralPool} {file text : String} {own : FilePool}
    (hown : after.files[file]? = some own)
    (hlists : own.Lists (textsFor file entries ++ [text]).eraseDups)
    (hothers : ∀ {other}, file ≠ other → after.files[other]? = pool.files[other]?) :
    after.Records (entries ++ [(file, text)]) := by
  constructor
  · intro other
    rw [textsFor_append, textsFor_singleton]
    by_cases hother : file = other
    · subst hother
      simp [hown]
    · simpa [hother, hothers hother] using h.files_eq_none_iff other
  · intro other
    rw [textsFor_append, textsFor_singleton]
    by_cases hother : file = other
    · subst hother
      rwa [if_pos rfl, hown, Option.getD_some]
    · simpa [hother, hothers hother] using h.lists other

/-- An entry gets the place of its text, which is the end if the text is new. -/
lemma insertIfAbsent (h : pool.Records entries) (file text : String) :
    (pool.insertIfAbsent file text).1 =
      LiteralId.ofIndex ((textsFor file entries).eraseDups.idxOf text) ∧
    (pool.insertIfAbsent file text).2.Records (entries ++ [(file, text)]) := by
  obtain ⟨hid, hlists⟩ := (h.lists file).insert text
  simp only [List.mem_eraseDups] at hlists
  rw [← eraseDups_concat] at hlists
  refine ⟨hid, h.concat Std.HashMap.getElem?_insert_self hlists fun {other} hother => ?_⟩
  rw [LiteralPool.insertIfAbsent, Std.HashMap.getElem?_insert, if_neg (by simpa using hother)]

/-- An entry of a text that is there changes nothing. -/
lemma again (h : pool.Records entries) {file text : String} (hmem : text ∈ textsFor file entries) :
    pool.Records (entries ++ [(file, text)]) := by
  have hne : pool.files[file]? ≠ none := mt (h.files_eq_none_iff file).mp (List.ne_nil_of_mem hmem)
  obtain ⟨own, hown⟩ := Option.ne_none_iff_exists'.mp hne
  have hlists := h.lists file
  rw [hown, Option.getD_some] at hlists
  refine h.concat hown ?_ fun _ => rfl
  rwa [eraseDups_concat, if_pos hmem]

/-- Looking first and entering only what is missing comes to the same as entering at once. -/
lemma intern (h : pool.Records entries) (file text : String) :
    (pool.intern file text).1 =
      LiteralId.ofIndex ((textsFor file entries).eraseDups.idxOf text) ∧
    (pool.intern file text).2.Records (entries ++ [(file, text)]) := by
  have hlookup := h.lookup_eq file text
  by_cases hmem : text ∈ textsFor file entries
  · rw [if_pos hmem] at hlookup
    rw [LiteralPool.intern, hlookup]
    exact ⟨rfl, h.again hmem⟩
  · rw [if_neg hmem] at hlookup
    rw [LiteralPool.intern, hlookup]
    exact h.insertIfAbsent file text

end Records

end LiteralPool

/-! ## Runs of requests -/

/-- A use of the pools by a client. -/
inductive Request
  /-- The number of a text of a file, which is entered if it is missing. -/
  | intern (file text : String)
  /-- The constant for a text in a unit. -/
  | constant (u : CompilationUnit) (escaper : Escaper) (text : String)
  /-- The number of a text of a file, if it has one. -/
  | lookup (file text : String)

/-- The file and the text that a request enters. -/
def Request.entered : Request → List (String × String)
  | intern file text => [(file, text)]
  | constant u _ text => [(u.path, text)]
  | lookup _ _ => []

/-- What requests enter, in order. -/
def enteredBy (requests : List Request) : List (String × String) :=
  requests.flatMap Request.entered

namespace LiteralPool

variable {pool : LiteralPool} {entries : List (String × String)}

/-- The number that a request is answered with, and the pools afterwards. -/
def serve (pool : LiteralPool) : Request → Option LiteralId × LiteralPool
  | .intern file text =>
    let (id, after) := pool.intern file text
    (some id, after)
  | .constant u escaper text =>
    let (constant, after) := pool.constant escaper u.path text
    (some constant.id, after)
  | .lookup file text => (pool.lookup file text, pool)

/-- The pools after requests. -/
def after (pool : LiteralPool) (requests : List Request) : LiteralPool :=
  requests.foldl (fun pool request => (pool.serve request).2) pool

namespace Records

lemma serve (h : pool.Records entries) (request : Request) :
    (pool.serve request).2.Records (entries ++ request.entered) := by
  cases request with
  | intern file text => exact (h.intern file text).2
  | constant u escaper text => exact (h.intern u.path text).2
  | lookup file text =>
    rw [Request.entered, List.append_nil]
    exact h

/-- **Whatever clients request, the pools hold what was entered, in this order.** -/
lemma after (h : pool.Records entries) (requests : List Request) :
    (pool.after requests).Records (entries ++ enteredBy requests) := by
  induction requests generalizing pool entries with
  | nil =>
    rw [enteredBy, List.flatMap_nil, List.append_nil]
    exact h
  | cons request requests ih =>
    have hrest := ih (h.serve request)
    rwa [List.append_assoc] at hrest

lemma lookup_after (h : pool.Records entries) {file text : String}
    (hmem : text ∈ textsFor file entries) (later : List Request) :
    (pool.after later).lookup file text =
      some (LiteralId.ofIndex ((textsFor file entries).eraseDups.idxOf text)) := by
  rw [(h.after later).lookup_eq, if_pos, idxOf_textsFor_append hmem]
  rw [textsFor_append]
  exact List.mem_append_left _ hmem

/-- A number that was given is found ever after. -/
lemma lookup_after_intern (h : pool.Records entries) (file text : String) (later : List Request) :
    ((pool.intern file text).2.after later).lookup file text =
      some (pool.intern file text).1 := by
  obtain ⟨hid, hnext⟩ := h.intern file text
  have hmem : text ∈ textsFor file (entries ++ [(file, text)]) := by
    simp [mem_textsFor]
  rw [hnext.lookup_after hmem later, hid, idxOf_textsFor_concat]

end Records

/-- What the pools answer when `entries` have been entered. -/
structure Answers (pool : LiteralPool) (entries : List (String × String)) : Prop where
  /-- The number of a text is one more than the number of distinct texts entered before it. -/
  intern : ∀ file text, (pool.intern file text).1.raw.toNat =
    1 + ((textsFor file entries).takeWhile (· != text)).eraseDups.length
  /-- A constant has the number that its text has in the file of the unit. -/
  constant : ∀ (u : CompilationUnit) escaper text,
    (pool.constant escaper u.path text).1.id.raw.toNat =
      1 + ((textsFor u.path entries).takeWhile (· != text)).eraseDups.length
  /-- The number of a text is found if the text was entered. -/
  lookup : ∀ file text, pool.lookup file text =
    if text ∈ textsFor file entries then some (pool.intern file text).1 else none
  /-- The literals of a file are its distinct texts in the order of first entry. -/
  literals : ∀ file, pool.literals file =
    if textsFor file entries = [] then none else some (textsFor file entries).eraseDups
  /-- A number leads back to its text. -/
  literals_at : ∀ {file text id}, pool.lookup file text = some id →
    (pool.literals file).bind (·[id.raw.toNat - 1]?) = some text
  /-- As many literals as distinct texts. -/
  count : ∀ file, pool.count file = (textsFor file entries).eraseDups.length
  /-- As many files as have a literal. -/
  fileCount : pool.fileCount = (entries.map Prod.fst).eraseDups.length
  /-- A number that was given stays, whatever clients request afterwards. -/
  given : ∀ file text later,
    ((pool.intern file text).2.after later).lookup file text = some (pool.intern file text).1 ∧
    (((pool.intern file text).2.after later).intern file text).1 = (pool.intern file text).1
  /-- A number that is found stays, whatever clients request afterwards. -/
  kept : ∀ {file text id} later, pool.lookup file text = some id →
    (pool.after later).lookup file text = some id
  /-- Requests that enter nothing for a file change none of its answers. -/
  others : ∀ {file later}, file ∉ (enteredBy later).map Prod.fst →
    (∀ text, (pool.after later).lookup file text = pool.lookup file text ∧
      ((pool.after later).intern file text).1 = (pool.intern file text).1) ∧
    (pool.after later).literals file = pool.literals file ∧
    (pool.after later).count file = pool.count file

namespace Records

/-- Requests that enter nothing for a file leave its pool as it is. -/
lemma others (h : pool.Records entries) {file : String} {later : List Request}
    (hout : file ∉ (enteredBy later).map Prod.fst) :
    (∀ text, (pool.after later).lookup file text = pool.lookup file text ∧
      ((pool.after later).intern file text).1 = (pool.intern file text).1) ∧
    (pool.after later).literals file = pool.literals file ∧
    (pool.after later).count file = pool.count file := by
  have hafter := h.after later
  have htexts : textsFor file (entries ++ enteredBy later) = textsFor file entries := by
    rw [textsFor_append, textsFor_eq_nil_iff.mpr hout, List.append_nil]
  refine ⟨fun text => ⟨?_, ?_⟩, ?_, ?_⟩
  · rw [hafter.lookup_eq, h.lookup_eq, htexts]
  · rw [(hafter.intern file text).1, (h.intern file text).1, htexts]
  · rw [hafter.literals_eq, h.literals_eq, htexts]
  · rw [hafter.count_eq, h.count_eq, htexts]

/-- Numbers are exact while there are fewer literals than words. -/
lemma toNat_place {file : String}
    (hfew : (textsFor file entries).eraseDups.length < UInt32.size - 1) (text : String) :
    (LiteralId.ofIndex ((textsFor file entries).eraseDups.idxOf text)).raw.toNat =
      1 + ((textsFor file entries).takeWhile (· != text)).eraseDups.length := by
  have hplace : (textsFor file entries).eraseDups.idxOf text ≤
      (textsFor file entries).eraseDups.length := List.idxOf_le_length
  rw [LiteralId.toNat_ofIndex (by omega), idxOf_eraseDups]

lemma answers (h : pool.Records entries)
    (hfew : ∀ file, (textsFor file entries).eraseDups.length < UInt32.size - 1) :
    pool.Answers entries where
  intern file text := by
    rw [(h.intern file text).1, toNat_place (hfew file)]
  constant u escaper text := by
    have hid : (pool.constant escaper u.path text).1.id = (pool.intern u.path text).1 := rfl
    rw [hid, (h.intern u.path text).1, toNat_place (hfew u.path)]
  lookup file text := by
    rw [h.lookup_eq, (h.intern file text).1]
  literals := h.literals_eq
  literals_at := by
    intro file text id hid
    rw [h.lookup_eq] at hid
    split at hid
    · next hmem =>
      cases hid
      have hne : textsFor file entries ≠ [] := List.ne_nil_of_mem hmem
      rw [h.literals_eq, if_neg hne, Option.bind_some, toNat_place (hfew file),
        Nat.add_sub_cancel_left, ← idxOf_eraseDups]
      exact List.getElem?_idxOf (List.mem_eraseDups.mpr hmem)
    · cases hid
  count := h.count_eq
  fileCount := h.fileCount_eq
  given file text later := by
    have hfound := h.lookup_after_intern file text later
    refine ⟨hfound, ?_⟩
    rw [LiteralPool.intern.eq_def ((pool.intern file text).2.after later), hfound]
  kept := by
    intro file text id later hid
    rw [h.lookup_eq] at hid
    split at hid
    · next hmem => rw [h.lookup_after hmem, hid]
    · cases hid
  others := h.others

end Records

/-- **Pools number the distinct texts of each file from 1, in the order in which clients first
enter them.** -/
theorem answers_after (requests : List Request)
    (hfew : ∀ file, (textsFor file (enteredBy requests)).eraseDups.length < UInt32.size - 1) :
    (LiteralPool.empty.after requests).Answers (enteredBy requests) :=
  (records_empty.after requests).answers hfew

/-- The empty text is a literal, a unit shares the pool of its path, and another file has numbers of
its own. -/
theorem answers_after_constant : ∃ requests : List Request,
    (∀ file, (textsFor file (enteredBy requests)).eraseDups.length < UInt32.size - 1) ∧
    (LiteralPool.empty.after requests).literals "F" = some ["", "x"] ∧
    (LiteralPool.empty.after requests).literals "G" = some ["x"] ∧
    (LiteralPool.empty.after requests).literals "H" = none ∧
    ((LiteralPool.empty.after requests).intern "F" "x").1.raw.toNat = 2 ∧
    (LiteralPool.empty.after requests).fileCount = 2 := by
  let u : CompilationUnit :=
    { path := "F", mainTypeName := "A", source := "", lines := .build "", tree := .empty,
      flags := .none, imports := none }
  let requests : List Request :=
    [.intern "F" "", .lookup "H" "x", .constant u .cpp "x", .intern "G" "x", .intern "F" ""]
  have hfew : ∀ file, (textsFor file (enteredBy requests)).eraseDups.length < UInt32.size - 1 := by
    intro file
    have htexts := length_textsFor_le file (enteredBy requests)
    have hdistinct := length_eraseDups_le (textsFor file (enteredBy requests))
    have hentries : (enteredBy requests).length = 4 := rfl
    have hsize : UInt32.size - 1 = 4294967295 := rfl
    omega
  have hanswers := answers_after requests hfew
  refine ⟨requests, hfew, ?_, ?_, ?_, ?_, ?_⟩
  · exact hanswers.literals "F"
  · exact hanswers.literals "G"
  · exact hanswers.literals "H"
  · exact hanswers.intern "F" "x"
  · exact hanswers.fileCount

end LiteralPool

end DeclTree.Literal
