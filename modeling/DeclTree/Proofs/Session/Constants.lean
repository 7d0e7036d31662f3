import DeclTree.CompilationUnit.Copy
import DeclTree.Proofs.Literal.Numbering
import DeclTree.Session.Basic

/-!
# String constants of a session

A constant in generated code names a number, and where its text cannot be written inline, the number
is all that is left of the text.  So the number has to lead back to the text for as long as the
session lives, whoever interns what in the meantime.  Numbers also tell the constants of one file
apart, for a constant is written with its number in front.

A run of a session is a list of `Session.Use`s.  To the pools it is a run of requests,
`Session.literals_after`, so what is known of these carries over: `Session.faithful_after`.
-/

namespace DeclTree

namespace Literal

/-! ## Written constants -/

namespace Constant

variable {c d : Constant}

/-- A constant is written with its number in front and a comma behind the number. -/
lemma toList_display (c : Constant) : ∃ rest, c.display.toList =
    "JreString(".toList ++ (Nat.toDigits 10 c.id.raw.toNat ++ ',' :: rest) := by
  have hid : c.id.display.toList = Nat.toDigits 10 c.id.raw.toNat := by
    rw [LiteralId.display, Nat.toString_eq_ofList_toDigits, String.toList_ofList]
  cases htext : c.text with
  | escaped body =>
    refine ⟨(" \"" ++ body ++ "\")").toList, ?_⟩
    simp [display, htext, hid]
  | placeholder =>
    refine ⟨" __)".toList, ?_⟩
    simp [display, htext, hid]

/-- The digits of a number end at the first character that is none. -/
lemma takeWhile_toDigits (n : Nat) (rest : List Char) :
    (Nat.toDigits 10 n ++ ',' :: rest).takeWhile Char.isDigit = Nat.toDigits 10 n := by
  have hdigits : ∀ c ∈ Nat.toDigits 10 n, c.isDigit = true := fun c hc =>
    Nat.isDigit_of_mem_toDigits (by decide) (by decide) hc
  have hcomma : (',' :: rest).takeWhile Char.isDigit = [] := List.takeWhile_cons_of_neg (by decide)
  rw [List.takeWhile_append_of_pos hdigits, hcomma, List.append_nil]

/-- Constants that are written alike have the same number. -/
lemma id_eq_of_display_eq (h : c.display = d.display) : c.id = d.id := by
  obtain ⟨rest, hc⟩ := c.toList_display
  obtain ⟨rest', hd⟩ := d.toList_display
  rw [h, hd] at hc
  have hdigits : Nat.toDigits 10 c.id.raw.toNat = Nat.toDigits 10 d.id.raw.toNat := by
    rw [← takeWhile_toDigits c.id.raw.toNat rest, ← List.append_cancel_left hc,
      takeWhile_toDigits]
  have hraw : c.id.raw.toNat = d.id.raw.toNat :=
    calc c.id.raw.toNat = Nat.ofDigitChars 10 (Nat.toDigits 10 c.id.raw.toNat) 0 :=
          Nat.ofDigitChars_ten_toDigits.symm
      _ = Nat.ofDigitChars 10 (Nat.toDigits 10 d.id.raw.toNat) 0 := by rw [hdigits]
      _ = d.id.raw.toNat := Nat.ofDigitChars_ten_toDigits
  exact congrArg LiteralId.mk (UInt32.toNat_inj.mp hraw)

end Constant

/-! ## Pools with few literals -/

namespace LiteralPool.Records

variable {pool : LiteralPool} {entries : List (String × String)}

/-- Requests make no literals fewer. -/
lemma count_le_after (h : pool.Records entries) (requests : List Request) (file : String) :
    pool.count file ≤ (pool.after requests).count file := by
  rw [h.count_eq, (h.after requests).count_eq, textsFor_append, List.eraseDups_append,
    List.length_append]
  exact Nat.le_add_right _ _

/-- A number that is found leads back to its text, as long as numbers do not run out. -/
lemma literals_at (h : pool.Records entries) (hfew : ∀ file, pool.count file < UInt32.size - 1)
    {file text : String} {id : LiteralId} (hid : pool.lookup file text = some id) :
    1 ≤ id.raw.toNat ∧ (pool.literals file).bind (·[id.raw.toNat - 1]?) = some text := by
  have hanswers := h.answers fun file => h.count_eq file ▸ hfew file
  refine ⟨?_, hanswers.literals_at hid⟩
  rw [hanswers.lookup] at hid
  split at hid
  · obtain rfl := Option.some.inj hid
    rw [hanswers.intern]
    exact Nat.le_add_right 1 _
  · cases hid

end LiteralPool.Records

end Literal

open Literal

lemma CompilationUnit.path_of_copy {u w : CompilationUnit} (h : u.copy = some (.ok w)) :
    w.path = u.path := by
  unfold copy at h
  split at h
  · cases h
  · cases h
  · obtain rfl := Except.ok.inj (Option.some.inj h)
    rfl

namespace Session

/-! ## Runs of a session -/

/-- What a client does with a session. -/
inductive Use
  /-- The unit or the client turns to the pools itself. -/
  | request (request : Request)
  /-- The session is asked for the constant for a text in a unit. -/
  | stringConstant (u : CompilationUnit) (text : String)
  /-- A unit is classified. -/
  | classify (u : CompilationUnit) (classifier : TestCase.Classifier)

/-- A call for the constant for a text in a unit, written by an escaper. -/
structure ConstantCall where
  unit : CompilationUnit
  text : String
  escaper : Escaper

/-- The session after a use. -/
def use (s : Session) : Use → Session
  | .request request => { s with literals := (s.literals.serve request).2 }
  | .stringConstant u text => (s.stringConstant u text).2
  | .classify u classifier => (s.classifyUnit u classifier).2

/-- The session after a run. -/
def after (s : Session) (uses : List Use) : Session := uses.foldl use s

/-- If a use is a call for a constant, the call and the constant that it gets. -/
def rendered? (s : Session) : Use → Option (ConstantCall × Constant)
  | .request (.constant u escaper text) =>
    some (⟨u, text, escaper⟩, (s.literals.constant escaper u.path text).1)
  | .stringConstant u text => some (⟨u, text, s.escaper⟩, (s.stringConstant u text).1)
  | _ => none

/-- The calls for constants in a run, with the constants that they get. -/
def rendered (s : Session) : List Use → List (ConstantCall × Constant)
  | [] => []
  | use :: rest => (s.rendered? use).toList ++ (s.use use).rendered rest

variable {s : Session} {entries : List (String × String)}

/-! ### The pools of a session -/

/-- What a use asks of the pools, when the session has the given escaper. -/
def Use.requests (escaper : Escaper) : Use → List Request
  | .request asked => [asked]
  | .stringConstant u text => [.constant u escaper text]
  | .classify _ _ => []

lemma literals_use (s : Session) (use : Use) :
    (s.use use).literals = s.literals.after (use.requests s.escaper) := by
  cases use <;> rfl

lemma escaper_use (s : Session) (use : Use) : (s.use use).escaper = s.escaper := by
  cases use <;> rfl

/-- To the pools a run of the session is a run of requests. -/
lemma literals_after (s : Session) (uses : List Use) :
    (s.after uses).literals = s.literals.after (uses.flatMap (Use.requests s.escaper)) := by
  induction uses generalizing s with
  | nil => rfl
  | cons use rest ih =>
    have hrest := ih (s.use use)
    rw [escaper_use, literals_use] at hrest
    rw [List.flatMap_cons, LiteralPool.after, List.foldl_append]
    exact hrest

/-! ### Constants in a run -/

section Rendered

variable {call : ConstantCall} {c : Constant} {use : Use}

/-- A constant has the number of its text, and is written as the escaper of the call wants it. -/
lemma eq_of_rendered? (h : s.rendered? use = some (call, c)) :
    c.id = (s.literals.intern call.unit.path call.text).1 ∧
    c.text = call.escaper.render call.text ∧
    (s.use use).literals = (s.literals.intern call.unit.path call.text).2 := by
  match use, h with
  | .request (.constant u escaper text), h | .stringConstant u text, h =>
    obtain ⟨rfl, rfl⟩ := Prod.mk.inj (Option.some.inj h)
    exact ⟨rfl, rfl, rfl⟩

/-- **Whatever happens after a call, its text keeps the number that the call got.** -/
lemma lookup_of_rendered {uses : List Use} (hs : s.literals.Records entries)
    (h : (call, c) ∈ s.rendered uses) :
    (s.after uses).literals.lookup call.unit.path call.text = some c.id ∧
    c.text = call.escaper.render call.text := by
  induction uses generalizing s entries with
  | nil => exact absurd h List.not_mem_nil
  | cons use rest ih =>
    rcases List.mem_append.mp h with hfirst | hrest
    · obtain ⟨hid, htext, hnext⟩ := eq_of_rendered? (Option.mem_toList.mp hfirst)
      refine ⟨?_, htext⟩
      have hafter : (s.after (use :: rest)).literals =
          (s.use use).literals.after (rest.flatMap (Use.requests (s.use use).escaper)) :=
        (s.use use).literals_after rest
      rw [hafter, hnext, hid]
      exact hs.lookup_after_intern call.unit.path call.text _
    · have hnext := hs.after (use.requests s.escaper)
      rw [← literals_use] at hnext
      exact ih hnext hrest

section Few

variable {uses : List Use} (hs : s.literals.Records entries)
  (hfew : ∀ file, (s.after uses).literals.count file < UInt32.size - 1)
include hs hfew

/-- At an earlier moment of the run there are few literals, too. -/
lemma few_before {moment rest : List Use} (hsplit : uses = moment ++ rest) (file : String) :
    (s.after moment).literals.count file < UInt32.size - 1 := by
  have hend := hfew file
  have hmoment := hs.after (moment.flatMap (Use.requests s.escaper))
  rw [← literals_after] at hmoment
  rw [hsplit, after, List.foldl_append] at hend
  have hrest := (s.after moment).literals_after rest
  have hle := hmoment.count_le_after (rest.flatMap (Use.requests (s.after moment).escaper)) file
  rw [← hrest] at hle
  exact Nat.lt_of_le_of_lt hle hend

/-- After a run the numbers of its constants stand for their texts. -/
lemma resolves_of_rendered (h : (call, c) ∈ s.rendered uses) :
    1 ≤ c.id.raw.toNat ∧
    ((s.after uses).literals.literals call.unit.path).bind (·[c.id.raw.toNat - 1]?) =
      some call.text := by
  have hafter := hs.after (uses.flatMap (Use.requests s.escaper))
  rw [← literals_after] at hafter
  exact hafter.literals_at hfew (lookup_of_rendered hs h).1

/-- Constants of one file that are written by one escaper are written alike if and only if their
texts are equal. -/
lemma display_eq_iff_of_rendered {call' : ConstantCall} {c' : Constant}
    (h : (call, c) ∈ s.rendered uses) (h' : (call', c') ∈ s.rendered uses)
    (hescaper : call.escaper = call'.escaper) (hpath : call.unit.path = call'.unit.path) :
    c.display = c'.display ↔ call.text = call'.text := by
  obtain ⟨hid, htext⟩ := lookup_of_rendered hs h
  obtain ⟨hid', htext'⟩ := lookup_of_rendered hs h'
  constructor
  · -- the number is read off the constant, and the text is looked up under the number
    intro hdisplay
    have hsame : c.id = c'.id := Constant.id_eq_of_display_eq hdisplay
    have hback := (resolves_of_rendered hs hfew h).2
    rw [hsame, hpath, (resolves_of_rendered hs hfew h').2] at hback
    exact (Option.some.inj hback).symm
  · intro heq
    rw [hpath, heq, hid'] at hid
    have hids : c.id = c'.id := (Option.some.inj hid).symm
    have htexts : c.text = c'.text := by rw [htext, htext', hescaper, heq]
    simp only [Constant.display, hids, htexts]

end Few

end Rendered

/-- The constants of a run lead back to their texts. -/
structure Faithful (s : Session) (uses : List Use) : Prop where
  /-- At every moment after a call, its number stands for its text in the file of the unit, which is
  the file of its copies. -/
  resolves : ∀ {moment rest call c}, uses = moment ++ rest → (call, c) ∈ s.rendered moment →
    ∀ w : CompilationUnit, w.path = call.unit.path ∨ call.unit.copy = some (.ok w) →
      1 ≤ c.id.raw.toNat ∧
      ((s.after moment).literals.literals w.path).bind (·[c.id.raw.toNat - 1]?) = some call.text
  /-- A text is written inline if and only if the escaper accepts it. -/
  escaped : ∀ {call c}, (call, c) ∈ s.rendered uses → ∀ body, c.text = .escaped body ↔
    call.escaper.accepts call.text = true ∧ body = call.escaper.body call.text
  placeholder : ∀ {call c}, (call, c) ∈ s.rendered uses →
    (c.text = .placeholder ↔ call.escaper.accepts call.text = false)
  /-- In the generated code, two constants of one file are the same if and only if their texts
  are. -/
  display : ∀ {call₁ c₁ call₂ c₂}, (call₁, c₁) ∈ s.rendered uses → (call₂, c₂) ∈ s.rendered uses →
    call₁.escaper = .cpp → call₂.escaper = .cpp → call₁.unit.path = call₂.unit.path →
    (c₁.display = c₂.display ↔ call₁.text = call₂.text)

/-- **Constants can be traced back to their texts throughout every run of a session**, as long as no
file has so many literals that the numbers run out. -/
theorem faithful_after (options : SessionOptions) (escaper : Escaper) (uses : List Use)
    (hfew : ∀ file,
      ((create options escaper).after uses).literals.count file < UInt32.size - 1) :
    (create options escaper).Faithful uses where
  resolves := by
    intro moment rest call c hsplit hmem w hw
    have hpath : w.path = call.unit.path := hw.elim id CompilationUnit.path_of_copy
    have hbefore := few_before LiteralPool.records_empty hfew hsplit
    rw [hpath]
    exact resolves_of_rendered LiteralPool.records_empty hbefore hmem
  escaped := by
    intro call c hmem body
    rw [(lookup_of_rendered LiteralPool.records_empty hmem).2, Escaper.render]
    cases call.escaper.accepts call.text <;> simp [eq_comm]
  placeholder := by
    intro call c hmem
    rw [(lookup_of_rendered LiteralPool.records_empty hmem).2, Escaper.render]
    cases call.escaper.accepts call.text <;> simp
  display := by
    intro call₁ c₁ call₂ c₂ h₁ h₂ hcpp₁ hcpp₂ hpath
    exact display_eq_iff_of_rendered LiteralPool.records_empty hfew h₁ h₂
      (hcpp₁.trans hcpp₂.symm) hpath

/-- A unit, which is its own copy, asks for constants; one text cannot be written inline. -/
theorem faithful_after_copy : ∃ (u w : CompilationUnit) (uses : List Use),
    u.copy = some (.ok w) ∧
    ((create .default .cpp).rendered uses).map (fun entry => (entry.1.unit.path, entry.2.text)) =
      [("F", .placeholder), ("F", .escaped "\\\""), ("F", .placeholder)] ∧
    (create .default .cpp).Faithful uses := by
  let u : CompilationUnit :=
    { path := "F", mainTypeName := "A", source := "", lines := .build "",
      tree := CompilationUnit.emptyTree, flags := .none, imports := none }
  let uses : List Use :=
    [.stringConstant u "\x00", .request (.constant u .cpp "\""), .classify u TestCase.byName,
      .stringConstant u "\x00"]
  have hfew : ∀ file,
      ((create .default .cpp).after uses).literals.count file < UInt32.size - 1 := by
    intro file
    have hafter := LiteralPool.records_empty.after (uses.flatMap (Use.requests .cpp))
    have hcount := hafter.count_eq file
    have hdistinct := length_eraseDups_le
      (textsFor file (enteredBy (uses.flatMap (Use.requests .cpp))))
    have htexts := length_textsFor_le file (enteredBy (uses.flatMap (Use.requests .cpp)))
    have hentries : (enteredBy (uses.flatMap (Use.requests .cpp))).length = 3 := rfl
    have hsize : UInt32.size - 1 = 4294967295 := rfl
    have hpools : ((create .default .cpp).after uses).literals.count file =
        (LiteralPool.empty.after (uses.flatMap (Use.requests .cpp))).count file :=
      congrArg (LiteralPool.count · file) (literals_after _ uses)
    rw [List.nil_append] at hcount
    omega
  exact ⟨u, u, uses, rfl, by decide +kernel, faithful_after .default .cpp uses hfew⟩

end Session

end DeclTree
