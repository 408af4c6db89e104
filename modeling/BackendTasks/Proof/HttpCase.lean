import BackendTasks.Net.Recase
import BackendTasks.Proof.HttpBody

/-!
# Header names in another letter case

`parse_request` keeps the headers in a map that tells the case of names apart. So a Content-Length or
Connection header counts only as it is spelled here, and a change of case can take it away, or
bring it in.

* `ignoresCase_iff`: no change of case makes a difference just when there is nothing to take away or to
  bring in: every Content-Length, in any case, is zero, and no Connection is "close".
-/

namespace BackendTasks.HttpServer

open Net

variable {limits : Limits} {text text' name exact value target : Bytes}

/-- The requests are parsed to the same method, path, version and body, and the connection is closed
after both or after none of them; or both make `parse_request` throw. -/
def Alike (limits : Limits) (text text' : Bytes) : Prop :=
  match parseRequest limits text, parseRequest limits text' with
  | .ok request, .ok request' =>
    request.method = request'.method ∧ request.path = request'.path ∧ request.version = request'.version ∧
      request.body = request'.body ∧ request.closes = request'.closes
  | .error _, .error _ => True
  | _, _ => False

/-- The letter case of header names makes no difference. -/
def IgnoresCase (limits : Limits) (text : Bytes) : Prop :=
  ∀ text', RecasedHead isBlank text text' → Alike limits text text'

theorem isBlank_no_colon (line : Bytes) (h : isBlank line = true) : 58 ∉ line := by
  obtain rfl : line = [13] := by simpa [isBlank] using h
  decide

/-! ## What is compared -/

theorem parseRequest_error_iff :
    (∃ e, parseRequest limits text = .error e) ↔ asked limits text = none := by
  cases hasked : asked limits text with
  | none =>
    refine iff_of_true ?_ rfl
    cases hparse : parseRequest limits text with
    | error e => exact ⟨e, rfl⟩
    | ok request =>
      obtain ⟨n, hn, -⟩ := parseRequest_ok_iff.1 hparse
      rw [hasked] at hn
      simp at hn
  | some n =>
    have hparse := parseRequest_ok_iff.2 ⟨n, hasked, rfl⟩
    simp [hparse]

/-- **What a change of case can change** is how long the body is, and whether the connection is
closed. -/
theorem alike_iff (hwords : requestWords text = requestWords text')
    (hstream : afterBlank isBlank text = afterBlank isBlank text') :
    Alike limits text text' ↔
      asked limits text = asked limits text' ∧
        (asked limits text ≠ none → closing text = closing text') := by
  cases hasked : asked limits text with
  | none =>
    obtain ⟨e, hparse⟩ := parseRequest_error_iff.2 hasked
    cases hasked' : asked limits text' with
    | none =>
      obtain ⟨e', hparse'⟩ := parseRequest_error_iff.2 hasked'
      simp [Alike, hparse, hparse']
    | some n =>
      have hparse' := parseRequest_ok_iff.2 ⟨n, hasked', rfl⟩
      simp [Alike, hparse, hparse']
  | some n =>
    have hparse := parseRequest_ok_iff.2 ⟨n, hasked, rfl⟩
    cases hasked' : asked limits text' with
    | none =>
      obtain ⟨e', hparse'⟩ := parseRequest_error_iff.2 hasked'
      simp [Alike, hparse, hparse']
    | some n' =>
      have hparse' := parseRequest_ok_iff.2 ⟨n', hasked', rfl⟩
      have hbody : padded n (afterBlank isBlank text) = padded n' (afterBlank isBlank text') ↔ n = n' := by
        constructor
        · intro h
          have hlen := congrArg List.length h
          rwa [length_padded, length_padded] at hlen
        · rintro rfl
          rw [hstream]
      have hcloses := closes_eq hparse
      have hcloses' := closes_eq hparse'
      simp only [Alike, hparse, hparse']
      rw [hcloses, hcloses']
      simp [hwords, hbody]

theorem words_eq (h : RecasedHead isBlank text text') : requestWords text = requestWords text' := by
  rcases h with rfl | ⟨first, behind, behind', hfirst, rfl, rfl, -⟩
  · rfl
  · simp only [requestWords, getlines_line hfirst]

/-! ## The last header with a name -/

theorem headerValue_some (h : headerValue name text = some value) :
    ∃ v, name ++ 58 :: v ∈ headLines isBlank text ∧ trimValue v = value := by
  obtain ⟨v, hfind, rfl⟩ := Option.map_eq_some_iff.1 h
  obtain ⟨line, hline, hfield⟩ := List.exists_of_findSome?_eq_some hfind
  rw [field_eq_some.1 hfield] at hline
  exact ⟨v, List.mem_reverse.1 hline, rfl⟩

/-- When all headers with the name have one value. -/
theorem headerValue_unique {line : Bytes} (hline : line ∈ headLines isBlank text)
    (hfield : field name line = some value)
    (h : ∀ line ∈ headLines isBlank text, ∀ v, field name line = some v → v = value) :
    headerValue name text = some (trimValue value) := by
  cases hvalue : headerValue name text with
  | none =>
    rw [headerValue, Option.map_eq_none_iff, List.findSome?_eq_none_iff] at hvalue
    rw [hvalue line (List.mem_reverse.2 hline)] at hfield
    simp at hfield
  | some w =>
    obtain ⟨v, hmem, rfl⟩ := headerValue_some hvalue
    rw [h _ hmem v (field_eq_some.2 rfl)]

/-! ## Changes of case -/

/-- Whatever the change of case, a header was there, with its name in some case. -/
theorem headerValue_recased (h : RecasedHead isBlank text text') (hname : 58 ∉ name)
    (hvalue : headerValue name text' = some value) :
    ∃ key v, lowercase key = lowercase name ∧ key ++ 58 :: v ∈ headLines isBlank text ∧
      trimValue v = value := by
  obtain ⟨v, hmem, htrim⟩ := headerValue_some hvalue
  obtain ⟨line, hline, hsame⟩ := h.mem isBlank_no_colon hmem
  obtain ⟨key, hkey, rfl⟩ := hsame.symm.field hname rfl
  exact ⟨key, v, hkey, hline, htrim⟩

/-- In small letters only one header counts: the one that is spelled as it should be. -/
theorem headerValue_spell (hname : 58 ∉ name) (hcase : lowercase name ≠ name) (hexact : 58 ∉ exact)
    (hlines : headLines isBlank text' = (headLines isBlank text).map (spell target exact))
    (hvalue : headerValue name text' = some value) :
    name = exact ∧ target ∈ headLines isBlank text := by
  obtain ⟨v, hmem, -⟩ := headerValue_some hvalue
  rw [hlines] at hmem
  obtain ⟨line, hline, heq⟩ := List.mem_map.1 hmem
  obtain ⟨hexact', rfl, -⟩ := field_spell hname hcase hexact (field_eq_some.2 heq)
  exact ⟨hexact', hline⟩

/-- And that one does count. -/
theorem headerValue_target {key : Bytes} (hkey : 58 ∉ key) (hcase : lowercase exact ≠ exact)
    (hexact : 58 ∉ exact) (hmem : key ++ 58 :: value ∈ headLines isBlank text)
    (hlines : headLines isBlank text' =
      (headLines isBlank text).map (spell (key ++ 58 :: value) exact)) :
    headerValue exact text' = some (trimValue value) := by
  have htarget : spell (key ++ 58 :: value) exact (key ++ 58 :: value) = exact ++ 58 :: value := by
    rw [spell_field hkey, if_pos rfl]
  have hline : exact ++ 58 :: value ∈ headLines isBlank text' := by
    rw [hlines, ← htarget]
    exact List.mem_map_of_mem hmem
  refine headerValue_unique hline (field_eq_some.2 rfl) fun line' hline' v hv => ?_
  rw [hlines] at hline'
  obtain ⟨line, -, rfl⟩ := List.mem_map.1 hline'
  obtain ⟨-, rfl, -⟩ := field_spell hexact hcase hexact hv
  rw [htarget] at hv
  exact (divide_unique hexact hexact (field_eq_some.1 hv)).2.symm

/-- A request whose Content-Length and Connection headers make no difference. -/
structure Unaffected (text : Bytes) : Prop where
  length : ∀ key value, lowercase key = lowercase (ascii "Content-Length") →
    key ++ 58 :: value ∈ headLines isBlank text → stoul (trimValue value) = .ok 0
  close : ∀ key value, lowercase key = lowercase (ascii "Connection") →
    key ++ 58 :: value ∈ headLines isBlank text → trimValue value ≠ ascii "close"

theorem Unaffected.asked_eq (h : Unaffected text) (hrecased : RecasedHead isBlank text text') :
    asked limits text' = some 0 := by
  rw [asked_eq_some]
  cases hvalue : headerValue (ascii "Content-Length") text' with
  | none => exact .inl ⟨rfl, rfl⟩
  | some value =>
    obtain ⟨key, v, hkey, hmem, rfl⟩ := headerValue_recased hrecased (by decide) hvalue
    exact .inr ⟨_, rfl, h.length key v hkey hmem, Nat.zero_le _⟩

theorem Unaffected.closing_eq (h : Unaffected text) (hrecased : RecasedHead isBlank text text') :
    closing text' = false := by
  rw [closing, beq_eq_false_iff_ne]
  cases hvalue : headerValue (ascii "Connection") text' with
  | none => decide
  | some value =>
    obtain ⟨key, v, hkey, hmem, rfl⟩ := headerValue_recased hrecased (by decide) hvalue
    exact h.close key v hkey hmem

theorem Alike.of_recased (hrecased : RecasedHead isBlank text text') :
    Alike limits text text' ↔ asked limits text = asked limits text' ∧
      (asked limits text ≠ none → closing text = closing text') :=
  alike_iff (words_eq hrecased) (hrecased.lines isBlank_no_colon).2

/-- With all names in small letters, there is no Content-Length header and no Connection header. -/
theorem IgnoresCase.plain (h : IgnoresCase limits text) :
    asked limits text = some 0 ∧ closing text = false := by
  have hsame : ∀ line, SameHeader line (spell [] [] line) := spell_same (by simp)
  obtain ⟨text', hrecased, hlines⟩ := exists_recased isBlank_no_colon hsame text
  have hnone : ∀ {name}, 58 ∉ name → lowercase name ≠ name → name ≠ [] → headerValue name text' = none := by
    intro name hname hcase hne
    by_contra hsome
    obtain ⟨value, hvalue⟩ := Option.ne_none_iff_exists'.1 hsome
    exact hne (headerValue_spell hname hcase (by simp) hlines hvalue).1
  have hasked : asked limits text' = some 0 :=
    asked_eq_some.2 (.inl ⟨hnone (by decide) (by decide) (by decide), rfl⟩)
  have hclosing : closing text' = false := by
    rw [closing, hnone (by decide) (by decide) (by decide)]
    decide
  obtain ⟨hask, hclose⟩ := (Alike.of_recased hrecased).1 (h text' hrecased)
  rw [hasked] at hask
  exact ⟨hask, (hclose (by simp [hask])).trans hclosing⟩

/-- With one header spelled as it should be and all other names in small letters, that header counts. -/
theorem IgnoresCase.spelled (h : IgnoresCase limits text) {key : Bytes} (hexact : 58 ∉ exact)
    (hcase : lowercase exact ≠ exact) (hkey : lowercase key = lowercase exact)
    (hmem : key ++ 58 :: value ∈ headLines isBlank text) :
    ∃ text', headerValue exact text' = some (trimValue value) ∧ asked limits text' = some 0 ∧
      closing text' = false := by
  have hcolon : 58 ∉ key := mt (mem_of_lowercase (by decide) hkey).1 hexact
  have hsame : ∀ line, SameHeader line (spell (key ++ 58 :: value) exact line) := by
    refine spell_same fun name v heq hname => ?_
    rw [← (divide_unique hcolon hname heq).1, hkey]
  obtain ⟨text', hrecased, hlines⟩ := exists_recased isBlank_no_colon hsame text
  have hvalue : headerValue exact text' = some (trimValue value) :=
    headerValue_target hcolon hcase hexact hmem hlines
  obtain ⟨hask, hclosing⟩ := h.plain
  obtain ⟨hasked, hclose⟩ := (Alike.of_recased hrecased).1 (h text' hrecased)
  exact ⟨text', hvalue, hasked.symm.trans hask, (hclose (by simp [hask])).symm.trans hclosing⟩

theorem IgnoresCase.unaffected (h : IgnoresCase limits text) : Unaffected text := by
  constructor
  · intro key value hkey hmem
    obtain ⟨text', hvalue, hasked, -⟩ := h.spelled (by decide) (by decide) hkey hmem
    rcases asked_eq_some.1 hasked with ⟨hnone, -⟩ | ⟨_, hvalue', hstoul, -⟩
    · rw [hvalue] at hnone
      simp at hnone
    · rw [hvalue] at hvalue'
      rw [Option.some.inj hvalue', hstoul]
  · intro key value hkey hmem hclose
    obtain ⟨text', hvalue, -, hclosing⟩ := h.spelled (by decide) (by decide) hkey hmem
    rw [closing, hvalue, hclose] at hclosing
    exact absurd hclosing (by decide)

/-- **When the case of names makes no difference**: just when every Content-Length header, in whatever
case, reads as zero, and no Connection header says "close". -/
theorem ignoresCase_iff (limits : Limits) (text : Bytes) : IgnoresCase limits text ↔ Unaffected text := by
  refine ⟨fun h => h.unaffected, fun h text' hrecased => ?_⟩
  have hsame : RecasedHead isBlank text text := .inl rfl
  rw [Alike.of_recased hrecased, h.asked_eq hsame, h.asked_eq hrecased, h.closing_eq hsame,
    h.closing_eq hrecased]
  exact ⟨rfl, fun _ => rfl⟩

/-- Small letters, as any client may send them. -/
def smallRequest : Bytes := ascii "POST / HTTP/1.1\r\ncontent-length: 2\r\n\r\nhi"

/-- **A header that is overlooked.** In small letters, the body is lost. -/
theorem case_matters : RecasedHead isBlank smallRequest
      (ascii "POST / HTTP/1.1\r\nContent-Length: 2\r\n\r\nhi") ∧
    ¬ IgnoresCase usual smallRequest := by
  have hrecased : RecasedHead isBlank smallRequest
      (ascii "POST / HTTP/1.1\r\nContent-Length: 2\r\n\r\nhi") := by
    have hsame : SameHeader (ascii "content-length: 2\r") (ascii "Content-Length: 2\r") :=
      .inr ⟨ascii "content-length", ascii "Content-Length", ascii " 2\r", by decide, by decide, by decide,
        by decide⟩
    exact .inr ⟨ascii "POST / HTTP/1.1\r", ascii "content-length: 2\r\n\r\nhi",
      ascii "Content-Length: 2\r\n\r\nhi", by decide, by decide, by decide,
      .line (by decide) (by decide) hsame (.same (ascii "\r\nhi"))⟩
  refine ⟨hrecased, fun h => ?_⟩
  have hnone : headerValue (ascii "Content-Length") smallRequest = none := by decide
  have hvalue : headerValue (ascii "Content-Length")
      (ascii "POST / HTTP/1.1\r\nContent-Length: 2\r\n\r\nhi") = some (ascii "2") := by decide
  have hstoul : stoul (ascii "2") = .ok 2 := stoul_decimal (isDecimal_toDecimal 2) (by decide)
  have hsmall : asked usual smallRequest = some 0 := asked_eq_some.2 (.inl ⟨hnone, rfl⟩)
  have hlarge : asked usual (ascii "POST / HTTP/1.1\r\nContent-Length: 2\r\n\r\nhi") =
      some 2 := asked_eq_some.2 (.inr ⟨_, hvalue, hstoul, by decide⟩)
  have hasked := ((Alike.of_recased hrecased).1 (h _ hrecased)).1
  rw [hsmall, hlarge] at hasked
  simp at hasked

end BackendTasks.HttpServer
