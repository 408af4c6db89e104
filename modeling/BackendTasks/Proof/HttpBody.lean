import BackendTasks.Net.Head
import BackendTasks.Proof.HttpParse

/-!
# The body of a request

`parse_request` takes the last Content-Length header before the blank line (`headers_apply`), and as
many bytes for the body as it says; those that the text behind the blank line does not have
are zero (`parseRequest_ok_iff`). So a body was received as it is returned just when there is no
such header, or it makes `parse_request` throw, or that many bytes are there
(`parse_body_iff`).
-/

namespace BackendTasks.HttpServer

open Net

variable {limits : Limits} {text line name : Bytes} {lines : List Bytes} {acc : Bytes → Option Bytes}

/-- `"\r"`, what `getline` leaves of the line that ends the headers. -/
def isBlank (line : Bytes) : Bool := line == [13]

/-- The value of the last header with this name before the blank line. -/
def headerValue (name text : Bytes) : Option Bytes :=
  ((headLines isBlank text).reverse.findSome? (field name)).map trimValue

/-- The body is what follows the blank line, as long as the Content-Length header says, and empty
without that header. -/
def BodyReceived (text body : Bytes) : Prop :=
  match headerValue (ascii "Content-Length") text with
  | none => body = []
  | some value => stoul value = .ok body.length ∧ body <+: afterBlank isBlank text

theorem addHeader_apply (hname : 58 ∉ name) (line : Bytes) (acc : Bytes → Option Bytes) :
    addHeader acc line name = ((field name line).map trimValue).or (acc name) := by
  by_cases hcolon : 58 ∈ line
  · obtain ⟨key, value, rfl, hkey⟩ := List.eq_append_cons_of_mem hcolon
    rw [addHeader_colon hkey]
    by_cases heq : name = key
    · subst heq
      rw [field_eq_some.2 rfl]
      simp
    · have hnone : field name (key ++ 58 :: value) = none := by
        refine field_eq_none.2 fun value' h => ?_
        exact heq (divide_unique hkey hname h).1.symm
      simp [heq, hnone]
  · have hnone : field name line = none := by
      refine field_eq_none.2 fun value h => hcolon ?_
      simp [h]
    rw [addHeader, if_neg hcolon, hnone]
    rfl

/-- A later line with the name overwrites the value. -/
theorem foldl_addHeader (hname : 58 ∉ name) (lines : List Bytes) (acc : Bytes → Option Bytes) :
    lines.foldl addHeader acc name =
      ((lines.reverse.findSome? (field name)).map trimValue).or (acc name) := by
  induction lines generalizing acc with
  | nil => rfl
  | cons line lines ih =>
    rw [List.foldl_cons, ih, addHeader_apply hname, List.reverse_cons, List.findSome?_append]
    cases lines.reverse.findSome? (field name) with
    | some value => rfl
    | none => cases hfield : field name line <;> simp [hfield]

/-- The loop over the header lines. -/
theorem parseHeaders_eq (acc : Bytes → Option Bytes) (entries : List (Bytes × Bytes)) :
    parseHeaders acc entries =
      (((entries.map Prod.fst).takeWhile fun line => !isBlank line).foldl addHeader acc,
        ((entries.find? fun entry => isBlank entry.1).map Prod.snd).getD []) := by
  induction entries generalizing acc with
  | nil => rfl
  | cons entry entries ih =>
    obtain ⟨line, behind⟩ := entry
    rw [parseHeaders]
    by_cases hblank : line = [13]
    · subst hblank
      rfl
    · have hnot : isBlank line = false := by simpa [isBlank] using hblank
      rw [if_neg hblank, ih]
      simp [hnot]

/-- **The headers and the rest of the text** that `parse_request` goes on with. -/
theorem headers_apply (hname : 58 ∉ name) (text : Bytes) :
    (parseHeaders (fun _ => none) (getlines text).tail).1 name = headerValue name text ∧
      (parseHeaders (fun _ => none) (getlines text).tail).2 = afterBlank isBlank text := by
  rw [parseHeaders_eq]
  refine ⟨(foldl_addHeader hname _ _).trans ?_, rfl⟩
  rw [Option.or_none]
  rfl

/-! ## The request -/

/-- The words of the request line. -/
def requestWords (text : Bytes) : Bytes × Bytes × Bytes :=
  match getlines text with
  | [] => ([], [], [])
  | (line, _) :: _ => parseRequestLine line

/-- How many bytes the body has, if nothing throws. -/
def asked (limits : Limits) (text : Bytes) : Option ℕ :=
  match headerValue (ascii "Content-Length") text with
  | none => some 0
  | some value =>
    match stoul value with
    | .error _ => none
    | .ok n => if limits.most < n then none else some n

theorem asked_eq_some {n : ℕ} :
    asked limits text = some n ↔
      headerValue (ascii "Content-Length") text = none ∧ n = 0 ∨
        ∃ value, headerValue (ascii "Content-Length") text = some value ∧ stoul value = .ok n ∧
          n ≤ limits.most := by
  unfold asked
  cases headerValue (ascii "Content-Length") text with
  | none => simp [eq_comm]
  | some value =>
    cases hstoul : stoul value with
    | error e => simp [hstoul]
    | ok len =>
      by_cases hmax : limits.most < len
      · have hnot : ∀ m, len = m → ¬ m ≤ limits.most := fun m hm => hm ▸ Nat.not_le.2 hmax
        simpa [hstoul, hmax] using hnot n
      · have hle : len ≤ limits.most := Nat.not_lt.1 hmax
        simp only [if_neg hmax, Option.some.injEq, reduceCtorEq, false_and, false_or, exists_eq_left', hstoul,
          Except.ok.injEq]
        exact ⟨fun h => ⟨h, h ▸ hle⟩, fun h => h.1⟩

@[simp] theorem padded_zero (stream : Bytes) : padded 0 stream = [] := by simp [padded]

/-- Nothing is added just when the stream has the bytes. -/
theorem padded_iff {n : ℕ} {stream : Bytes} : padded n stream <+: stream ↔ n ≤ stream.length := by
  constructor
  · intro h
    have hle := h.length_le
    rwa [length_padded] at hle
  · intro h
    rw [padded, Nat.sub_eq_zero_of_le h, List.replicate_zero, List.append_nil]
    exact List.take_prefix n stream

/-- **What `parse_request` returns**, when it does not throw. -/
theorem parseRequest_ok_iff {request : HttpRequest} :
    parseRequest limits text = .ok request ↔
      ∃ n, asked limits text = some n ∧ request =
        ⟨(requestWords text).1, (requestWords text).2.1, (requestWords text).2.2,
          (parseHeaders (fun _ => none) (getlines text).tail).1, padded n (afterBlank isBlank text)⟩ := by
  obtain ⟨hheader, hstream⟩ := headers_apply (by decide : 58 ∉ ascii "Content-Length") text
  generalize hresult : parseHeaders (fun _ => none) (getlines text).tail = result at hheader hstream
  unfold parseRequest asked
  simp only [hresult, hheader, hstream]
  cases headerValue (ascii "Content-Length") text with
  | none =>
    simp only [Except.ok.injEq, Option.some.injEq, exists_eq_left', padded_zero]
    exact eq_comm
  | some value =>
    cases hstoul : stoul value with
    | error e => simp [hstoul]
    | ok n =>
      by_cases hmax : limits.most < n
      · obtain ⟨e, herror⟩ := readBody_error hmax (afterBlank isBlank text)
        simp [hstoul, hmax, herror]
      · simp only [hstoul, if_neg hmax, readBody_ok (Nat.not_lt.1 hmax), Except.ok.injEq,
          Option.some.injEq, exists_eq_left']
        exact eq_comm

/-- Whether the last Connection header before the blank line says "close". -/
def closing (text : Bytes) : Bool := (headerValue (ascii "Connection") text).getD [] == ascii "close"

theorem closes_eq {request : HttpRequest} (h : parseRequest limits text = .ok request) :
    request.closes = closing text := by
  obtain ⟨n, -, rfl⟩ := parseRequest_ok_iff.1 h
  have hheader := (headers_apply (by decide : 58 ∉ ascii "Connection") text).1
  simp only [HttpRequest.closes, hheader, closing]

/-- **When a body is what was received**: just when there is no Content-Length header, or its value
makes `stoul` or `resize` throw, or as many bytes as it says are behind the blank line. -/
theorem parse_body_iff (limits : Limits) (text : Bytes) :
    (∀ request, parseRequest limits text = .ok request → BodyReceived text request.body) ↔
      ∀ value n, headerValue (ascii "Content-Length") text = some value → stoul value = .ok n →
        n ≤ limits.most → n ≤ (afterBlank isBlank text).length := by
  constructor
  · intro h value n hvalue hstoul hmax
    have hasked : asked limits text = some n := asked_eq_some.2 (.inr ⟨value, hvalue, hstoul, hmax⟩)
    have hbody := h _ (parseRequest_ok_iff.2 ⟨n, hasked, rfl⟩)
    simp only [BodyReceived, hvalue] at hbody
    exact padded_iff.1 hbody.2
  · intro h request hparse
    obtain ⟨n, hasked, rfl⟩ := parseRequest_ok_iff.1 hparse
    rcases asked_eq_some.1 hasked with ⟨hnone, rfl⟩ | ⟨value, hvalue, hstoul, hmax⟩
    · simp only [BodyReceived, hnone, padded_zero]
    · have hlength := h value n hvalue hstoul hmax
      simp only [BodyReceived, hvalue, length_padded]
      exact ⟨hstoul, padded_iff.2 hlength⟩

/-- A request that announces five bytes and has two. -/
def shortRequest : Bytes := ascii "POST / HTTP/1.1\r\nContent-Length: 5\r\n\r\nhi"

/-- **A body that was not received.** -/
theorem body_padded : ∃ request, parseRequest usual shortRequest = .ok request ∧
    request.body = ascii "hi" ++ [0, 0, 0] ∧ ¬ BodyReceived shortRequest request.body := by
  have hvalue : headerValue (ascii "Content-Length") shortRequest = some (ascii "5") := by decide
  have hstoul : stoul (ascii "5") = .ok 5 := stoul_decimal (isDecimal_toDecimal 5) (by decide)
  have hafter : padded 5 (afterBlank isBlank shortRequest) = ascii "hi" ++ [0, 0, 0] := by decide
  have hasked : asked usual shortRequest = some 5 :=
    asked_eq_some.2 (.inr ⟨_, hvalue, hstoul, by decide⟩)
  refine ⟨_, parseRequest_ok_iff.2 ⟨5, hasked, rfl⟩, hafter, fun h => ?_⟩
  simp only [BodyReceived, hvalue] at h
  exact absurd (padded_iff.1 h.2) (by decide)

end BackendTasks.HttpServer
