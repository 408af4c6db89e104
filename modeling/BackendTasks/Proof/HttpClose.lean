import BackendTasks.Proof.HttpBody
import BackendTasks.Proof.HttpResponse

/-!
# What a response says about the connection

`to_string` writes "Connection: close" into every response (`announces_route`), but `handle_client`
ends the connection when the *request* says so (`ends_iff`).

* `keepsWord_iff`: so the two agree over a whole session just when the session has at most one
  request, which says "Connection: close".
-/

namespace BackendTasks.HttpServer

open Net

variable {limits : Limits} {read : Bytes} {reads before : List Bytes} {request : HttpRequest}
  {entries : List (HttpRequest × Bytes)} {entry : HttpRequest × Bytes}

/-- The response has the header "Connection: close". -/
def Announces (bytes : Bytes) : Prop :=
  ∃ reading, readResponse bytes = some reading ∧ (ascii "Connection", ascii "close") ∈ reading.fields

/-- After these reads the connection is over: nothing that could be read then makes a difference. -/
def Ends (limits : Limits) (reads : List Bytes) : Prop :=
  ∀ more, handleClient limits (reads ++ more) = handleClient limits reads

/-- Whenever a read is answered, the connection is over just when the answer says so. -/
def KeepsWord (limits : Limits) (reads : List Bytes) : Prop :=
  ∀ before read after, reads = before ++ read :: after →
    ∀ entries entry, handleClient limits (before ++ [read]) = (entries ++ [entry], none) →
      entries.length = before.length → (Ends limits (before ++ [read]) ↔ Announces entry.2)

/-! ## The responses -/

theorem route_type (request : HttpRequest) : 13 ∉ (route request).contentType := by
  unfold route
  split
  · exact (by decide : 13 ∉ ascii "text/plain")
  · split
    · exact (by decide : 13 ∉ ascii "application/json")
    · exact (by decide : 13 ∉ ascii "text/plain")

/-- **Every response says that the connection is closed.** -/
theorem announces_route (request : HttpRequest) : Announces (route request).toString :=
  ⟨_, readResponse_toString _ (route_type request), by simp [HttpResponse.fields]⟩

/-! ## The session -/

theorem handleClient_closes (hread : read ≠ []) (hparse : parseRequest limits read = .ok request)
    (hcloses : request.closes = true) (reads : List Bytes) :
    handleClient limits (read :: reads) = ([(request, (route request).toString)], none) := by
  have hlen : read.length ≠ 0 := fun h => hread (List.length_eq_zero_iff.1 h)
  simp only [handleClient, if_neg hlen, hparse, if_pos hcloses]

theorem handleClient_open (hread : read ≠ []) (hparse : parseRequest limits read = .ok request)
    (hopen : request.closes = false) (reads : List Bytes) :
    handleClient limits (read :: reads) =
      ((request, (route request).toString) :: (handleClient limits reads).1,
        (handleClient limits reads).2) := by
  have hlen : read.length ≠ 0 := fun h => hread (List.length_eq_zero_iff.1 h)
  have hcloses : ¬ request.closes = true := by simp [hopen]
  simp only [handleClient, if_neg hlen, hparse, if_neg hcloses]

/-- What the first read does to a session that answers something and does not throw. -/
theorem handleClient_cons (h : handleClient limits (read :: reads) = (entries, none)) (hne : entries ≠ []) :
    ∃ request, read ≠ [] ∧ parseRequest limits read = .ok request ∧
      (request.closes = true ∧ entries = [(request, (route request).toString)] ∨
        request.closes = false ∧ ∃ more, handleClient limits reads = (more, none) ∧
          entries = (request, (route request).toString) :: more) := by
  by_cases hread : read = []
  · subst hread
    exact absurd (Prod.mk.inj h).1.symm hne
  have hlen : read.length ≠ 0 := fun h => hread (List.length_eq_zero_iff.1 h)
  cases hparse : parseRequest limits read with
  | error e =>
    rw [handleClient, if_neg hlen, hparse] at h
    exact absurd (Prod.mk.inj h).1.symm hne
  | ok request =>
    refine ⟨request, hread, rfl, ?_⟩
    cases hcloses : request.closes with
    | true =>
      rw [handleClient_closes hread hparse hcloses] at h
      exact .inl ⟨rfl, (Prod.mk.inj h).1.symm⟩
    | false =>
      rw [handleClient_open hread hparse hcloses] at h
      obtain ⟨hentries, herror⟩ := Prod.mk.inj h
      exact .inr ⟨rfl, _, Prod.ext rfl herror, hentries.symm⟩

/-- **When the connection is over**: just when the request of the last read said so. -/
theorem ends_iff (h : handleClient limits (before ++ [read]) = (entries ++ [entry], none))
    (hlen : entries.length = before.length) :
    Ends limits (before ++ [read]) ↔ entry.1.closes = true := by
  induction before generalizing entries with
  | nil =>
    obtain rfl := List.length_eq_zero_iff.1 hlen
    obtain ⟨request, hread, hparse, hcase⟩ := handleClient_cons h (List.cons_ne_nil _ _)
    rcases hcase with ⟨hcloses, hentry⟩ | ⟨hopen, more, -, hentry⟩
    · obtain rfl := (List.cons.inj hentry).1
      refine iff_of_true (fun more => ?_) hcloses
      rw [List.nil_append, List.singleton_append, handleClient_closes hread hparse hcloses,
        handleClient_closes hread hparse hcloses]
    · obtain rfl := (List.cons.inj hentry).1
      refine iff_of_false (fun hends => ?_) (by simp [hopen])
      -- the same read once more would be answered again
      have hmore := congrArg (fun result => result.1.length) (hends [read])
      rw [List.nil_append, List.singleton_append, handleClient_open hread hparse hopen,
        handleClient_open hread hparse hopen] at hmore
      simp [handleClient] at hmore
  | cons first before ih =>
    obtain ⟨e, entries, rfl⟩ := List.exists_cons_of_length_eq_add_one hlen
    obtain ⟨request, hread, hparse, hcase⟩ := handleClient_cons h (by simp)
    rcases hcase with ⟨-, hentry⟩ | ⟨hopen, more, hmore, hentry⟩
    · simp at hentry
    · obtain ⟨rfl, rfl⟩ := List.cons.inj hentry
      rw [← ih hmore (Nat.succ_inj.1 hlen)]
      have hcons := handleClient_open hread hparse hopen
      constructor
      · intro hends after
        have hafter := hends after
        rw [List.cons_append, List.cons_append, hcons, hcons] at hafter
        obtain ⟨hanswers, herror⟩ := Prod.mk.inj hafter
        exact Prod.ext (List.cons.inj hanswers).2 herror
      · intro hends after
        rw [List.cons_append, List.cons_append, hcons, hcons, hends after]

/-- A request that does not say "Connection: close" is answered as if it did. -/
theorem not_keepsWord (hread : read ≠ []) (hparse : parseRequest limits read = .ok request)
    (hopen : request.closes = false) (reads : List Bytes) : ¬ KeepsWord limits (read :: reads) := by
  intro h
  have hanswer : handleClient limits ([] ++ [read]) =
      ([] ++ [(request, (route request).toString)], none) := handleClient_open hread hparse hopen []
  have hends := (h [] read reads rfl [] _ hanswer rfl).2 (announces_route request)
  have hcloses := (ends_iff hanswer rfl).1 hends
  rw [hopen] at hcloses
  simp at hcloses

/-- **When the server keeps its word**: just when nothing is read, or what is read first is empty, or
makes `parse_request` throw, or says "Connection: close". -/
theorem keepsWord_iff (limits : Limits) (reads : List Bytes) :
    KeepsWord limits reads ↔
      ∀ read after, reads = read :: after → read ≠ [] →
        ∀ request, parseRequest limits read = .ok request → request.closes = true := by
  constructor
  · rintro h read after rfl hread request hparse
    by_contra hcloses
    exact not_keepsWord hread hparse (by simpa using hcloses) after h
  · intro h before read after hreads entries entry hanswer hlen
    rw [ends_iff hanswer hlen]
    cases before with
    | nil =>
      obtain rfl := List.length_eq_zero_iff.1 hlen
      obtain ⟨request, hread, hparse, hcase⟩ := handleClient_cons hanswer (List.cons_ne_nil _ _)
      have hcloses := h read after hreads hread request hparse
      rcases hcase with ⟨-, hentry⟩ | ⟨hopen, -⟩
      · obtain rfl := (List.cons.inj hentry).1
        exact iff_of_true hcloses (announces_route request)
      · rw [hcloses] at hopen
        simp at hopen
    | cons first before =>
      -- the first request has closed the connection, so nothing after it is answered
      obtain ⟨e, entries, rfl⟩ := List.exists_cons_of_length_eq_add_one hlen
      obtain ⟨request, hread, hparse, hcase⟩ := handleClient_cons hanswer (by simp)
      have hcloses := h first _ hreads hread request hparse
      rcases hcase with ⟨-, hentry⟩ | ⟨hopen, -⟩
      · simp at hentry
      · rw [hcloses] at hopen
        simp at hopen

/-- **A promise that is not kept.** Two requests on one connection: the answer to the first says that
the connection is closed, and the second is read and answered. -/
theorem promise_broken :
    (handleClient usual
      [ascii "GET /hello HTTP/1.1\r\n\r\n", ascii "GET /json HTTP/1.1\r\n\r\n"]).1.length = 2 ∧
    ¬ KeepsWord usual
      [ascii "GET /hello HTTP/1.1\r\n\r\n", ascii "GET /json HTTP/1.1\r\n\r\n"] := by
  have hasked : asked usual (ascii "GET /hello HTTP/1.1\r\n\r\n") = some 0 :=
    asked_eq_some.2 (.inl ⟨by decide, rfl⟩)
  have hparse := parseRequest_ok_iff.2 ⟨0, hasked, rfl⟩
  have hopen := (closes_eq hparse).trans (by decide : closing _ = false)
  exact ⟨by decide, not_keepsWord (by decide) hparse hopen _⟩

end BackendTasks.HttpServer
