import BackendTasks.Net.Delimited
import BackendTasks.Proof.HttpExchange

/-!
# Responses in a stream

Every response says how long its content is, so responses that are written one after the other
delimit themselves.

* `responses_read`: whatever they are, and in whatever pieces they arrive, a client that goes by
  Content-Length gets them back, in order.
* `replies_read`: what the server has written on a connection is the responses to the requests that
  `handle_client` has parsed, but for the last one if that is still being written.
-/

namespace BackendTasks.HttpServer

open Net Sched

variable {stream rest : Bytes} {reading : Reading} {limits : Limits}

/-- The response at the beginning, if all of its content is there, and what is behind it. -/
def nextResponse : Reader Reading UInt8 := fun stream => do
  let reading ← readResponse stream
  let value ← lookup reading.fields (ascii "Content-Length")
  let length ← readDecimal value
  if length ≤ reading.body.length then
    some ({ reading with body := reading.body.take length }, reading.body.drop length)
  else none

theorem nextResponse_some (h : nextResponse stream = some (reading, rest)) :
    ∃ found length, readResponse stream = some found ∧ rest = found.body.drop length ∧
      (∀ more, nextResponse (stream ++ more) = some (reading, rest ++ more)) := by
  obtain ⟨found, hfound, h⟩ := Option.bind_eq_some_iff.1 h
  obtain ⟨value, hvalue, h⟩ := Option.bind_eq_some_iff.1 h
  obtain ⟨length, hlength, h⟩ := Option.bind_eq_some_iff.1 h
  split at h
  · rename_i hle
    cases h
    refine ⟨found, length, hfound, rfl, fun more => ?_⟩
    have hmore : length ≤ (found.body ++ more).length := by
      rw [List.length_append]
      omega
    simp only [nextResponse, readResponse_more hfound more, Option.bind_eq_bind, Option.bind_some,
      hvalue, hlength, if_pos hmore, List.take_append_of_le_length hle,
        List.drop_append_of_le_length hle]
  · simp at h

theorem nextResponse_steady : Steady nextResponse where
  more h t := by
    obtain ⟨-, -, -, -, hmore⟩ := nextResponse_some h
    exact hmore t
  shorter h := by
    obtain ⟨found, length, hfound, rfl, -⟩ := nextResponse_some h
    have hlen := length_readResponse hfound
    rw [List.length_drop]
    omega

/-- What a client reads of a response. -/
def HttpResponse.tells (response : HttpResponse) : Reading :=
  ⟨response.status, response.fields, response.content⟩

theorem nextResponse_toString {response : HttpResponse} (htype : 13 ∉ response.contentType)
    (t : Bytes) : nextResponse (response.toString ++ t) = some (response.tells, t) := by
  have hread := readResponse_more (readResponse_toString response htype) t
  have hvalue : lookup response.fields (ascii "Content-Length") =
      some (toDecimal response.content.length) := by
    simp [HttpResponse.fields, lookup]
  have hlength := readDecimal_eq (isDecimal_toDecimal response.content.length)
  have hle : response.content.length ≤ (response.content ++ t).length := by simp
  simp only [nextResponse, hread, Option.bind_eq_bind, Option.bind_some, hvalue,
    hlength, if_pos hle,
    List.take_left, List.drop_left, HttpResponse.tells]

theorem tells_injective : Function.Injective HttpResponse.tells := by
  rintro ⟨status, content, contentType⟩ ⟨status', content', contentType'⟩ h
  simp only [HttpResponse.tells, HttpResponse.fields, Reading.mk.injEq, List.cons.injEq,
    Prod.mk.injEq] at h
  obtain ⟨rfl, ⟨-, ⟨-, rfl⟩, -⟩, rfl⟩ := h
  rfl

/-- **Responses are read back from a stream**, whatever their statuses and contents are and however
the stream is divided. What has arrived gives a beginning of them; and no two lists of responses
give the same stream. -/
theorem responses_read {responses : List HttpResponse}
    (htype : ∀ response ∈ responses, 13 ∉ response.contentType) :
    (∀ pieces : List Bytes, pieces.flatten <+: (responses.map HttpResponse.toString).flatten →
      (receive nextResponse [] pieces).1 <+: responses.map HttpResponse.tells ∧
      (pieces.flatten = (responses.map HttpResponse.toString).flatten →
        receive nextResponse [] pieces = (responses.map HttpResponse.tells, []))) ∧
    ∀ responses' : List HttpResponse, (∀ response ∈ responses', 13 ∉ response.contentType) →
      (responses.map HttpResponse.toString).flatten =
        (responses'.map HttpResponse.toString).flatten →
      responses = responses' := by
  refine ⟨fun pieces hpieces => ?_, fun responses' htype' heq => ?_⟩
  · exact receive_words nextResponse_steady
      (fun response hmem t => nextResponse_toString (htype response hmem) t) hpieces
  · refine List.map_injective_iff.2 tells_injective (words_inj nextResponse_steady
      (fun response hmem t => nextResponse_toString ?_ t) heq)
    rcases List.mem_append.1 hmem with hmem | hmem
    · exact htype response hmem
    · exact htype' response hmem

/-- Two responses, of which the first has a content that looks like a response. -/
def twoResponses : List HttpResponse :=
  [⟨500, ascii "HTTP/1.1 200 OK\r\n\r\n", ascii "text/plain"⟩, ⟨200, [], ascii "a b"⟩]

theorem responses_read_two :
    receive nextResponse [] [(twoResponses.map HttpResponse.toString).flatten] =
      (twoResponses.map HttpResponse.tells, []) := by
  have hpieces : [(twoResponses.map HttpResponse.toString).flatten].flatten =
      (twoResponses.map HttpResponse.toString).flatten := List.flatten_singleton
  have htype : ∀ response ∈ twoResponses, 13 ∉ response.contentType := by decide
  obtain ⟨hread, -⟩ := responses_read htype
  exact (hread _ ⟨[], by rw [hpieces, List.append_nil]⟩).2 hpieces

/-! ## What the server has written -/

theorem handleClient_written (limits : Limits) (reads : List Bytes) :
    ∀ entry ∈ (handleClient limits reads).1, entry.2 = (route entry.1).toString := by
  induction reads with
  | nil => simp [handleClient]
  | cons read reads ih =>
    by_cases hread : read = []
    · simp [handleClient, hread]
    · cases hparse : parseRequest limits read with
      | error e => simp [handleClient, hread, hparse]
      | ok request =>
        cases hcloses : request.closes with
        | true =>
          rw [handleClient_closes hread hparse hcloses]
          simp
        | false =>
          rw [handleClient_open hread hparse hcloses]
          exact List.forall_mem_cons.2 ⟨rfl, ih⟩

/-- The responses that `handle_client` writes for these reads. -/
def replies (limits : Limits) (heard : List Bytes) : List HttpResponse :=
  (handleClient limits heard).1.map fun entry => route entry.1

theorem answer_replies (limits : Limits) (heard : List Bytes) :
    answer limits heard = ((replies limits heard).map HttpResponse.toString).flatten := by
  unfold answer replies
  rw [List.map_map]
  exact congrArg List.flatten (List.map_congr_left (handleClient_written limits heard))

theorem replies_type (limits : Limits) (heard : List Bytes) :
    ∀ response ∈ replies limits heard, 13 ∉ response.contentType := by
  intro response hmem
  obtain ⟨entry, -, rfl⟩ := List.mem_map.1 hmem
  exact route_type entry.1

variable {ι : Type*} [DecidableEq ι] [Fintype ι] {text : ι → Bytes} {c : State ι}
  {ok : State ι → Thread ι × Choice ι → Prop}

/-- **What a client reads off its connection.** In every state that the server and its clients
reach, of the bytes that the server has written on a connection a beginning that arrives, in
whatever pieces, is read as a beginning of the responses to the requests that `handle_client` has
parsed there, in order. If all of the bytes arrive, these are the responses to all reads but perhaps
the last; and when everything is written, all of them. -/
theorem replies_read (h : (prog limits text).lts.ReachIf ok c) (i : ι) {pieces : List Bytes}
    (hpieces : pieces.flatten <+: (c.sh.conns i).written) :
    (receive nextResponse [] pieces).1 <+:
      (replies limits (c.sh.conns i).heard).map HttpResponse.tells ∧
    (pieces.flatten = (c.sh.conns i).written → ∀ earlier read,
      (c.sh.conns i).heard = earlier ++ [read] →
      (replies limits earlier).map HttpResponse.tells <+: (receive nextResponse [] pieces).1) ∧
    (pieces.flatten = answer limits (c.sh.conns i).heard →
      receive nextResponse [] pieces =
        ((replies limits (c.sh.conns i).heard).map HttpResponse.tells, [])) := by
  have hconn := (conns_ok h).1.conn i
  have hwritten := hconn.written
  rw [answer_replies] at hwritten ⊢
  obtain ⟨hsome, hall⟩ := (responses_read (replies_type limits _)).1 pieces (hpieces.trans hwritten)
  refine ⟨hsome, fun heq earlier read hheard => ?_, hall⟩
  have hbegun := hconn.begun earlier read hheard
  rw [answer_replies, ← heq] at hbegun
  exact receive_whole nextResponse_steady
    (fun response hmem t => nextResponse_toString (replies_type limits _ response hmem) t) hbegun

theorem replies_read_hello : ∃ c : State (Fin 1),
    (prog usual fun _ : Fin 1 => helloText).lts.Reach c ∧
    receive nextResponse [] [(c.sh.conns 0).written] = ([(route helloRequest).tells], []) := by
  obtain ⟨c, hc, hend⟩ := Lts.exists_reachIf (prog usual fun _ : Fin 1 => helloText).lts
    (fun _ _ => True) (helloOnce 0 2 15)
    (fun c => (replies usual (c.sh.conns 0).heard).map HttpResponse.tells ==
      [(route helloRequest).tells] && (c.sh.conns 0).written == answer usual (c.sh.conns 0).heard)
    (by decide +kernel)
  rw [Bool.and_eq_true, beq_iff_eq, beq_iff_eq] at hend
  obtain ⟨hreplies, hwritten⟩ := hend
  have hpieces : [(c.sh.conns 0).written].flatten = (c.sh.conns 0).written := List.flatten_singleton
  have hpre : [(c.sh.conns 0).written].flatten <+: (c.sh.conns 0).written :=
    ⟨[], by rw [hpieces, List.append_nil]⟩
  obtain ⟨-, -, hall⟩ := replies_read hc 0 hpre
  exact ⟨c, hc, by rw [hall (hpieces.trans hwritten), hreplies]⟩

end BackendTasks.HttpServer
