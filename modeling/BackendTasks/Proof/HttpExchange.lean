import BackendTasks.Proof.HttpConns
import BackendTasks.Sched.Potential

/-!
# Exchanges with the HTTP server

* `exchange`: whatever the order of the steps and the sizes of the transfers, what a call of
  `http_request` returns is the beginning of what `handle_client` writes for the bytes of this
  request, and of the response to its path, if the first `read_some` gets the whole request.
* `clientCount_eq`, `clientCount_le`: `client_count` is the number of threads that handle a client,
  at most four.
-/

namespace BackendTasks.HttpServer

open Net Sched

variable {limits : Limits} {host path : Bytes}

/-! ## The request of a client -/

/-- A host and a path that are sent as they are. -/
structure Sendable (host path : Bytes) : Prop where
  path_word : IsWord path
  host_line : 10 ∉ host
  host_space : host.head? ≠ some 32

/-- The headers of the request. -/
def clientHeaders (host : Bytes) : List (Bytes × Bytes) :=
  [(ascii "Host", host), (ascii "Connection", ascii "close")]

theorem clientHeaders_ok (h : Sendable host path) :
    ∀ header ∈ clientHeaders host, IsHeader header := by
  have hname : ascii "Host" ≠ [] ∧ 58 ∉ ascii "Host" ∧ 10 ∉ ascii "Host" := by decide
  have hhost : IsHeader (ascii "Host", host) :=
    ⟨hname.1, hname.2.1, hname.2.2, h.host_line, h.host_space⟩
  have hclose : IsHeader (ascii "Connection", ascii "close") :=
    ⟨by decide, by decide, by decide, by decide, by decide⟩
  exact List.forall_mem_cons.2 ⟨hhost, List.forall_mem_singleton.2 hclose⟩

theorem clientHeaders_distinct (host : Bytes) : ((clientHeaders host).map Prod.fst).Nodup := by
  have hnames : [ascii "Host", ascii "Connection"].Nodup := by decide
  exact hnames

theorem clientHeaders_length (host : Bytes) :
    lookup (clientHeaders host) (ascii "Content-Length") = none := by
  simp [clientHeaders, lookup, ascii]

theorem clientHeaders_body (value : Bytes)
    (h : lookup (clientHeaders host) (ascii "Content-Length") = some value) :
    IsDecimal value ([] : Bytes).length := by
  rw [clientHeaders_length] at h
  simp at h

theorem get_word : IsWord (ascii "GET") := .of_all (by decide) (by decide)

/-- The request as a message. -/
def clientMessage (h : Sendable host path) : Message where
  method := ascii "GET"
  path := path
  version := ascii "HTTP/1.1"
  headers := clientHeaders host
  body := []
  method_word := get_word
  path_word := h.path_word
  version_word := http11_word
  header := clientHeaders_ok h
  distinct := clientHeaders_distinct host
  length_eq := clientHeaders_body
  no_length _ := rfl

theorem clientMessage_text (h : Sendable host path) :
    (clientMessage h).text = requestText host path := by
  simp [clientMessage, clientHeaders, Message.text, Message.requestLine, headerLines,
    requestText, ascii]

theorem requestText_ne_nil (host path : Bytes) : requestText host path ≠ [] := by
  simp [requestText, ascii]

/-- What `parse_request` makes of the request. -/
theorem parse_requestText (h : Sendable host path) :
    parseRequest limits (requestText host path) =
      .ok ⟨ascii "GET", path, ascii "HTTP/1.1", lookup (clientHeaders host), []⟩ := by
  have hheaders : parseHeaders (fun _ => none)
      (getlines (headerLines (clientMessage h).headers ++ 13 :: 10 :: (clientMessage h).body)) =
        (lookup (clientHeaders host), []) := by
    rw [parseHeaders_lines (clientMessage h).header (clientMessage h).distinct]
    simp [clientMessage]
  rw [← clientMessage_text h, parseRequest, getlines_text]
  simp only [parseRequestLine_line, List.tail_cons, hheaders, clientHeaders_length]
  rfl

/-- A whole request is answered once. -/
theorem answer_requestText (h : Sendable host path) {request : HttpRequest}
    (hpath : request.path = path)
    (more : List Bytes) :
    answer limits (requestText host path :: more) = (route request).toString := by
  have hroute : ∀ r : HttpRequest, r.path = path → route r = route request := by
    intro r hr
    unfold route
    rw [hr, hpath]
  have hcloses : (HttpRequest.mk (ascii "GET") path (ascii "HTTP/1.1") (lookup (clientHeaders host))
      []).closes = true := by
    simp [HttpRequest.closes, clientHeaders, lookup, ascii]
  unfold answer
  rw [handleClient_closes (requestText_ne_nil host path) (parse_requestText h) hcloses,
    hroute _ rfl]
  exact List.flatten_singleton

/-! ## Parts of the request -/

/-- A word that begins behind the first line end of a text, or behind a later one. -/
theorem infix_line {front behind word : Bytes} (hfront : 10 ∉ front)
    (h : 10 :: word <:+: front ++ 10 :: behind) :
    word <+: behind ∨ 10 :: word <:+: behind := by
  obtain ⟨before, after, heq⟩ := h
  rw [List.append_assoc, List.cons_append] at heq
  rcases split_line heq with ⟨more, hline, hrest⟩ | ⟨read', rfl, hbehind⟩
  · cases more with
    | nil => exact .inl ⟨after, (List.cons.inj hrest).2⟩
    | cons b more =>
      obtain rfl := (List.cons.inj hrest).1
      exact absurd (hline ▸ by simp) hfront
  · exact .inr ⟨read', after, by rw [hbehind]; simp⟩

/-- No part of the request has a Content-Length header. -/
theorem no_length_requestText (h : Sendable host path) :
    ¬ 10 :: ascii "Content-Length:" <:+: requestText host path := by
  have hpath : 10 ∉ path := fun hmem => absurd (h.path_word.solid 10 hmem) (by decide)
  have hline : requestText host path = (ascii "GET " ++ path ++ ascii " HTTP/1.1\r") ++
      10 :: ((ascii "Host: " ++ host ++ [13]) ++ 10 :: ascii "Connection: close\r\n\r\n") := by
    simp [requestText, ascii]
  rw [hline]
  intro hin
  rcases infix_line (by simp [hpath, ascii]) hin with hhost | hin
  · simp [ascii] at hhost
  · rcases infix_line (by simp [h.host_line, ascii]) hin with hclose | hin
    · exact absurd hclose (by decide)
    · exact absurd hin (by decide)

/-- **No part of the request makes `parse_request` throw.** -/
theorem parse_part (limits : Limits) (h : Sendable host path) {read : Bytes}
    (hread : read <:+: requestText host path) :
    ∃ request, parseRequest limits read = .ok request := by
  have hvalue : headerValue (ascii "Content-Length") read = none := by
    rw [headerValue, Option.map_eq_none_iff, List.findSome?_eq_none_iff]
    intro line hline
    refine field_eq_none.2 fun value hfield => ?_
    have hmem : line ∈ (getlines read).tail.map Prod.fst :=
      List.takeWhile_subset _ (List.mem_reverse.1 hline)
    obtain ⟨entry, hentry, rfl⟩ := List.mem_map.1 hmem
    have hin : 10 :: (ascii "Content-Length:" ++ value) <:+: read := by
      have hsame : ascii "Content-Length:" ++ value = entry.1 := by
        rw [hfield]
        simp [ascii]
      rw [hsame]
      exact mem_tail_getlines hentry
    have hword : 10 :: ascii "Content-Length:" <:+: read := by
      refine List.IsInfix.trans ⟨[], value, ?_⟩ hin
      simp
    exact no_length_requestText h (hword.trans hread)
  exact ⟨_, parseRequest_ok_iff.2 ⟨0, asked_eq_some.2 (.inl ⟨hvalue, rfl⟩), rfl⟩⟩

/-! ## What a client gets -/

variable {ι : Type*} [DecidableEq ι] [Fintype ι] {text : ι → Bytes} {c : State ι} {i : ι}
  {ok : State ι → Thread ι × Choice ι → Prop}

/-- The bytes of the request that the server has read are the beginning of it. -/
theorem heard_begins (h : (prog limits text).lts.ReachIf ok c) (i : ι) :
    (c.sh.conns i).heard.flatten ++ (c.sh.conns i).toServer <+: text i := by
  have hL := (conns_ok h).2 (.inl i)
  change ClientOK _ _ _ _ _ at hL
  cases hp : c.pc (.inl i) with
  | connect =>
    rw [hp] at hL
    have hnew : c.sh.conns i = .new := hL
    rw [hnew]
    exact List.nil_prefix
  | send rest =>
    rw [hp] at hL
    exact ⟨rest, hL.2.2.1⟩
  | receive =>
    rw [hp] at hL
    exact ⟨[], (List.append_nil _).trans hL.2.2.1⟩
  | leave result =>
    rw [hp] at hL
    cases result with
    | none => exact hL.2.2.sent
    | some response => exact ⟨[], (List.append_nil _).trans hL.2.sent⟩
  | returned response =>
    rw [hp] at hL
    exact ⟨[], (List.append_nil _).trans hL.2.sent⟩
  | threw =>
    rw [hp] at hL
    exact hL.2.sent
  | _ =>
    rw [hp] at hL
    exact hL.elim

/-- The first `read_some` of `handle_client` gives the whole request. -/
def Whole (text : Bytes) (c : Conn) : Prop := c.heard.head? = some text

/-- **The exchange of a request for a response.** In every state that the server and its clients
reach, `handle_client` has read the beginning of what the client sends, and has written the
beginning of what it writes for that. What `http_request` returns is not empty, at most 1024 bytes
long, and the beginning of what was written on its connection; and if the first `read_some` gave the
whole request, it is the beginning of the response to the path. -/
theorem exchange (h : (prog limits text).lts.ReachIf ok c) (i : ι) :
    (c.sh.conns i).heard.flatten <+: text i ∧
    (c.sh.conns i).written <+: answer limits (c.sh.conns i).heard ∧
    ∀ response, c.pc (.inl i) = .returned response →
      response ≠ [] ∧ response.length ≤ 1024 ∧ response <+: (c.sh.conns i).written ∧
      ∀ host path request, Sendable host path → text i = requestText host path →
        request.path = path →
        Whole (text i) (c.sh.conns i) → response <+: (route request).toString := by
  obtain ⟨hG, hT⟩ := conns_ok h
  have hwritten := (hG.conn i).written
  refine ⟨(List.prefix_append _ _).trans (heard_begins h i), hwritten, fun response hp => ?_⟩
  have hL := hT (.inl i)
  change ClientOK _ _ _ _ _ at hL
  rw [hp] at hL
  have hgot : Got (text i) (c.sh.conns i) response := hL.2
  have hbegin : response <+: (c.sh.conns i).written := ⟨_, hgot.written⟩
  refine ⟨hgot.ne_nil, hgot.length_le, hbegin, fun host path request hsend htext hpath hwhole => ?_⟩
  obtain ⟨more, hheard⟩ : ∃ more, (c.sh.conns i).heard = requestText host path :: more := by
    obtain ⟨more, hmore⟩ := List.head?_eq_some_iff.1 hwhole
    exact ⟨more, by rw [hmore, htext]⟩
  rw [hheard, answer_requestText hsend hpath] at hwritten
  exact hbegin.trans hwritten

/-- `/hello` from client `i`: it sends its request at once, thread `k` of the pool handles it, and the
client receives the first `n` bytes of the response. -/
def helloOnce (i : Fin 1) (k : Fin 4) (n : ℕ) : List (Thread (Fin 1) × Choice (Fin 1)) :=
  [(.inl i, .go), (.inl i, .bytes 51), (.inl i, .go)] ++ go (.inr none) 2 ++
    [(.inr (some k), .run i), (.inr (some k), .go), (.inr (some k), .bytes 51),
      (.inr (some k), .bytes 95)] ++
    go (.inr (some k)) 3 ++ [(.inl i, .bytes n), (.inl i, .go)]

/-- What it sends. -/
def helloText : Bytes := requestText (ascii "h") (ascii "/hello")

/-- What is made of it. -/
def helloRequest : HttpRequest :=
  ⟨ascii "GET", ascii "/hello", ascii "HTTP/1.1", lookup (clientHeaders (ascii "h")), []⟩

theorem hello_sendable : Sendable (ascii "h") (ascii "/hello") :=
  ⟨.of_all (by decide) (by decide), by decide, by decide⟩

theorem exchange_hello : ∃ c : State (Fin 1),
    (prog usual fun _ : Fin 1 => helloText).lts.Reach c ∧
    c.pc (.inl 0) = .returned (ascii "HTTP/1.1 200 OK") ∧
    ascii "HTTP/1.1 200 OK" <+: (route helloRequest).toString := by
  obtain ⟨c, hc, hend⟩ :=
    Lts.exists_reachIf (prog usual fun _ : Fin 1 => helloText).lts (fun _ _ => True)
    (helloOnce 0 2 15)
    (fun c => c.pc (.inl 0) == .returned (ascii "HTTP/1.1 200 OK") &&
      (c.sh.conns 0).heard.head? == some helloText) (by decide +kernel)
  rw [Bool.and_eq_true, beq_iff_eq, beq_iff_eq] at hend
  obtain ⟨hreturned, hwhole⟩ := hend
  obtain ⟨-, -, hresponse⟩ := exchange hc 0
  obtain ⟨-, -, -, hroute⟩ := hresponse _ hreturned
  exact ⟨c, hc, hreturned, hroute _ _ helloRequest hello_sendable rfl rfl hwhole⟩

/-! ## How many clients are handled -/

/-- The thread is between the two changes of `client_count`. -/
def Pc.counted : Pc ι → Bool
  | .read _ | .write _ _ _ | .exit _ => true
  | _ => false

omit [DecidableEq ι] [Fintype ι] in
theorem elim_counted (result : Option Bytes) :
    (result.elim .threw .returned : Pc ι).counted = false := by
  cases result <;> rfl

omit [Fintype ι] in
/-- The steps that `client_count` depends on. -/
theorem step_count {t : Thread ι} {s s' : Shared ι} {p p' : Pc ι} {x : Choice ι}
    (h : step limits text t s p x = some (s', p')) :
    s'.clientCount + (p.counted.toNat : ℤ) = s.clientCount + (p'.counted.toNat : ℤ) := by
  rcases t with i | w
  · cases clientStep_move h with
    | leave => rw [elim_counted]; rfl
    | _ => rfl
  · cases w with
    | none => cases startStep_move h <;> rfl
    | some k =>
      cases poolStep_move h with
      | enter | exit => simp [Pc.counted]
      | @written i closes => cases closes <;> rfl
      | _ => rfl

theorem clientCount_eq (h : (prog limits text).lts.ReachIf ok c) :
    c.sh.clientCount = count Pc.counted c.pc := by
  rw [count_eq_total]
  refine h.invariant
    (I := fun c => c.sh.clientCount = ((total (fun p => p.counted.toNat) c.pc : ℕ) : ℤ)) ?_ ?_
  · have hstart : ∀ t : Thread ι, ((prog limits text).start t).counted = false := by
      rintro (i | w)
      · rfl
      · cases w <;> rfl
    have hzero : total (fun p : Pc ι => p.counted.toNat) (prog limits text).start = 0 :=
      Finset.sum_eq_zero fun t _ => congrArg Bool.toNat (hstart t)
    change (0 : ℤ) = ((total (fun p : Pc ι => p.counted.toNat) (prog limits text).start : ℕ) : ℤ)
    rw [hzero]
    rfl
  · intro c a c' _ ih _ hstep
    obtain ⟨s, p, hs, rfl⟩ := Prog.plain_inv (prog_step limits text) hstep
    have hcount := step_count hs
    have htotal := total_update (fun p => p.counted.toNat) c.pc a.1 p
    dsimp only at hcount htotal ⊢
    omega

/-- A thread that is handling a client is one of the pool. -/
theorem counted_pool (h : (prog limits text).lts.ReachIf ok c) {t : Thread ι}
    (hp : (c.pc t).counted = true) : ∃ k, t = .inr (some k) := by
  have hT := (conns_ok h).2 t
  rcases t with i | w
  · change ClientOK _ _ _ _ _ at hT
    cases hpc : c.pc (.inl i) with
    | read | write | exit =>
      rw [hpc] at hT
      exact hT.elim
    | _ =>
      rw [hpc] at hp
      simp [Pc.counted] at hp
  · cases w with
    | some k => exact ⟨k, rfl⟩
    | none =>
      cases hpc : c.pc (.inr none) with
      | read | write | exit =>
        have hS : StartOK _ _ := hT.2
        rw [hpc] at hS
        exact hS.elim
      | _ =>
        rw [hpc] at hp
        simp [Pc.counted] at hp

theorem clientCount_le (h : (prog limits text).lts.ReachIf ok c) : c.sh.clientCount ≤ 4 := by
  have hsub : (Finset.univ.filter fun t => (c.pc t).counted = true) ⊆
      (Finset.univ : Finset (Fin 4)).image fun k => (.inr (some k) : Thread ι) := by
    intro t ht
    obtain ⟨k, rfl⟩ := counted_pool h (Finset.mem_filter.1 ht).2
    exact Finset.mem_image_of_mem _ (Finset.mem_univ k)
  have hcard := (Finset.card_le_card hsub).trans Finset.card_image_le
  rw [Finset.card_univ, Fintype.card_fin] at hcard
  rw [clientCount_eq h]
  exact_mod_cast hcard

end BackendTasks.HttpServer
