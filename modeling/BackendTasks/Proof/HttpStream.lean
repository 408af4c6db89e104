import BackendTasks.Proof.HttpCut
import BackendTasks.Net.Stream

/-!
# How TCP divides the requests

`handle_client` parses each read as one request: it looks no further than the first request there,
and keeps nothing of it for the next read (`handles_separate`).

* `handles_iff`: so it answers each request, once and in order, just when each read is one request.
  A read with more than one request skips the others: what comes later falls short
  (`not_separate`). One with less spoils the next read (`not_separate_of_residue`).
* `bytewise_requests`: it answers no request when each read gives one byte.
-/

namespace BackendTasks.HttpServer

open Net

variable {limits : Limits} {messages : List Message} {m : Message} {reads : List Bytes}

/-- Each request is parsed and answered, once and in order, and nothing else. -/
def Handles (limits : Limits) (messages : List Message) (reads : List Bytes) : Prop :=
  (handleClient limits reads).1 =
    messages.map fun m => (meaning m, (route (meaning m)).toString)

/-- Each read by itself is parsed to the next request, until one says "Connection: close". Then no
request is left over; without that, no read is, unless it is turned down. -/
def Separate (limits : Limits) : List Message → List Bytes → Prop
  | [], [] => True
  | [], read :: _ => read = [] ∨ ∃ e, parseRequest limits read = .error e
  | _ :: _, [] => False
  | m :: messages, read :: reads =>
    read ≠ [] ∧ parseRequest limits read = .ok (meaning m) ∧
      if (meaning m).closes then messages = [] else Separate limits messages reads

theorem handles_cons {read : Bytes} {request : HttpRequest} (hread : read ≠ [])
    (hparse : parseRequest limits read = .ok request) :
    Handles limits (m :: messages) (read :: reads) ↔
      request = meaning m ∧ if request.closes then messages = [] else Handles limits messages reads := by
  have hlen : read.length ≠ 0 := fun h => hread (List.length_eq_zero_iff.1 h)
  have hhead : ∀ {more : List (HttpRequest × Bytes)},
      (request, (route request).toString) :: more =
        (m :: messages).map (fun m => (meaning m, (route (meaning m)).toString)) ↔
      request = meaning m ∧
        more = messages.map fun m => (meaning m, (route (meaning m)).toString) := by
    intro more
    rw [List.map_cons, List.cons.injEq]
    exact and_congr_left fun _ => ⟨fun h => (Prod.mk.inj h).1, fun h => by rw [h]⟩
  rw [Handles, handleClient, if_neg hlen, hparse]
  dsimp only
  by_cases hcloses : request.closes = true
  · rw [if_pos hcloses, if_pos hcloses, hhead]
    exact and_congr_right fun _ =>
      ⟨fun h => List.map_eq_nil_iff.1 h.symm, fun h => by rw [h]; rfl⟩
  · rw [if_neg hcloses, if_neg hcloses, hhead]
    rfl

theorem handles_separate (messages : List Message) (reads : List Bytes) :
    Handles limits messages reads ↔ Separate limits messages reads := by
  induction reads generalizing messages with
  | nil => cases messages <;> simp [Handles, handleClient, Separate]
  | cons read reads ih =>
    by_cases hread : read = []
    · subst hread
      cases messages <;> simp [Handles, handleClient, Separate]
    have hlen : read.length ≠ 0 := fun h => hread (List.length_eq_zero_iff.1 h)
    cases hparse : parseRequest limits read with
    | error e => cases messages <;> simp [Handles, handleClient, hlen, Separate, hparse]
    | ok request =>
      cases messages with
      | nil =>
        cases hcloses : request.closes <;>
          simp [Handles, handleClient, hlen, Separate, hparse, hread, hcloses]
      | cons m messages =>
        rw [handles_cons hread hparse, ih]
        constructor
        · rintro ⟨rfl, hrest⟩
          exact ⟨hread, hparse, hrest⟩
        · rintro ⟨-, hparse', hrest⟩
          have heq : request = meaning m := Except.ok.inj (hparse.symm.trans hparse')
          exact ⟨heq, by rw [heq]; exact hrest⟩

/-! ## Reads that are not the requests -/

/-- When the reads begin inside the requests, they fall short of them. -/
theorem not_separate {before : Bytes} (hbefore : before ≠ []) (hne : ∀ read ∈ reads, read ≠ [])
    (hsplit : before ++ reads.flatten = (messages.map Message.text).flatten) :
    ¬ Separate limits messages reads := by
  induction messages generalizing reads before with
  | nil => exact absurd (List.append_eq_nil_iff.1 hsplit).1 hbefore
  | cons m messages ih =>
    cases reads with
    | nil => exact id
    | cons read reads =>
      rintro ⟨-, hparse, hrest⟩
      obtain ⟨hread, hne⟩ := List.forall_mem_cons.1 hne
      rw [List.flatten_cons, List.map_cons, List.flatten_cons] at hsplit
      -- what the next reads begin behind
      have hnext : ∀ {front : Bytes}, front ≠ [] →
          (messages.map Message.text).flatten = front ++ reads.flatten → False := by
        intro front hfront hflat
        split at hrest
        · rw [hrest] at hflat
          exact hfront (List.append_eq_nil_iff.1 hflat.symm).1
        · exact ih hfront hne hflat.symm hrest
      rcases List.append_eq_append_iff.1 hsplit with ⟨inside, hm, hinside⟩ | ⟨behind, -, hbehind⟩
      · rcases List.append_eq_append_iff.1 hinside with ⟨rest, hrest', -⟩ | ⟨behind, hread', hbehind⟩
        · rw [hrest'] at hm
          exact parse_inside hm.symm hbefore hread hparse
        · refine hnext (fun hnil => ?_) hbehind
          rw [hnil, List.append_nil] at hread'
          rw [← hread', ← List.append_nil read] at hm
          exact parse_inside hm.symm hbefore hread hparse
      · rw [← List.append_assoc] at hbehind
        exact hnext (by simp [hread]) hbehind

/-- Each read is one request; only the last request may lack what `parse_request` does not need, if it
says "Connection: close". -/
def Apart (limits : Limits) (messages : List Message) (reads : List Bytes) : Prop :=
  reads = messages.map Message.text ∨
    ∃ before m read more, messages = before ++ [m] ∧ (meaning m).closes = true ∧
      reads = before.map Message.text ++ read :: more ∧ parseRequest limits read = .ok (meaning m)

theorem Apart.cons (h : Apart limits messages reads) (m : Message) :
    Apart limits (m :: messages) (m.text :: reads) := by
  rcases h with rfl | ⟨before, last, read, more, rfl, hcloses, rfl, hparse⟩
  · exact .inl rfl
  · exact .inr ⟨m :: before, last, read, more, rfl, hcloses, rfl, hparse⟩

/-- A request that is cut spoils the next read. -/
theorem not_separate_of_residue {rest : Bytes} (hresidue : Residue rest) (hrest : rest ≠ [])
    (hne : ∀ read ∈ reads, read ≠ [])
    (hsplit : reads.flatten = rest ++ (messages.map Message.text).flatten) :
    ¬ Separate limits messages reads := by
  cases reads with
  | nil => exact absurd (List.append_eq_nil_iff.1 hsplit.symm).1 hrest
  | cons read reads =>
    have hread := hne read List.mem_cons_self
    rw [List.flatten_cons] at hsplit
    cases messages with
    | nil =>
      rintro (hnil | ⟨e, hparse⟩)
      · exact hread hnil
      · rw [List.map_nil, List.flatten_nil, List.append_nil] at hsplit
        have hcolon : 58 ∉ read := fun hmem =>
          hresidue.1 (hsplit ▸ List.mem_append_left _ hmem)
        obtain ⟨request, hok⟩ := parse_ok_of_no_colon limits hcolon
        rw [hparse] at hok
        simp at hok
    | cons m messages =>
      rintro ⟨-, hparse, -⟩
      exact parse_residue hresidue hrest hsplit hread hparse

theorem apart_of_separate (hne : ∀ read ∈ reads, read ≠ [])
    (hsplit : reads.flatten = (messages.map Message.text).flatten)
    (h : Separate limits messages reads) : Apart limits messages reads := by
  induction messages generalizing reads with
  | nil =>
    left
    refine List.eq_nil_iff_forall_not_mem.2 fun read hmem => hne read hmem ?_
    exact List.flatten_eq_nil_iff.1 hsplit read hmem
  | cons m messages ih =>
    cases reads with
    | nil => exact h.elim
    | cons read reads =>
      obtain ⟨-, hparse, hrest⟩ := h
      obtain ⟨hread, hlater⟩ := List.forall_mem_cons.1 hne
      rw [List.flatten_cons, List.map_cons, List.flatten_cons] at hsplit
      by_cases hcloses : (meaning m).closes = true
      · rw [if_pos hcloses] at hrest
        exact .inr ⟨[], m, read, reads, by rw [hrest]; rfl, hcloses, rfl, hparse⟩
      rw [if_neg hcloses] at hrest
      have hwhole : m.text = read → reads.flatten = (messages.map Message.text).flatten →
          Apart limits (m :: messages) (read :: reads) := by
        rintro rfl hflat
        exact (ih hlater hflat hrest).cons m
      rcases List.append_eq_append_iff.1 hsplit with ⟨rest, hm, hflat⟩ | ⟨behind, hread', hflat⟩
      · by_cases hnil : rest = []
        · rw [hnil, List.append_nil] at hm
          exact hwhole hm (by rw [hflat, hnil, List.nil_append])
        · have hresidue := parse_cut hm.symm hread hparse
          exact absurd hrest (not_separate_of_residue hresidue hnil hlater hflat)
      · by_cases hnil : behind = []
        · rw [hnil, List.append_nil] at hread'
          exact hwhole hread'.symm (by rw [hflat, hnil, List.nil_append])
        · exact absurd hrest (not_separate hnil hlater hflat.symm)

/-! ## Reads that are the requests -/

theorem separate_append {before : List Message} (hfits : ∀ m ∈ before, m.text.length ≤ limits.most)
    (hopen : ∀ m ∈ before, (meaning m).closes = false) (h : Separate limits messages reads) :
    Separate limits (before ++ messages) (before.map Message.text ++ reads) := by
  induction before with
  | nil => exact h
  | cons m before ih =>
    obtain ⟨hm, hfits⟩ := List.forall_mem_cons.1 hfits
    obtain ⟨hfirst, hopen⟩ := List.forall_mem_cons.1 hopen
    refine ⟨by simp [Message.text, ascii], parse_text limits m hm, ?_⟩
    rw [hfirst]
    exact ih hfits hopen

theorem separate_of_apart (hmax : 1024 ≤ limits.most) (hle : ∀ read ∈ reads, read.length ≤ 1024)
    (hne : ∀ read ∈ reads, read ≠ []) (hopen : ∀ m ∈ messages.dropLast, (meaning m).closes = false)
    (h : Apart limits messages reads) : Separate limits messages reads := by
  have hfits : ∀ m : Message, m.text ∈ reads → m.text.length ≤ limits.most :=
    fun m hm => (hle _ hm).trans hmax
  rcases h with rfl | ⟨before, m, read, more, rfl, hcloses, rfl, hparse⟩
  · rcases List.eq_nil_or_concat' messages with rfl | ⟨before, m, rfl⟩
    · trivial
    rw [List.dropLast_concat] at hopen
    rw [List.map_append]
    refine separate_append (fun m hm => hfits m ?_) hopen ?_
    · exact List.mem_map_of_mem (List.mem_append_left _ hm)
    · have hm : m.text.length ≤ limits.most := hfits m (by simp)
      refine ⟨by simp [Message.text, ascii], parse_text limits m hm, ?_⟩
      split
      · rfl
      · trivial
  · rw [List.dropLast_concat] at hopen
    refine separate_append (fun m hm => hfits m ?_) hopen ?_
    · exact List.mem_append_left _ (List.mem_map_of_mem hm)
    · have hread : read ≠ [] := hne read (by simp)
      exact ⟨hread, hparse, by rw [if_pos hcloses]⟩

/-- **When TCP's division does no harm.** However the requests are divided into reads, each is parsed and
answered, once and in order, and nothing else is, just when each read is one request; only of a last
request that closes the connection the read may lack what `parse_request` does not need. -/
theorem handles_iff (hmax : 1024 ≤ limits.most)
    (hopen : ∀ m ∈ messages.dropLast, (meaning m).closes = false)
    (hdivision : Division 1024 (messages.map Message.text) reads) :
    Handles limits messages reads ↔ Apart limits messages reads := by
  rw [handles_separate]
  exact ⟨apart_of_separate hdivision.ne_nil hdivision.flatten,
    separate_of_apart hmax hdivision.length_le hdivision.ne_nil hopen⟩

/-! ## Divisions that do harm -/

/-- A byte is parsed to a request without path. -/
theorem parse_byte (limits : Limits) (b : UInt8) :
    ∃ request, parseRequest limits [b] = .ok request ∧ request.path = [] := by
  have hline : (parseRequestLine [b]).2.1 = [] := by
    cases hspace : isSpace b <;> simp [parseRequestLine, readWord, hspace]
  have hlines : getlines [b] = if b = 10 then [([], [])] else [([b], [])] := by
    rw [getlines, getlines]
  rw [parseRequest, hlines]
  by_cases hb : b = 10
  · rw [if_pos hb]
    exact ⟨_, rfl, rfl⟩
  · rw [if_neg hb]
    exact ⟨_, rfl, hline⟩

/-- **No requests are safe from division**: when they come byte by byte, what is parsed first is not
the first request. -/
theorem bytewise_requests (limits : Limits) (hne : messages ≠ []) :
    ∃ reads, Division 1024 (messages.map Message.text) reads ∧ ¬ Handles limits messages reads := by
  obtain ⟨m, messages, rfl⟩ := List.exists_cons_of_ne_nil hne
  refine ⟨_, .bytewise (by decide) _, fun hall => ?_⟩
  obtain ⟨b, bs, htext⟩ : ∃ b bs, m.text = b :: bs :=
    List.exists_cons_of_ne_nil (by simp [Message.text, ascii])
  rw [List.map_cons, List.flatten_cons, htext, List.cons_append, List.map_cons,
    handles_separate] at hall
  obtain ⟨-, hparse, -⟩ := hall
  obtain ⟨request, hrequest, hpath⟩ := parse_byte limits b
  rw [hparse] at hrequest
  rw [← Except.ok.inj hrequest] at hpath
  exact m.path_word.ne_nil hpath

/-- A request for a greeting. -/
def hello : Message where
  method := ascii "GET"
  path := ascii "/hello"
  version := ascii "HTTP/1.1"
  headers := []
  body := []
  method_word := .of_all (by decide) (by decide)
  path_word := .of_all (by decide) (by decide)
  version_word := http11_word
  header := nofun
  distinct := .nil
  length_eq := nofun
  no_length _ := rfl

/-- Two requests in two reads. -/
theorem handles_iff_hello : Handles usual [hello, hello] [hello.text, hello.text] :=
  (handles_iff (by decide) (by decide) (.partwise (by decide) (by decide))).2 (.inl rfl)

/-- **A request that is cut.** Its path arrives in two reads, and two requests are answered with
"Not Found". -/
theorem request_cut : ∃ messages reads, Division 1024 (messages.map Message.text) reads ∧
    messages.length = 1 ∧
    ((handleClient usual reads).1.map fun x => (x.1.path, (route x.1).status)) =
      [(ascii "/hel", 404), (ascii "HTTP/1.1", 404)] ∧
    ¬ Handles usual messages reads := by
  have hreads : ((handleClient usual [ascii "GET /hel", ascii "lo HTTP/1.1\r\n\r\n"]).1.map
      fun x => (x.1.path, (route x.1).status)) = [(ascii "/hel", 404), (ascii "HTTP/1.1", 404)] := by
    decide
  refine ⟨[hello], [ascii "GET /hel", ascii "lo HTTP/1.1\r\n\r\n"],
    ⟨by decide, by decide, by decide⟩, rfl, hreads, fun hall => ?_⟩
  rw [hall] at hreads
  simp at hreads

end BackendTasks.HttpServer
