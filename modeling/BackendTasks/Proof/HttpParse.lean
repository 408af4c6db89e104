import BackendTasks.Net.Http
import BackendTasks.Spec.HttpServer

/-!
# `parse_request`

`parse_request` splits the text at its line ends, so it is followed line by line: the request line
(`parseRequestLine_line`), the header lines (`parseHeaders_lines`), and the body.

* `parse_text`: it inverts the request format.
-/

namespace BackendTasks.HttpServer

open Net

variable {headers : List (Bytes × Bytes)} {header : Bytes × Bytes}

/-- What a message says. -/
def meaning (m : Message) : HttpRequest :=
  ⟨m.method, m.path, m.version, lookup m.headers, m.body⟩

/-! ## The request line -/

theorem parseRequestLine_line (m : Message) :
    parseRequestLine (m.requestLine ++ [13]) = (m.method, m.path, m.version) := by
  have hnone : ∀ c ∈ ([] : Bytes), isSpace c = true := nofun
  have hone : ∀ c ∈ ([32] : Bytes), isSpace c = true := List.forall_mem_singleton.2 rfl
  have h₁ := readWord_word (b := 32) hnone m.method_word.solid m.method_word.ne_nil rfl
    (m.path ++ 32 :: (m.version ++ [13]))
  have h₂ := readWord_word (b := 32) hone m.path_word.solid m.path_word.ne_nil rfl (m.version ++ [13])
  have h₃ := readWord_word (b := 13) hone m.version_word.solid m.version_word.ne_nil rfl []
  have hline : m.requestLine ++ [13] =
      [] ++ m.method ++ 32 :: (m.path ++ 32 :: (m.version ++ [13])) := by
    simp [Message.requestLine, ascii]
  rw [List.append_assoc, List.singleton_append] at h₂ h₃
  simp only [parseRequestLine, hline, h₁, h₂, h₃]

/-! ## A header line -/

theorem trimValue_line (value : Bytes) (h : value.head? ≠ some 32) :
    trimValue (32 :: (value ++ [13])) = value := by
  have hlast : (32 :: (value ++ [13])).getLast? = some 13 := by
    rw [← List.cons_append, List.getLast?_concat]
  have hinit : (32 :: (value ++ [13])).dropLast = 32 :: value := by
    rw [← List.cons_append, List.dropLast_concat]
  rw [trimValue, if_pos hlast, hinit, List.dropWhile_cons_of_pos rfl]
  cases value with
  | nil => rfl
  | cons b bs =>
    have hb : b ≠ 32 := fun hb => h (by rw [hb]; rfl)
    exact List.dropWhile_cons_of_neg (by simpa using hb)

/-- A header line, without its end. -/
def headerLine (header : Bytes × Bytes) : Bytes := header.1 ++ 58 :: 32 :: (header.2 ++ [13])

theorem addHeader_colon {name : Bytes} (hcolon : 58 ∉ name) (value : Bytes) (acc : Bytes → Option Bytes) :
    addHeader acc (name ++ 58 :: value) =
      fun wanted => if wanted = name then some (trimValue value) else acc wanted := by
  have hmem : 58 ∈ name ++ 58 :: value := by simp
  obtain ⟨hkey, hvalue⟩ := divide hcolon value
  simp only [addHeader, if_pos hmem, hkey, hvalue, List.tail_cons]

theorem addHeader_line (h : IsHeader header) (acc : Bytes → Option Bytes) :
    addHeader acc (headerLine header) =
      fun name => if name = header.1 then some header.2 else acc name := by
  rw [headerLine, addHeader_colon h.no_colon, trimValue_line _ h.no_space]

theorem headerLines_cons (header : Bytes × Bytes) (headers : List (Bytes × Bytes)) :
    headerLines (header :: headers) = headerLine header ++ 10 :: headerLines headers := by
  simp [headerLines, headerLine, ascii]

theorem not_mem_headerLine (h : IsHeader header) : 10 ∉ headerLine header := by
  simp [headerLine, h.name_line, h.value_line]

/-- One header line puts its header into the map. -/
theorem parseHeaders_cons (h : IsHeader header) (acc : Bytes → Option Bytes) (behind : Bytes) :
    parseHeaders acc (getlines (headerLine header ++ 10 :: behind)) =
      parseHeaders (fun name => if name = header.1 then some header.2 else acc name)
        (getlines behind) := by
  have hne : headerLine header ≠ [13] := by
    intro heq
    have hmem : 58 ∈ headerLine header := by simp [headerLine]
    rw [heq] at hmem
    simp at hmem
  rw [getlines_line (not_mem_headerLine h), parseHeaders, if_neg hne, addHeader_line h]

/-- **The header lines** put the headers into the map, and end at the empty line. -/
theorem parseHeaders_lines (h : ∀ header ∈ headers, IsHeader header)
    (hdistinct : (headers.map Prod.fst).Nodup) (acc : Bytes → Option Bytes) (body : Bytes) :
    parseHeaders acc (getlines (headerLines headers ++ 13 :: 10 :: body)) =
      (fun name => (lookup headers name).or (acc name), body) := by
  induction headers generalizing acc with
  | nil =>
    have hline : getlines (13 :: 10 :: body) = ([13], body) :: getlines body :=
      getlines_line (by decide : 10 ∉ ([13] : Bytes)) body
    rw [headerLines, List.flatMap_nil, List.nil_append, hline, parseHeaders, if_pos rfl]
    rfl
  | cons header headers ih =>
    obtain ⟨hheader, hrest⟩ := List.forall_mem_cons.1 h
    obtain ⟨hnot, hdistinct⟩ := List.nodup_cons.1 hdistinct
    rw [headerLines_cons, List.append_assoc, List.cons_append, parseHeaders_cons hheader,
      ih hrest hdistinct]
    congr 1
    funext name
    rw [lookup]
    by_cases hname : name = header.1
    · rw [if_pos hname, if_pos hname, hname, not_mem_lookup hnot]
      rfl
    · rw [if_neg hname, if_neg hname]

/-! ## The whole request -/

theorem not_mem_requestLine (m : Message) : 10 ∉ m.requestLine ++ [13] := by
  have hword : ∀ {word : Bytes}, IsWord word → 10 ∉ word := by
    intro word h hmem
    exact absurd (h.solid 10 hmem) (by decide)
  simp [Message.requestLine, ascii, hword m.method_word, hword m.path_word, hword m.version_word]

theorem text_eq (m : Message) :
    m.text = (m.requestLine ++ [13]) ++ 10 :: (headerLines m.headers ++ 13 :: 10 :: m.body) := by
  simp [Message.text, ascii]

theorem getlines_text (m : Message) :
    getlines m.text =
      (m.requestLine ++ [13], headerLines m.headers ++ 13 :: 10 :: m.body) ::
        getlines (headerLines m.headers ++ 13 :: 10 :: m.body) := by
  rw [text_eq, getlines_line (not_mem_requestLine m)]

theorem length_body_le (m : Message) : m.body.length ≤ m.text.length := by
  rw [Message.text, List.length_append]
  exact Nat.le_add_left _ _

/-- The first bytes of the stream, and zeros where there are none. -/
def padded (n : ℕ) (stream : Bytes) : Bytes := stream.take n ++ List.replicate (n - stream.length) 0

@[simp] theorem length_padded (n : ℕ) (stream : Bytes) : (padded n stream).length = n := by
  rw [padded, List.length_append, List.length_take, List.length_replicate]
  omega

theorem readBody_ok {n : ℕ} (h : n ≤ limits.most) (stream : Bytes) :
    readBody limits n stream = .ok (padded n stream) := by
  obtain ⟨hsize, hmemory⟩ := Nat.le_min.1 h
  rw [readBody, if_neg (Nat.not_lt.2 hsize), if_neg (Nat.not_lt.2 hmemory)]
  rfl

theorem readBody_error {n : ℕ} (h : limits.most < n) (stream : Bytes) :
    ∃ e, readBody limits n stream = .error e := by
  unfold readBody
  by_cases hsize : limits.maxSize.toNat < n
  · exact ⟨.length, if_pos hsize⟩
  · have hmemory : limits.memory < n :=
      Nat.not_le.1 fun hle => Nat.not_le.2 h (Nat.le_min.2 ⟨Nat.not_lt.1 hsize, hle⟩)
    exact ⟨.badAlloc, by rw [if_neg hsize, if_pos hmemory]⟩

/-- **`parse_request` inverts the request format**, for requests that are a `std::string`. -/
theorem parse_text (limits : Limits) (m : Message) (hfits : m.text.length ≤ limits.most) :
    parseRequest limits m.text = .ok (meaning m) := by
  have hbody : m.body.length ≤ limits.most := (length_body_le m).trans hfits
  have hheaders : parseHeaders (fun _ => none) (getlines (headerLines m.headers ++ 13 :: 10 :: m.body)) =
      (lookup m.headers, m.body) := by
    rw [parseHeaders_lines m.header m.distinct]
    simp
  rw [parseRequest, getlines_text]
  simp only [parseRequestLine_line, List.tail_cons, hheaders]
  cases hlength : lookup m.headers (ascii "Content-Length") with
  | none =>
    rw [meaning, m.no_length hlength]
  | some value =>
    have hvalue := stoul_decimal (m.length_eq value hlength)
      (Nat.lt_of_le_of_lt hbody limits.most_lt)
    have hread : readBody limits m.body.length m.body = .ok m.body := by
      rw [readBody_ok hbody, padded, List.take_length, Nat.sub_self, List.replicate_zero, List.append_nil]
    simp only [hvalue, hread]
    rfl

theorem http11_word : IsWord (ascii "HTTP/1.1") := .of_all (by decide) (by decide)

/-- A request with a value that ends in `\r`, an empty value, and a body that looks like the end of
the headers. -/
def sampleMessage : Message where
  method := ascii "POST"
  path := ascii "/a:b"
  version := ascii "HTTP/1.1"
  headers := [(ascii "X", ascii "a: b\r"), (ascii "Y", []), (ascii "Content-Length", ascii "6")]
  body := ascii "\r\nA: b"
  method_word := .of_all (by decide) (by decide)
  path_word := .of_all (by decide) (by decide)
  version_word := http11_word
  header := by
    intro header h
    simp only [List.mem_cons, List.not_mem_nil, or_false] at h
    rcases h with rfl | rfl | rfl
    all_goals exact ⟨by decide, by decide, by decide, by decide, by decide⟩
  distinct := by decide
  length_eq := by
    intro value h
    obtain rfl : ascii "6" = value := Option.some.inj h
    exact isDecimal_toDecimal 6
  no_length h := nomatch h

theorem parse_text_sample : ∃ request, parseRequest usual sampleMessage.text = .ok request ∧
    request.headers (ascii "X") = some (ascii "a: b\r") ∧ request.body = ascii "\r\nA: b" :=
  ⟨_, parse_text usual sampleMessage (by decide), by decide, rfl⟩

end BackendTasks.HttpServer
