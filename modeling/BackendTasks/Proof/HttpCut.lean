import BackendTasks.Proof.HttpParse

/-!
# Parts of a request

What `parse_request` makes of a part of a request.

* `parse_inside`: a part that begins inside the request is not parsed to it. It lacks a word of the
  request line or a header, or begins in the body.
* `parse_cut`: a part that ends inside the request is parsed to it only if what it lacks is the end of
  the header lines, or zero bytes at the end of the body (`Residue`).
* `parse_residue`: what begins with that is not parsed to the next request.
-/

namespace BackendTasks.HttpServer

open Net

variable {limits : Limits} {m : Message} {headers : List (Bytes × Bytes)} {header : Bytes × Bytes}
  {read rest line behind body stream more value name : Bytes} {acc : Bytes → Option Bytes}

/-! ## What was parsed -/

/-- What a body of this length is read from: the bytes that are not there are zero. -/
def Pads (stream body : Bytes) : Prop :=
  body = stream.take body.length ++ List.replicate (body.length - stream.length) 0

/-- A text with this first line and this behind it is parsed to a request. -/
structure Parsed (m : Message) (line behind : Bytes) : Prop where
  words : parseRequestLine line = (m.method, m.path, m.version)
  headers : (parseHeaders (fun _ => none) (getlines behind)).1 = lookup m.headers
  body : Pads (parseHeaders (fun _ => none) (getlines behind)).2 m.body

theorem pads_of_readBody {len : ℕ} (h : readBody limits len stream = .ok body) : Pads stream body := by
  by_cases hmost : limits.most < len
  · obtain ⟨e, herror⟩ := readBody_error hmost stream
    rw [herror] at h
    simp at h
  · rw [readBody_ok (Nat.not_lt.1 hmost)] at h
    obtain rfl := Except.ok.inj h
    rw [Pads, length_padded]
    rfl

theorem parsed_of_parse (hlines : getlines read = (line, behind) :: getlines behind)
    (h : parseRequest limits read = .ok (meaning m)) : Parsed m line behind := by
  rw [parseRequest, hlines] at h
  simp only [List.tail_cons] at h
  generalize hresult : parseHeaders (fun _ => none) (getlines behind) = result at h
  split at h
  · have heq := Except.ok.inj h
    simp only [meaning, HttpRequest.mk.injEq] at heq
    obtain ⟨hmethod, hpath, hversion, hheaders, hbody⟩ := heq
    refine ⟨by rw [← hmethod, ← hpath, ← hversion], by rw [hresult, ← hheaders], ?_⟩
    simp [← hbody, Pads]
  · split at h
    · simp at h
    · rename_i len _
      split at h
      · simp at h
      · rename_i body hread
        have heq := Except.ok.inj h
        simp only [meaning, HttpRequest.mk.injEq] at heq
        obtain ⟨hmethod, hpath, hversion, hheaders, hbody⟩ := heq
        refine ⟨by rw [← hmethod, ← hpath, ← hversion], by rw [hresult, ← hheaders], ?_⟩
        rw [hresult, ← hbody]
        exact pads_of_readBody hread

theorem zeros_of_pads (h : Pads [] body) : ∀ c ∈ body, c = 0 := by
  intro c hc
  rw [h, List.take_nil, List.nil_append] at hc
  exact List.eq_of_mem_replicate hc

/-! ## The request line -/

/-- The words are no longer than what is not white space. -/
theorem words_le (line : Bytes) :
    (parseRequestLine line).1.length + (parseRequestLine line).2.1.length +
      (parseRequestLine line).2.2.length ≤ line.countP (!isSpace ·) := by
  have h₁ := readWord_count line
  have h₂ := readWord_count (readWord line).2
  have h₃ := readWord_count (readWord (readWord line).2).2
  simp only [parseRequestLine]
  omega

theorem count_word {word : Bytes} (h : IsWord word) : word.countP (!isSpace ·) = word.length := by
  rw [List.countP_eq_length]
  intro c hc
  rw [h.solid c hc]
  rfl

theorem count_requestLine (m : Message) : (m.requestLine ++ [13]).countP (!isSpace ·) =
    m.method.length + m.path.length + m.version.length := by
  have hspace : (ascii " ").countP (!isSpace ·) = 0 := rfl
  have hend : ([13] : Bytes).countP (!isSpace ·) = 0 := rfl
  simp only [Message.requestLine, List.countP_append, count_word m.method_word, count_word m.path_word,
    count_word m.version_word, hspace, hend]
  omega

/-- All words of the request are in the line. -/
theorem Parsed.le_count (h : Parsed m line behind) :
    (m.requestLine ++ [13]).countP (!isSpace ·) ≤ line.countP (!isSpace ·) := by
  have hle := words_le line
  rw [h.words] at hle
  rw [count_requestLine]
  exact hle

/-- White space is no request line. -/
theorem Parsed.not_space (h : Parsed m line behind) : ¬ ∀ c ∈ line, isSpace c = true := by
  intro hspace
  have hwords := h.words
  simp only [parseRequestLine, readWord_space hspace] at hwords
  exact m.method_word.ne_nil (Prod.mk.inj hwords).1.symm

/-- Neither is a single word. -/
theorem Parsed.not_solid (h : Parsed m line behind) : ¬ ∀ c ∈ line, isSpace c = false := by
  intro hsolid
  have hwords := h.words
  have hnil : readWord [] = ([], []) := rfl
  simp only [parseRequestLine, readWord_solid hsolid, hnil] at hwords
  exact m.path_word.ne_nil (Prod.mk.inj (Prod.mk.inj hwords).2).1.symm

/-! ## The header lines -/

theorem addHeader_none (h : 58 ∉ line) (acc : Bytes → Option Bytes) : addHeader acc line = acc := by
  rw [addHeader, if_neg h]

/-- A line without end. -/
theorem parseHeaders_last (h : 10 ∉ line) (acc : Bytes → Option Bytes) :
    parseHeaders acc (getlines line) = (addHeader acc line, []) := by
  by_cases hnil : line = []
  · subst hnil
    rw [addHeader_none (by simp)]
    rfl
  rw [getlines_last h hnil, parseHeaders]
  split
  · rename_i hempty
    subst hempty
    rw [addHeader_none (by decide)]
  · rfl

/-- Where a text ends that begins with the empty line. -/
theorem split_end (h : read ++ rest = 13 :: 10 :: body) :
    (read.length ≤ 1 ∧ (∀ c ∈ read, c = 13) ∧
        ∃ more, rest = more ++ 10 :: body ∧ ∀ c ∈ more, c = 13) ∨
      ∃ read', read = 13 :: 10 :: read' ∧ body = read' ++ rest := by
  have hend : read ++ rest = [13] ++ 10 :: body := h
  rcases split_line hend with ⟨more, hline, hrest⟩ | ⟨read', hread, hbody⟩
  · have hall : ∀ c ∈ read ++ more, c = 13 := by
      rw [← hline]
      exact fun c hc => List.mem_singleton.1 hc
    have hlen := congrArg List.length hline
    rw [List.length_append, List.length_singleton] at hlen
    exact .inl ⟨by omega, fun c hc => hall c (List.mem_append_left _ hc), more, hrest,
      fun c hc => hall c (List.mem_append_right _ hc)⟩
  · exact .inr ⟨read', hread, hbody⟩

/-- A part of the empty line and the body. -/
theorem parseHeaders_end (h : read ++ rest = 13 :: 10 :: body) (acc : Bytes → Option Bytes) :
    parseHeaders acc (getlines read) = (acc, read.drop 2) := by
  rcases split_end h with ⟨hlen, hread, -⟩ | ⟨read', rfl, -⟩
  · have hline : 10 ∉ read := fun h10 => absurd (hread 10 h10) (by decide)
    have hcolon : 58 ∉ read := fun h58 => absurd (hread 58 h58) (by decide)
    rw [parseHeaders_last hline, addHeader_none hcolon, List.drop_eq_nil_of_le (by omega)]
  · have hlines : getlines (13 :: 10 :: read') = ([13], read') :: getlines read' :=
      getlines_line (by decide : 10 ∉ ([13] : Bytes)) read'
    rw [hlines, parseHeaders, if_pos rfl]
    rfl

/-- A header line that is cut has all of the name, or no colon. -/
theorem colon_cut (h : IsHeader header) (hsplit : headerLine header = read ++ more) (hmem : 58 ∈ read) :
    ∃ value, read = header.1 ++ 58 :: value ∧ value ++ more = 32 :: (header.2 ++ [13]) := by
  rw [headerLine] at hsplit
  rcases split_line hsplit.symm with ⟨more', hname, -⟩ | ⟨value, hread, hvalue⟩
  · refine absurd ?_ h.no_colon
    rw [hname]
    exact List.mem_append_left _ hmem
  · exact ⟨value, hread, hvalue.symm⟩

theorem addHeader_cut (h : IsHeader header) (hsplit : headerLine header = read ++ more)
    (acc : Bytes → Option Bytes) (hne : name ≠ header.1) : addHeader acc read name = acc name := by
  by_cases hmem : 58 ∈ read
  · obtain ⟨value, rfl, -⟩ := colon_cut h hsplit hmem
    rw [addHeader_colon h.no_colon]
    exact if_neg hne
  · rw [addHeader_none hmem]

/-- From a part of the header lines no other header is read. -/
theorem parseHeaders_not_mem (hheaders : ∀ header ∈ headers, IsHeader header)
    (hname : name ∉ headers.map Prod.fst)
    (h : read ++ rest = headerLines headers ++ 13 :: 10 :: body) (acc : Bytes → Option Bytes) :
    (parseHeaders acc (getlines read)).1 name = acc name := by
  induction headers generalizing read acc with
  | nil => rw [parseHeaders_end h]
  | cons header headers ih =>
    obtain ⟨hheader, hheaders⟩ := List.forall_mem_cons.1 hheaders
    rw [List.map_cons, List.mem_cons, not_or] at hname
    rw [headerLines_cons, List.append_assoc, List.cons_append] at h
    rcases split_line h with ⟨more, hline, -⟩ | ⟨read', rfl, h'⟩
    · have hread : 10 ∉ read := fun hmem =>
        not_mem_headerLine hheader (hline ▸ List.mem_append_left _ hmem)
      rw [parseHeaders_last hread]
      exact addHeader_cut hheader hline acc hname.1
    · rw [parseHeaders_cons hheader, ih hheaders hname.2 h'.symm, if_neg hname.1]

/-! ## A part that ends inside -/

/-- The end of the header lines, or zero bytes. -/
def Residue (rest : Bytes) : Prop :=
  58 ∉ rest ∧ ((∃ line behind, rest = line ++ 10 :: behind ∧ 10 ∉ line ∧ ∀ c ∈ line, isSpace c = true) ∨
    ∀ c ∈ rest, c = 0)

theorem residue_of_space (hline : 10 ∉ line) (hspace : ∀ c ∈ line, isSpace c = true) (hbehind : 58 ∉ behind) :
    Residue (line ++ 10 :: behind) := by
  refine ⟨?_, .inl ⟨line, behind, rfl, hline, hspace⟩⟩
  have hcolon : 58 ∉ line := fun hmem => absurd (hspace 58 hmem) (by decide)
  simp [hcolon, hbehind]

theorem residue_of_zeros (h : ∀ c ∈ rest, c = 0) : Residue rest :=
  ⟨fun hmem => absurd (h 58 hmem) (by decide), .inr h⟩

theorem length_trimValue_le (b : UInt8) (value : Bytes) (hb : b = 32) :
    (trimValue (b :: value)).length ≤ value.length := by
  subst hb
  rw [trimValue]
  split
  · have hle := (List.dropWhile_suffix (p := (· == (32 : UInt8))) (l := (32 :: value).dropLast)).length_le
    rwa [List.length_dropLast, List.length_cons, Nat.add_sub_cancel] at hle
  · rw [List.dropWhile_cons_of_pos rfl]
    exact (List.dropWhile_suffix _).length_le

/-- A value that is cut but read as a whole lacks only white space. -/
theorem trimValue_cut {whole : Bytes} (h : value ++ more = 32 :: (whole ++ [13]))
    (htrim : trimValue value = whole) : ∀ c ∈ more, isSpace c = true := by
  cases value with
  | nil =>
    have hwhole : whole = [] := htrim.symm
    rw [List.nil_append, hwhole] at h
    rw [h]
    exact List.forall_mem_cons.2 ⟨rfl, List.forall_mem_singleton.2 rfl⟩
  | cons b value =>
    obtain ⟨hb, h⟩ := List.cons.inj h
    have hle := length_trimValue_le b value hb
    rw [htrim] at hle
    rcases split_line h with ⟨more', hwhole, hmore⟩ | ⟨value', -, hnil⟩
    · have hnil : more' = [] := by
        rw [hwhole, List.length_append] at hle
        exact List.length_eq_zero_iff.1 (by omega)
      rw [hmore, hnil]
      exact List.forall_mem_singleton.2 rfl
    · have hnil : more = [] := (List.append_eq_nil_iff.1 hnil.symm).2
      rw [hnil]
      exact nofun

/-- What a read lacks that ends in the empty line or the body. -/
theorem residue_of_end (h : read ++ rest = 13 :: 10 :: body) (hbody : Pads (read.drop 2) body) :
    Residue rest := by
  rcases split_end h with ⟨hlen, -, more, hrest, hmore⟩ | ⟨read', rfl, hbehind⟩
  · rw [List.drop_eq_nil_of_le (by omega)] at hbody
    rw [hrest]
    refine residue_of_space (fun hmem => absurd (hmore 10 hmem) (by decide)) (fun c hc => ?_)
      fun hmem => absurd (zeros_of_pads hbody 58 hmem) (by decide)
    rw [hmore c hc]
    rfl
  · refine residue_of_zeros fun c hc => ?_
    have hstream : (13 :: 10 :: read').drop 2 = read' := rfl
    have hzeros : rest = List.replicate (body.length - read'.length) 0 := by
      rw [hstream, Pads, List.take_of_length_le (by rw [hbehind]; simp)] at hbody
      exact List.append_cancel_left (hbehind.symm.trans hbody)
    rw [hzeros] at hc
    exact List.eq_of_mem_replicate hc

/-- What a read lacks that ends in the last header line. -/
theorem residue_of_header (hheader : IsHeader header) (hline : headerLine header = read ++ more)
    (hfree : acc header.1 = none) (hvalue : addHeader acc read header.1 = some header.2)
    (hzeros : ∀ c ∈ body, c = 0) : Residue (more ++ 10 :: 13 :: 10 :: body) := by
  have hcolon : 58 ∈ read := by
    by_contra hcolon
    rw [addHeader_none hcolon, hfree] at hvalue
    simp at hvalue
  obtain ⟨value, rfl, hcut⟩ := colon_cut hheader hline hcolon
  have htrim : trimValue value = header.2 := by
    rw [addHeader_colon hheader.no_colon] at hvalue
    dsimp only at hvalue
    rw [if_pos rfl] at hvalue
    exact Option.some.inj hvalue
  have hmore : 10 ∉ more := fun hmem =>
    not_mem_headerLine hheader (hline ▸ List.mem_append_right _ hmem)
  refine residue_of_space hmore (trimValue_cut hcut htrim) ?_
  simp only [List.mem_cons, not_or]
  exact ⟨by decide, by decide, fun hmem => absurd (hzeros 58 hmem) (by decide)⟩

/-- What a read lacks that has all headers. -/
theorem residue_of_headers (hheaders : ∀ header ∈ headers, IsHeader header)
    (hdistinct : (headers.map Prod.fst).Nodup) (hacc : ∀ header ∈ headers, acc header.1 = none)
    (h : read ++ rest = headerLines headers ++ 13 :: 10 :: body)
    (hall : ∀ header ∈ headers, (parseHeaders acc (getlines read)).1 header.1 = some header.2)
    (hbody : Pads (parseHeaders acc (getlines read)).2 body) : Residue rest := by
  induction headers generalizing read acc with
  | nil =>
    rw [parseHeaders_end h] at hbody
    exact residue_of_end h hbody
  | cons header headers ih =>
    obtain ⟨hheader, hheaders⟩ := List.forall_mem_cons.1 hheaders
    obtain ⟨hnot, hdistinct⟩ := List.nodup_cons.1 hdistinct
    obtain ⟨hfree, hacc⟩ := List.forall_mem_cons.1 hacc
    obtain ⟨hfirst, hall⟩ := List.forall_mem_cons.1 hall
    have hother : ∀ later ∈ headers, later.1 ≠ header.1 := by
      intro later hlater heq
      exact hnot (heq ▸ List.mem_map_of_mem hlater)
    rw [headerLines_cons, List.append_assoc, List.cons_append] at h
    rcases split_line h with ⟨more, hline, hrest⟩ | ⟨read', rfl, h'⟩
    · have hread : 10 ∉ read := fun hmem =>
        not_mem_headerLine hheader (hline ▸ List.mem_append_left _ hmem)
      rw [parseHeaders_last hread] at hfirst hbody
      -- no other header can be there
      have hnone : headers = [] := by
        refine List.eq_nil_iff_forall_not_mem.2 fun later hlater => ?_
        have hvalue := hall later hlater
        rw [parseHeaders_last hread] at hvalue
        dsimp only at hvalue
        rw [addHeader_cut hheader hline acc (hother later hlater), hacc later hlater] at hvalue
        simp at hvalue
      rw [hrest, hnone]
      exact residue_of_header hheader hline hfree hfirst (zeros_of_pads hbody)
    · rw [parseHeaders_cons hheader] at hall hbody
      refine ih hheaders hdistinct (fun later hlater => ?_) h'.symm hall hbody
      rw [if_neg (hother later hlater)]
      exact hacc later hlater

theorem Parsed.has_header (h : Parsed m line behind) (hmem : header ∈ m.headers) :
    (parseHeaders (fun _ => none) (getlines behind)).1 header.1 = some header.2 := by
  rw [h.headers]
  exact lookup_of_mem hmem m.distinct

/-- **A part that is parsed to the request it is the beginning of** lacks no more than the end of the
header lines and zero bytes. -/
theorem parse_cut (hsplit : read ++ rest = m.text) (hne : read ≠ [])
    (h : parseRequest limits read = .ok (meaning m)) : Residue rest := by
  rw [text_eq] at hsplit
  rcases split_line hsplit with ⟨more, hline, hrest⟩ | ⟨read', rfl, hbehind⟩
  · have hread : 10 ∉ read := fun hmem =>
      not_mem_requestLine m (hline ▸ List.mem_append_left _ hmem)
    have hparsed : Parsed m read [] := parsed_of_parse (getlines_last hread hne) h
    have hspace : ∀ c ∈ more, isSpace c = true := by
      have hcount := hparsed.le_count
      rw [hline, List.countP_append] at hcount
      have hzero : more.countP (!isSpace ·) = 0 := by omega
      intro c hc
      simpa using List.countP_eq_zero.1 hzero c hc
    have hnone : m.headers = [] := by
      refine List.eq_nil_iff_forall_not_mem.2 fun header hmem => ?_
      have hvalue := hparsed.has_header hmem
      simp [getlines, parseHeaders] at hvalue
    have hempty : m.body = [] := m.no_length (by rw [hnone]; rfl)
    rw [hrest, hnone, hempty]
    have hmore : 10 ∉ more := fun hmem =>
      not_mem_requestLine m (hline ▸ List.mem_append_right _ hmem)
    exact residue_of_space hmore hspace (by decide)
  · have hparsed := parsed_of_parse (getlines_line (not_mem_requestLine m) read') h
    exact residue_of_headers m.header m.distinct (fun _ _ => rfl) hbehind.symm
      (fun _ hmem => hparsed.has_header hmem) hparsed.body

/-! ## A part that begins inside -/

/-- What is left of the text is behind one of the lines. -/
theorem parseHeaders_stream (acc : Bytes → Option Bytes) (lines : List (Bytes × Bytes)) :
    (parseHeaders acc lines).2 = [] ∨ ∃ entry ∈ lines, (parseHeaders acc lines).2 = entry.2 := by
  induction lines generalizing acc with
  | nil => exact .inl rfl
  | cons entry lines ih =>
    rw [parseHeaders]
    split
    · exact .inr ⟨entry, List.mem_cons_self, rfl⟩
    · refine (ih _).imp id fun hlater => ?_
      obtain ⟨later, hmem, heq⟩ := hlater
      exact ⟨later, List.mem_cons_of_mem _ hmem, heq⟩

theorem parseHeaders_suffix (acc : Bytes → Option Bytes) (text : Bytes) :
    ∃ front, text = front ++ (parseHeaders acc (getlines text)).2 := by
  rcases parseHeaders_stream acc (getlines text) with hnil | ⟨entry, hmem, hstream⟩
  · exact ⟨text, by rw [hnil, List.append_nil]⟩
  · rw [hstream]
    obtain ⟨front, htext | ⟨htext, hnil⟩⟩ := mem_getlines hmem
    · exact ⟨front ++ (entry.1 ++ [10]), by rw [htext]; simp⟩
    · exact ⟨text, by rw [hnil, List.append_nil]⟩

/-- What begins in the header lines lacks the header that it begins in. -/
theorem inside_headers {before : Bytes} (hheaders : ∀ header ∈ headers, IsHeader header)
    (hdistinct : (headers.map Prod.fst).Nodup)
    (hlines : getlines read = (line, behind) :: getlines behind)
    (h : before ++ (read ++ rest) = headerLines headers ++ 13 :: 10 :: body) :
    (∃ header ∈ headers, (parseHeaders (fun _ => none) (getlines behind)).1 header.1 = none) ∨
      (∀ c ∈ line, isSpace c = true) ∨ ∃ front, body = front ++ (read ++ rest) := by
  induction headers generalizing before with
  | nil =>
    rcases split_end h with ⟨-, -, more, hread, hmore⟩ | ⟨front, -, hbody⟩
    · have hnot : 10 ∉ more := fun hmem => absurd (hmore 10 hmem) (by decide)
      refine .inr (.inl fun c hc => ?_)
      rw [hmore c ((first_line_within hlines hnot hread).subset hc)]
      rfl
    · exact .inr (.inr ⟨front, hbody⟩)
  | cons header headers ih =>
    obtain ⟨hheader, hheaders⟩ := List.forall_mem_cons.1 hheaders
    obtain ⟨hnot, hdistinct⟩ := List.nodup_cons.1 hdistinct
    rw [headerLines_cons, List.append_assoc, List.cons_append] at h
    rcases split_line h with ⟨more, hfirst, hread⟩ | ⟨before', -, hread⟩
    · refine .inl ⟨header, List.mem_cons_self, ?_⟩
      have hmore : 10 ∉ more := fun hmem =>
        not_mem_headerLine hheader (hfirst ▸ List.mem_append_right _ hmem)
      rcases first_line hlines hmore hread with ⟨-, -, hnil⟩ | ⟨-, hbehind⟩
      · rw [hnil]
        rfl
      · exact parseHeaders_not_mem hheaders hnot hbehind.symm _
    · refine (ih hheaders hdistinct hread.symm).imp (fun hlater => ?_) id
      obtain ⟨later, hmem, hnone⟩ := hlater
      exact ⟨later, List.mem_cons_of_mem _ hmem, hnone⟩

/-- What begins in the body has a request line, which is not left for the body. -/
theorem not_inside_body {front : Bytes} (hparsed : Parsed m line behind)
    (hread : read = line ++ 10 :: behind ∨ read = line ∧ behind = []) :
    m.body ≠ front ++ (read ++ rest) := by
  intro hinside
  obtain ⟨skipped, hskipped⟩ := parseHeaders_suffix (fun _ => none) behind
  have hbody := hparsed.body
  generalize (parseHeaders (fun _ => none) (getlines behind)).2 = stream at hskipped hbody
  -- the bytes of the body that are not zero are those of the stream
  have hle : m.body.countP (· != 0) ≤ stream.countP (· != 0) := by
    rw [hbody, List.countP_append, List.countP_replicate, if_neg (by decide), Nat.add_zero]
    exact (List.take_sublist ..).countP_le
  have hge : line.countP (· != 0) + behind.countP (· != 0) ≤ m.body.countP (· != 0) := by
    rw [hinside, List.countP_append, List.countP_append]
    rcases hread with rfl | ⟨rfl, rfl⟩
    · rw [List.countP_append, List.countP_cons]
      omega
    · rw [List.countP_nil]
      omega
  have hstream : stream.countP (· != 0) ≤ behind.countP (· != 0) := by
    rw [hskipped, List.countP_append]
    exact Nat.le_add_left _ _
  have hzero : line.countP (· != 0) = 0 := by omega
  refine hparsed.not_solid fun c hc => ?_
  have hc0 : c = 0 := by simpa using List.countP_eq_zero.1 hzero c hc
  rw [hc0]
  rfl

/-- **A part that begins inside a request is not parsed to it.** -/
theorem parse_inside {before : Bytes} (hsplit : before ++ (read ++ rest) = m.text) (hbefore : before ≠ [])
    (hne : read ≠ []) : parseRequest limits read ≠ .ok (meaning m) := by
  intro h
  obtain ⟨line, behind, hlines, hread⟩ := exists_line hne
  have hparsed := parsed_of_parse hlines h
  rw [text_eq] at hsplit
  rcases split_line hsplit with ⟨more, hfirst, hrest⟩ | ⟨before', -, hbehind⟩
  · -- the first byte of the method is missing
    have hmore : 10 ∉ more := fun hmem =>
      not_mem_requestLine m (hfirst ▸ List.mem_append_right _ hmem)
    have hline : line.countP (!isSpace ·) ≤ more.countP (!isSpace ·) :=
      (first_line_within hlines hmore hrest).countP_le
    have hcount := hparsed.le_count
    rw [hfirst, List.countP_append] at hcount
    have hzero : before.countP (!isSpace ·) = 0 := by omega
    obtain ⟨b, before, rfl⟩ := List.exists_cons_of_ne_nil hbefore
    obtain ⟨c, method, hmethod⟩ := List.exists_cons_of_ne_nil m.method_word.ne_nil
    have hbc : b = c := by
      rw [Message.requestLine, hmethod] at hfirst
      exact (List.cons.inj hfirst).1.symm
    have hspace := List.countP_eq_zero.1 hzero b List.mem_cons_self
    rw [hbc, m.method_word.solid c (by rw [hmethod]; exact List.mem_cons_self)] at hspace
    simp at hspace
  · rcases inside_headers m.header m.distinct hlines hbehind.symm with
      ⟨header, hmem, hnone⟩ | hspace | ⟨front, hbody⟩
    · rw [hparsed.has_header hmem] at hnone
      simp at hnone
    · exact hparsed.not_space hspace
    · exact not_inside_body hparsed hread hbody

/-! ## What begins with a residue -/

/-- With more in front of it the method is another word. -/
theorem Parsed.not_after {front : Bytes} (h : Parsed m line behind) (hfront : front ≠ [])
    (hsolid : ∀ c ∈ front, isSpace c = false) : ¬ line <+: front ++ (m.requestLine ++ [13]) := by
  rintro ⟨missing, hline⟩
  have hword : ∀ c ∈ front ++ m.method, isSpace c = false := by
    intro c hc
    exact (List.mem_append.1 hc).elim (hsolid c) (m.method_word.solid c)
  have hwhole : front ++ (m.requestLine ++ [13]) =
      (front ++ m.method) ++ 32 :: (m.path ++ 32 :: (m.version ++ [13])) := by
    simp [Message.requestLine, ascii]
  rw [hwhole] at hline
  rcases split_line hline with ⟨more, hshort, -⟩ | ⟨line', rfl, -⟩
  · exact h.not_solid fun c hc => hword c (hshort ▸ List.mem_append_left _ hc)
  · -- the first word is too long
    have hnone : ∀ c ∈ ([] : Bytes), isSpace c = true := List.forall_mem_nil _
    have hread := readWord_word (b := 32) hnone hword (by simp [hfront]) rfl line'
    have hwords := h.words
    simp only [parseRequestLine, List.nil_append] at hwords hread
    rw [hread] at hwords
    have hlen := congrArg List.length (Prod.mk.inj hwords).1
    rw [List.length_append] at hlen
    exact hfront (List.length_eq_zero_iff.1 (by omega))

/-- **What begins with what a request lacks is not parsed to the next one.** -/
theorem parse_residue {next : Message} {later : Bytes} (hresidue : Residue rest) (hrest : rest ≠ [])
    (hsplit : read ++ more = rest ++ (next.text ++ later)) (hne : read ≠ []) :
    parseRequest limits read ≠ .ok (meaning next) := by
  intro h
  obtain ⟨line, behind, hlines, -⟩ := exists_line hne
  have hparsed := parsed_of_parse hlines h
  obtain ⟨-, ⟨space, behind', rfl, hnot, hspace⟩ | hzeros⟩ := hresidue
  · rw [List.append_assoc, List.cons_append] at hsplit
    have hline : line <+: space := first_line_within hlines hnot hsplit
    exact hparsed.not_space fun c hc => hspace c (hline.subset hc)
  · have hsolid : ∀ c ∈ rest, isSpace c = false := by
      intro c hc
      rw [hzeros c hc]
      rfl
    have hnot : 10 ∉ rest ++ (next.requestLine ++ [13]) := by
      rw [List.mem_append, not_or]
      exact ⟨fun hmem => absurd (hzeros 10 hmem) (by decide), not_mem_requestLine next⟩
    rw [text_eq, List.append_assoc, ← List.append_assoc, List.cons_append] at hsplit
    exact hparsed.not_after hrest hsolid (first_line_within hlines hnot hsplit)

theorem parseHeaders_no_colon (acc : Bytes → Option Bytes) {lines : List (Bytes × Bytes)}
    (h : ∀ entry ∈ lines, 58 ∉ entry.1) : (parseHeaders acc lines).1 = acc := by
  induction lines generalizing acc with
  | nil => rfl
  | cons entry lines ih =>
    obtain ⟨hfirst, hlater⟩ := List.forall_mem_cons.1 h
    rw [parseHeaders]
    split
    · rfl
    · rw [ih _ hlater, addHeader_none hfirst]

/-- Nor is it turned down. -/
theorem parse_ok_of_no_colon (limits : Limits) (h : 58 ∉ read) :
    ∃ request, parseRequest limits read = .ok request := by
  have hnone : (parseHeaders (fun _ => none) (getlines read).tail).1 = fun _ => none := by
    refine parseHeaders_no_colon _ fun entry hmem hcolon => h ?_
    obtain ⟨front, htext | ⟨htext, -⟩⟩ := mem_getlines (List.mem_of_mem_tail hmem)
    · rw [htext]
      simp [hcolon]
    · rw [htext]
      exact List.mem_append_right _ hcolon
  rw [parseRequest]
  simp only [hnone]
  exact ⟨_, rfl⟩

end BackendTasks.HttpServer
