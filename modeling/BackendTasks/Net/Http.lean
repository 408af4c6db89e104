import BackendTasks.Net.Text

/-!
# The request format of HTTP/1.1

A request is a line with the method, the path and the version, a line for each header, an
empty line, and the body, whose length the Content-Length header says. The header names
are distinct; chunked bodies and folded lines are left out.
-/

namespace BackendTasks.Net

/-- A word is not empty and has no white space. -/
structure IsWord (word : Bytes) : Prop where
  ne_nil : word ≠ []
  solid : ∀ b ∈ word, isSpace b = false

theorem IsWord.of_all {word : Bytes} (hne : word ≠ []) (h : word.all (!isSpace ·) = true) :
    IsWord word :=
  ⟨hne, fun b hb => by simpa using List.all_eq_true.1 h b hb⟩

/-- A header's name and value. -/
structure IsHeader (header : Bytes × Bytes) : Prop where
  name_ne_nil : header.1 ≠ []
  no_colon : 58 ∉ header.1
  name_line : 10 ∉ header.1
  value_line : 10 ∉ header.2
  no_space : header.2.head? ≠ some 32

/-- The value of the first header with this name. -/
def lookup : List (Bytes × Bytes) → Bytes → Option Bytes
  | [], _ => none
  | (name, value) :: headers, wanted => if wanted = name then some value else lookup headers wanted

/-- The lines of the headers. -/
def headerLines (headers : List (Bytes × Bytes)) : Bytes :=
  headers.flatMap fun header => header.1 ++ ascii ": " ++ header.2 ++ ascii "\r\n"

/-- A request. -/
structure Message where
  method : Bytes
  path : Bytes
  version : Bytes
  headers : List (Bytes × Bytes)
  body : Bytes
  method_word : IsWord method
  path_word : IsWord path
  version_word : IsWord version
  header : ∀ header ∈ headers, IsHeader header
  distinct : (headers.map Prod.fst).Nodup
  length_eq : ∀ value, lookup headers (ascii "Content-Length") = some value →
    IsDecimal value body.length
  no_length : lookup headers (ascii "Content-Length") = none → body = []

namespace Message

def requestLine (m : Message) : Bytes := m.method ++ ascii " " ++ m.path ++ ascii " " ++ m.version

/-- The bytes of the request. -/
def text (m : Message) : Bytes :=
  m.requestLine ++ ascii "\r\n" ++ headerLines m.headers ++ ascii "\r\n" ++ m.body

end Message

theorem not_mem_lookup {headers : List (Bytes × Bytes)} {name : Bytes}
    (h : name ∉ headers.map Prod.fst) : lookup headers name = none := by
  induction headers with
  | nil => rfl
  | cons header headers ih =>
    rw [List.map_cons, List.mem_cons, not_or] at h
    rw [lookup, if_neg h.1, ih h.2]

theorem lookup_of_mem {headers : List (Bytes × Bytes)} {header : Bytes × Bytes} (hmem : header ∈ headers)
    (hdistinct : (headers.map Prod.fst).Nodup) : lookup headers header.1 = some header.2 := by
  induction headers with
  | nil => simp at hmem
  | cons first headers ih =>
    obtain ⟨hnot, hdistinct⟩ := List.nodup_cons.1 hdistinct
    rcases List.mem_cons.1 hmem with rfl | hmem
    · rw [lookup, if_pos rfl]
    · have hne : header.1 ≠ first.1 := fun heq => hnot (heq ▸ List.mem_map_of_mem hmem)
      rw [lookup, if_neg hne, ih hmem hdistinct]

end BackendTasks.Net
