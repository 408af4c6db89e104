import BackendTasks.Net.Response
import BackendTasks.Spec.HttpServer

/-!
# `to_string`

A response is the lines of its head, the empty line, and the content (`toString_eq`). No line has a
`\r` when the content type has none, so the head ends where it should, whatever the content
is.

* `toString_read`: status, content type, length and content are read back.
-/

namespace BackendTasks.HttpServer

open Net

/-- The header lines of a response. -/
def HttpResponse.fields (response : HttpResponse) : List (Bytes × Bytes) :=
  [(ascii "Content-Length", toDecimal response.content.length),
    (ascii "Content-Type", response.contentType), (ascii "Connection", ascii "close")]

theorem toString_eq (response : HttpResponse) :
    response.toString =
      (responseLines (ascii "HTTP/1.1") (intToDecimal response.status) (statusText response.status)
        response.fields).flatMap (· ++ [13, 10]) ++ 13 :: 10 :: response.content := by
  simp [HttpResponse.toString, HttpResponse.fields, responseLines, ascii]

theorem statusText_line (code : ℤ) : 13 ∉ statusText code := by
  unfold statusText
  split
  · decide
  · split
    · decide
    · decide

theorem not_mem_digits {b : UInt8} {digits : Bytes} {n : ℕ} (h : IsDecimal digits n)
    (hb : isDigit b = false) : b ∉ digits := by
  intro hmem
  rw [h.digit b hmem] at hb
  simp at hb

theorem not_mem_status {b : UInt8} (hsign : b ≠ 45) (hb : isDigit b = false) (code : ℤ) :
    b ∉ intToDecimal code := by
  intro hmem
  rcases mem_intToDecimal hmem with heq | hdigit
  · exact hsign heq
  · rw [hdigit] at hb
    simp at hb

/-- No line of the head has a `\r` of its own. -/
theorem head_line {response : HttpResponse} (htype : 13 ∉ response.contentType) :
    ∀ line ∈ responseLines (ascii "HTTP/1.1") (intToDecimal response.status)
      (statusText response.status) response.fields, 13 ∉ line := by
  have hstatus : 13 ∉ intToDecimal response.status := not_mem_status (by decide) rfl _
  have hlength : 13 ∉ toDecimal response.content.length := not_mem_digits (isDecimal_toDecimal _) rfl
  have hreason := statusText_line response.status
  intro line hline
  rcases List.mem_cons.1 hline with rfl | hline
  · simp [hstatus, hreason, ascii]
  · obtain ⟨field, hfield, rfl⟩ := List.mem_map.1 hline
    simp only [HttpResponse.fields, List.mem_cons, List.not_mem_nil, or_false] at hfield
    rcases hfield with rfl | rfl | rfl
    · simp [hlength, ascii]
    · simp [htype, ascii]
    · decide

theorem readResponse_toString (response : HttpResponse) (htype : 13 ∉ response.contentType) :
    readResponse response.toString = some ⟨response.status, response.fields, response.content⟩ := by
  have hversion : 32 ∉ ascii "HTTP/1.1" := by decide
  have hstatus : 32 ∉ intToDecimal response.status := not_mem_status (by decide) rfl _
  have hnames : ∀ field ∈ response.fields, 58 ∉ field.1 := by
    intro field hfield
    simp only [HttpResponse.fields, List.mem_cons, List.not_mem_nil, or_false] at hfield
    rcases hfield with rfl | rfl | rfl
    · exact (by decide : 58 ∉ ascii "Content-Length")
    · exact (by decide : 58 ∉ ascii "Content-Type")
    · decide
  rw [toString_eq]
  exact readResponse_lines hversion hstatus (readInt_intToDecimal _) hnames (head_line htype) _

/-- **A response is read back exactly**, whatever its status and its content are. -/
theorem toString_read (response : HttpResponse) (htype : 13 ∉ response.contentType) :
    ∃ length, IsDecimal length response.content.length ∧
      readResponse response.toString = some
        ⟨response.status,
          [(ascii "Content-Length", length), (ascii "Content-Type", response.contentType),
            (ascii "Connection", ascii "close")],
          response.content⟩ :=
  ⟨toDecimal response.content.length, isDecimal_toDecimal _, readResponse_toString response htype⟩

/-- A content that looks like the end of a head and a header. -/
theorem toString_read_sample : ∃ length, IsDecimal length 13 ∧
    readResponse (HttpResponse.mk (-1) (ascii "\r\n\r\nX: y\r\n\r\nz") (ascii "a b")).toString = some
      ⟨-1, [(ascii "Content-Length", length), (ascii "Content-Type", ascii "a b"),
        (ascii "Connection", ascii "close")], ascii "\r\n\r\nX: y\r\n\r\nz"⟩ :=
  toString_read ⟨-1, ascii "\r\n\r\nX: y\r\n\r\nz", ascii "a b"⟩ (by decide)

end BackendTasks.HttpServer
