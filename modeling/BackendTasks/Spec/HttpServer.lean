import BackendTasks.Net.Text

/-!
# `HttpServer`

`networking/http_server/main.cpp`. `handle_client` is a function of what the calls of
`read_some` give one after the other before one throws; its writes succeed. How many bytes a
`std::string` can have is the parameter `limits`.
-/

namespace BackendTasks.HttpServer

open Net

/-! ## Requests -/

structure HttpRequest where
  method : Bytes
  path : Bytes
  version : Bytes
  headers : Bytes → Option Bytes
  body : Bytes

/-- Why `parse_request` throws. -/
inductive ParseError
  | stoul (e : StoulError)
  /-- `std::length_error` of `resize` -/
  | length
  /-- `std::bad_alloc` of `resize` -/
  | badAlloc
  deriving DecidableEq

/-- `max_size()`, and how many bytes can be allocated. -/
structure Limits where
  maxSize : UInt64
  memory : ℕ

/-- The longest string that there can be. -/
def Limits.most (limits : Limits) : ℕ := min limits.maxSize.toNat limits.memory

theorem Limits.most_lt (limits : Limits) : limits.most < UInt64.size :=
  (min_le_left _ _).trans_lt limits.maxSize.toNat_lt

/-- What 64-bit code can have, with a gibibyte of memory. -/
def usual : Limits := ⟨0x3FFFFFFFFFFFFFFF, 0x40000000⟩

/-- `line_stream >> req.method >> req.path >> req.version`. -/
def parseRequestLine (line : Bytes) : Bytes × Bytes × Bytes :=
  let (method, line) := readWord line
  let (path, line) := readWord line
  let (version, _) := readWord line
  (method, path, version)

/-- `value`, with a `\r` at the end and the spaces at the beginning taken off. -/
def trimValue (value : Bytes) : Bytes :=
  (if value.getLast? = some 13 then value.dropLast else value).dropWhile (· == 32)

/-- What a header line does to the map. -/
def addHeader (headers : Bytes → Option Bytes) (line : Bytes) : Bytes → Option Bytes :=
  if 58 ∈ line then
    let key := line.takeWhile (· != 58)
    let value := (line.dropWhile (· != 58)).tail
    fun name => if name = key then some (trimValue value) else headers name
  else headers

/-- The loop over the header lines; what is left of the stream comes with the map. -/
def parseHeaders (headers : Bytes → Option Bytes) :
    List (Bytes × Bytes) → (Bytes → Option Bytes) × Bytes
  | [] => (headers, [])
  | (line, behind) :: lines =>
    if line = [13] then (headers, behind) else parseHeaders (addHeader headers line) lines

/-- `req.body.resize(len)` and `stream.read(req.body.data(), len)`. -/
def readBody (limits : Limits) (len : ℕ) (stream : Bytes) : Except ParseError Bytes :=
  if limits.maxSize.toNat < len then .error .length
  else if limits.memory < len then .error .badAlloc
  else .ok (stream.take len ++ List.replicate (len - stream.length) 0)

def parseRequest (limits : Limits) (request : Bytes) : Except ParseError HttpRequest :=
  let lines := getlines request
  let (method, path, version) :=
    match lines with
    | [] => ([], [], [])
    | (line, _) :: _ => parseRequestLine line
  let (headers, stream) := parseHeaders (fun _ => none) lines.tail
  match headers (ascii "Content-Length") with
  | none => .ok ⟨method, path, version, headers, []⟩
  | some value =>
    match stoul value with
    | .error e => .error (.stoul e)
    | .ok len =>
      match readBody limits len stream with
      | .error e => .error e
      | .ok body => .ok ⟨method, path, version, headers, body⟩

/-! ## Responses -/

structure HttpResponse where
  status : ℤ
  content : Bytes
  contentType : Bytes
  deriving DecidableEq

def statusText (code : ℤ) : Bytes :=
  if code = 200 then ascii "OK" else if code = 404 then ascii "Not Found" else ascii "Unknown"

def HttpResponse.toString (response : HttpResponse) : Bytes :=
  ascii "HTTP/1.1 " ++ intToDecimal response.status ++ ascii " " ++ statusText response.status ++
    ascii "\r\n" ++
  ascii "Content-Length: " ++ toDecimal response.content.length ++ ascii "\r\n" ++
  ascii "Content-Type: " ++ response.contentType ++ ascii "\r\n" ++
  ascii "Connection: close\r\n\r\n" ++
  response.content

/-- Nothing throws in the `try` block. -/
def route (request : HttpRequest) : HttpResponse :=
  if request.path = ascii "/hello" then ⟨200, ascii "Hello World", ascii "text/plain"⟩
  else if request.path = ascii "/json" then
    ⟨200, ascii "\x7b\"msg\":\"hi\"\x7d", ascii "application/json"⟩
  else ⟨404, ascii "Not Found", ascii "text/plain"⟩

/-! ## A connection -/

/-- `request.headers["Connection"] == "close"`. -/
def HttpRequest.closes (request : HttpRequest) : Bool :=
  (request.headers (ascii "Connection")).getD [] == ascii "close"

/-- The requests that are parsed, each with the bytes written for it, and the exception of
`parse_request`, if one ends the loop. -/
def handleClient (limits : Limits) : List Bytes → List (HttpRequest × Bytes) × Option ParseError
  | [] => ([], none)
  | read :: reads =>
    if read.length = 0 then ([], none)
    else match parseRequest limits read with
      | .error e => ([], some e)
      | .ok request =>
        let response := route request
        if request.closes then ([(request, response.toString)], none)
        else
          let (more, e) := handleClient limits reads
          ((request, response.toString) :: more, e)

end BackendTasks.HttpServer
