import BackendTasks.Net.Text
import BackendTasks.Sched.Monitor
import Mathlib.Data.Fin.VecNotation

/-!
# `WebSocketServer`

`networking/websocket_chat/main.cpp`. Each connection has a thread that runs
`handle_handshake`. Its steps are the reads and writes on the socket, the critical sections
of `clients_mutex` and the changes of `client_count`. A read or a write may fail
at any time, which throws. Nobody closes a socket that has a thread, so `is_open()` is true.

`decode_frame` gets a pointer and reads what lies there, also behind the bytes
received. The buffer of `handle_frames` keeps what earlier reads have put into it; what lies
behind the buffer is part of a step's label, and reading further than that is
`outOfBounds`, undefined behaviour.
-/

namespace BackendTasks.WebSocketServer

open Net Sched

/-! ## Frames -/

structure WSFrame where
  fin : Bool
  opcode : UInt8
  payload : Bytes
  deriving DecidableEq

/-- Why `decode_frame` throws; `outOfBounds` is undefined behaviour. -/
inductive DecodeError
  /-- "Frame too short" -/
  | frameTooShort
  /-- "Payload too big" -/
  | payloadTooBig
  | outOfBounds
  deriving DecidableEq

/-- `data[i]`. -/
def byteAt (data : Bytes) (i : ℕ) : Except DecodeError UInt8 :=
  match data[i]? with
  | some b => .ok b
  | none => .error .outOfBounds

/-- `payload_len`, and `header_size` behind the length. -/
def readLength (data : Bytes) (maskPayloadLen : UInt8) : Except DecodeError (ℕ × ℕ) :=
  let payloadLen := (maskPayloadLen &&& 0x7F).toNat
  if payloadLen = 126 then do
    let hi ← byteAt data 2
    let lo ← byteAt data 3
    return (hi.toNat <<< 8 ||| lo.toNat, 4)
  else if payloadLen = 127 then .error .payloadTooBig
  else .ok (payloadLen, 2)

/-- `mask_key`, if the frame is masked, and `header_size` behind it. -/
def readKey (data : Bytes) (maskPayloadLen : UInt8) (headerSize : ℕ) :
    Except DecodeError (Option Key × ℕ) :=
  if maskPayloadLen &&& 0x80 ≠ 0 then do
    let k₀ ← byteAt data headerSize
    let k₁ ← byteAt data (headerSize + 1)
    let k₂ ← byteAt data (headerSize + 2)
    let k₃ ← byteAt data (headerSize + 3)
    return (some ![k₀, k₁, k₂, k₃], headerSize + 4)
  else .ok (none, headerSize)

/-- The last `n` rounds of the loop over the payload, from index `i` on. -/
def readPayload (data : Bytes) (key : Option Key) (headerSize : ℕ) : ℕ → ℕ → Except DecodeError Bytes
  | _, 0 => .ok []
  | i, n + 1 => do
    let byte ← byteAt data (headerSize + i)
    let bytes ← readPayload data key headerSize (i + 1) n
    return maskByte key i byte :: bytes

def decodeFrame (data : Bytes) (length : ℕ) : Except DecodeError WSFrame :=
  if length < 2 then .error .frameTooShort
  else do
    let finRsvOpcode ← byteAt data 0
    let maskPayloadLen ← byteAt data 1
    let (payloadLen, headerSize) ← readLength data maskPayloadLen
    let (maskKey, headerSize) ← readKey data maskPayloadLen headerSize
    let payload ← readPayload data maskKey headerSize 0 payloadLen
    return ⟨finRsvOpcode &&& 0x80 ≠ 0, finRsvOpcode &&& 0x0F, payload⟩

def encodeFrame (msg : Bytes) : Bytes :=
  0x81 ::
    (if msg.length < 126 then [UInt8.ofNat msg.length]
      else [126, UInt8.ofNat (msg.length >>> 8 &&& 0xFF), UInt8.ofNat (msg.length &&& 0xFF)]) ++ msg

/-! ## One connection -/

/-- The buffer after a read. -/
def fill (data read : Bytes) : Bytes := read ++ data.drop read.length

/-- The buffer of `handle_frames`, `{}`. -/
def emptyBuffer : Bytes := List.replicate 1024 0

/-- What `handle_frames` broadcasts for a frame. -/
def response (payload : Bytes) : Bytes := ascii "Server got: " ++ payload

/-- `handle_frames` on a connection on which `read_some` gives these results one after the other and
then throws: what is broadcast, and the exception of `decode_frame`, if one ends it. -/
def handleFrames (data : Bytes) : List Bytes → List Bytes × Option DecodeError
  | [] => ([], none)
  | read :: reads =>
    match decodeFrame (fill data read) read.length with
    | .error e => ([], some e)
    | .ok frame =>
      let more := handleFrames (fill data read) reads
      (response frame.payload :: more.1, more.2)

/-! ## The handshake -/

/-- `SHA1` and `base64::encode`. -/
structure Libs where
  sha1 : Bytes → Bytes
  base64 : Bytes → Bytes

def generateAcceptKey (libs : Libs) (clientKey : Bytes) : Bytes :=
  libs.base64 (libs.sha1 (clientKey ++ ascii "258EAFA5-E914-47DA-95CA-C5AB0DC85B11"))

/-- `key` behind the loop over the lines. -/
def findKey (request : Bytes) : Bytes :=
  match (getlines request).find? fun line => (ascii "Sec-WebSocket-Key:").isPrefixOf line.1 with
  | some (line, _) => (line.drop 18).filter (!isSpace ·)
  | none => []

/-- The key of a request that is not turned down. -/
def handshakeKey (request : Bytes) : Option Bytes :=
  if ¬ ascii "Upgrade: websocket" <:+: request then none
  else if findKey request = [] then none
  else some (findKey request)

/-- The response to the handshake. -/
def switchingProtocols (libs : Libs) (key : Bytes) : Bytes :=
  ascii "HTTP/1.1 101 Switching Protocols\r\n" ++ ascii "Upgrade: websocket\r\n" ++
    ascii "Connection: Upgrade\r\n" ++ ascii "Sec-WebSocket-Accept: " ++
    generateAcceptKey libs key ++ ascii "\r\n\r\n"

/-! ## The threads -/

/-- `clients` and `client_count`, an `int`: far more than all threads that there can be. The
fields from `heard` on are history: what `read_some` gave `handle_frames`; what was written to the
socket; the broadcasts, each with its sender; how many of them there were when the client
was added to `clients` and when it was removed. -/
structure Shared (ι : Type*) where
  clients : List ι
  clientCount : ℤ
  heard : ι → List Bytes
  written : ι → List Bytes
  broadcasts : List (ι × Bytes)
  added : ι → Option ℕ
  removed : ι → Option ℕ

/-- Where a thread is. -/
inductive Pc
  | accepted
  | respond (key : Bytes)
  | register
  | count
  | receive (data : Bytes)
  | broadcast (data response : Bytes)
  | deregister
  | uncount
  | done
  deriving DecidableEq

/-- What `read_some` gives, and what lies behind the buffer; whether it or a `write` fails; which
clients' `write` in a broadcast fails; `go` is the only way on where there is one. -/
inductive Choice (ι : Type*)
  | read (bytes beyond : Bytes)
  | fail
  | write (fails : ι → Bool)
  | go

/-- What `read_some` can give for a buffer of 1024 bytes. -/
def ReadSome (bytes : Bytes) : Prop := bytes ≠ [] ∧ bytes.length ≤ 1024

instance (bytes : Bytes) : Decidable (ReadSome bytes) :=
  inferInstanceAs (Decidable (bytes ≠ [] ∧ bytes.length ≤ 1024))

variable {ι : Type*} [DecidableEq ι]

/-- The loop over `clients` from an iterator on: what stays there of them, and what is written to
the sockets. -/
def sendAll (fails : ι → Bool) (frame : Bytes) :
    List ι → (ι → List Bytes) → List ι × (ι → List Bytes)
  | [], written => ([], written)
  | it :: rest, written =>
    if fails it then sendAll fails frame rest written
    else
      let (clients, written) :=
        sendAll fails frame rest (Function.update written it (written it ++ [frame]))
      (it :: clients, written)

namespace Shared

def write (s : Shared ι) (i : ι) (bytes : Bytes) : Shared ι :=
  { s with written := Function.update s.written i (s.written i ++ [bytes]) }

def hear (s : Shared ι) (i : ι) (bytes : Bytes) : Shared ι :=
  { s with heard := Function.update s.heard i (s.heard i ++ [bytes]) }

/-- `clients.push_back(client_ptr)`. -/
def push (s : Shared ι) (i : ι) : Shared ι :=
  { s with
    clients := s.clients ++ [i]
    added := Function.update s.added i (some s.broadcasts.length) }

/-- The critical section of `handle_frames`. -/
def broadcast (s : Shared ι) (i : ι) (fails : ι → Bool) (response : Bytes) : Shared ι :=
  let (clients, written) := sendAll fails (encodeFrame response) s.clients s.written
  { s with
    clients := clients
    written := written
    broadcasts := s.broadcasts ++ [(i, response)]
    removed := fun j => if j ∈ s.clients ∧ j ∉ clients then some s.broadcasts.length else s.removed j }

/-- `clients.erase(std::ranges::remove(clients, client_ptr).begin(), clients.end())`. -/
def erase (s : Shared ι) (i : ι) : Shared ι :=
  { s with
    clients := s.clients.filter (· ≠ i)
    removed :=
      if i ∈ s.clients then Function.update s.removed i (some s.broadcasts.length) else s.removed }

end Shared

/-- The program of the thread of connection `i`. -/
def step (libs : Libs) (i : ι) (s : Shared ι) : Pc → Choice ι → Option (Shared ι × Pc)
  -- handle_handshake
  | .accepted, .read request _ =>
    if ReadSome request then
      match handshakeKey request with
      | some key => some (s, .respond key)
      | none => some (s, .done)
    else none
  | .accepted, .fail => some (s, .done)
  | .respond key, .go => some (s.write i (switchingProtocols libs key), .register)
  | .respond _, .fail => some (s, .done)
  | .register, .go => some (s.push i, .count)
  | .count, .go => some ({ s with clientCount := s.clientCount + 1 }, .receive emptyBuffer)
  -- handle_frames
  | .receive data, .read bytes beyond =>
    if ReadSome bytes then
      match decodeFrame (fill data bytes ++ beyond) bytes.length with
      | .ok frame => some (s.hear i bytes, .broadcast (fill data bytes) (response frame.payload))
      | .error .outOfBounds => none -- undefined behaviour
      | .error _ => some (s.hear i bytes, .deregister)
    else none
  | .receive _, .fail => some (s, .deregister)
  | .broadcast data response, .write fails => some (s.broadcast i fails response, .receive data)
  -- handle_handshake again
  | .deregister, .go => some (s.erase i, .uncount)
  | .uncount, .go => some ({ s with clientCount := s.clientCount - 1 }, .done)
  | _, _ => none

/-- The server before the first connection. -/
def construct : Shared ι where
  clients := []
  clientCount := 0
  heard := fun _ => []
  written := fun _ => []
  broadcasts := []
  added := fun _ => none
  removed := fun _ => none

/-- The threads of any number of connections. -/
def prog (ι : Type*) [DecidableEq ι] (libs : Libs) : Prog ι Empty (Shared ι) Pc (Choice ι) where
  init := construct
  start := fun _ => .accepted
  step := fun i s p x => (step libs i s p x).map fun r => (r.1, r.2, .tau)
  wake := nofun

/-- A state of the server and the threads. -/
abbrev State (ι : Type*) := Conf ι (Shared ι) Pc

end BackendTasks.WebSocketServer
