import BackendTasks.Net.Bytes
import BackendTasks.Sched.Monitor

/-!
# The echo server

`networking/echo_server/main.cpp`: `main` with its accept loop, and a detached thread that runs
`handler` for each client. Any number of clients connect, send what they like and close. Separate
steps are: the calls on the sockets and on the acceptor and the start of a thread, each of which may
fail, the partial transfers of `read_some` and `boost::asio::write`, and each change of
`client_count`.

An exception in the loop of `main` ends the program, and with it all handlers.
-/

namespace BackendTasks.EchoServer

open Net Sched

/-- The bytes sent by the client and not read yet, and whether it has closed. The fields from `sent` on
are history: what it has sent and what was written back to it, whether it has connected, whether its
handler has begun, and whether a call of the handler on the socket has failed. -/
structure Conn where
  toServer : Bytes
  closed : Bool
  sent : Bytes
  echoed : Bytes
  connected : Bool
  begun : Bool
  failed : Bool

namespace Conn

/-- Before `connect`. -/
def new : Conn := ⟨[], false, [], [], false, false, false⟩

def connect (c : Conn) : Conn := { c with connected := true }

/-- The client sends bytes. -/
def send (c : Conn) (bytes : Bytes) : Conn :=
  { c with toServer := c.toServer ++ bytes, sent := c.sent ++ bytes }

def close (c : Conn) : Conn := { c with closed := true }

def begin (c : Conn) : Conn := { c with begun := true }

/-- The handler receives `n` bytes. -/
def read (c : Conn) (n : ℕ) : Conn := { c with toServer := c.toServer.drop n }

/-- The handler sends bytes. -/
def write (c : Conn) (bytes : Bytes) : Conn := { c with echoed := c.echoed ++ bytes }

def fail (c : Conn) : Conn := { c with failed := true }

end Conn

/-- `socket` is the one that `main` has accepted and not handed on, `starting` are the threads that
have been started and have done nothing yet. `client_count` is an `int`: far more than all
connections that there can be. -/
structure Shared (ι : Type*) where
  conns : ι → Conn
  backlog : List ι
  socket : Option ι
  starting : List ι
  running : Bool
  clientCount : ℤ

/-- `inl i` is client `i`, `inr none` runs `main`, `inr (some i)` runs `handler` for client `i`. -/
abbrev Thread (ι : Type*) := ι ⊕ Option ι

/-- Where a thread is. -/
inductive Pc
  -- a client
  | outside
  | connected
  | closed
  -- main; at `down` it has caught an exception
  | accept
  | count
  | endpoint
  | spawn
  | down
  | ended
  -- handler; at `leave` it has caught an exception
  | unborn
  | read
  | write (rest : Bytes)
  | leave
  | done
  deriving DecidableEq

/-- How a thread goes on: a client calls `connect`, `send` and `close`; `transfer n` transfers `n`
bytes, `fail` is a call that throws, and `go` is the only way on where there is one. -/
inductive Choice
  | connect
  | send (bytes : Bytes)
  | close
  | go
  | transfer (n : ℕ)
  | fail
  deriving DecidableEq

variable {ι : Type*} [DecidableEq ι]

/-- A step on connection `i`. -/
def Shared.on (s : Shared ι) (i : ι) (c : Conn) : Shared ι :=
  { s with conns := Function.update s.conns i c }

def clientStep (i : ι) (s : Shared ι) : Pc → Choice → Option (Shared ι × Pc)
  | .outside, .connect =>
    some ({ s.on i (s.conns i).connect with backlog := s.backlog ++ [i] }, .connected)
  | .connected, .send bytes => some (s.on i ((s.conns i).send bytes), .connected)
  | .connected, .close => some (s.on i (s.conns i).close, .closed)
  | _, _ => none

def mainStep (s : Shared ι) : Pc → Choice → Option (Shared ι × Pc)
  | .accept, .go =>
    match s.backlog with
    | i :: backlog => some ({ s with backlog := backlog, socket := some i }, .count)
    | [] => none
  | .count, .go => some ({ s with clientCount := s.clientCount + 1 }, .endpoint)
  | .endpoint, .go => some (s, .spawn)
  | .spawn, .go => some ({ s with socket := none, starting := s.starting ++ s.socket.toList }, .accept)
  | .accept, .fail => some (s, .down)
  | .endpoint, .fail => some ({ s with socket := none }, .down)
  | .spawn, .fail => some ({ s with socket := none }, .down)
  | .down, .go => some ({ s with running := false }, .ended)
  | _, _ => none

def handlerStep (i : ι) (s : Shared ι) : Pc → Choice → Option (Shared ι × Pc)
  | .unborn, .go =>
    if i ∈ s.starting then
      some ({ s.on i (s.conns i).begin with starting := s.starting.erase i }, .read)
    else none
  | .read, .transfer n =>
    if 0 < n ∧ n ≤ 1024 ∧ n ≤ (s.conns i).toServer.length then
      some (s.on i ((s.conns i).read n), .write ((s.conns i).toServer.take n))
    else none
  | .read, .go =>
    if (s.conns i).toServer = [] ∧ (s.conns i).closed = true then some (s, .leave) else none
  | .read, .fail => some (s.on i (s.conns i).fail, .leave)
  | .write rest, .transfer n =>
    if 0 < n ∧ n ≤ rest.length then
      some (s.on i ((s.conns i).write (rest.take n)), .write (rest.drop n))
    else none
  | .write [], .go => some (s, .read)
  | .write _, .fail => some (s.on i (s.conns i).fail, .leave)
  | .leave, .go => some ({ s with clientCount := s.clientCount - 1 }, .done)
  | _, _ => none

/-- The program of a thread. -/
def step : Thread ι → Shared ι → Pc → Choice → Option (Shared ι × Pc)
  | .inl i, s, p, x => clientStep i s p x
  | .inr none, s, p, x => mainStep s p x
  | .inr (some i), s, p, x => if s.running then handlerStep i s p x else none

/-- Where a thread begins. -/
def start : Thread ι → Pc
  | .inl _ => .outside
  | .inr none => .accept
  | .inr (some _) => .unborn

/-- The server, when it has begun to accept, and its clients. -/
def prog (ι : Type*) [DecidableEq ι] : Prog (Thread ι) Empty (Shared ι) Pc Choice where
  init := ⟨fun _ => .new, [], none, [], true, 0⟩
  start := start
  step := fun t s p x => (step t s p x).map fun r => (r.1, r.2, .tau)
  wake := fun v _ => v.elim

/-- A state of the server and its clients. -/
abbrev State (ι : Type*) := Conf (Thread ι) (Shared ι) Pc

end BackendTasks.EchoServer
