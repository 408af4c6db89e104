import BackendTasks.Spec.HttpServer
import BackendTasks.Sched.Monitor

/-!
# The HTTP server with its clients

`networking/http_server/main.cpp`: `start` with its pool of four threads, `handle_client`, and any
number of `http_request` calls, each a thread with a connection of its own. Separate steps are: the
calls on the sockets and on the acceptor, each of which may fail, the post to the pool, the start of
a task, and each change of `client_count`.

A connection carries a stream of bytes each way. A `write_some` within `boost::asio::write` puts any
part of what is left into the stream, a `read_some` takes any bytes out of it, at least one and at
most 1024; at the end of a stream that is closed it throws.
-/

namespace BackendTasks.HttpServer

open Net Sched

/-- The request that `http_request` writes. -/
def requestText (host path : Bytes) : Bytes :=
  ascii "GET " ++ path ++ ascii " HTTP/1.1\r\nHost: " ++ host ++
    ascii "\r\nConnection: close\r\n\r\n"

/-! ## Connections -/

/-- Who has a connection. -/
inductive Stage
  | fresh
  | waiting
  | accepted
  | posted
  | taken (k : Fin 4)
  | closed
  deriving DecidableEq

/-- The bytes on their way, and whether an end is closed. The fields from `stage` on are history:
who has the connection; whether a call on its sockets has failed; what each `read_some` of
`handle_client` gave, and all that it wrote. -/
structure Conn where
  toServer : Bytes
  toClient : Bytes
  clientClosed : Bool
  serverClosed : Bool
  stage : Stage
  failed : Bool
  heard : List Bytes
  written : Bytes

namespace Conn

/-- Before `connect`. -/
def new : Conn := ⟨[], [], false, false, .fresh, false, [], []⟩

/-- The client sends bytes. -/
def send (c : Conn) (bytes : Bytes) : Conn := { c with toServer := c.toServer ++ bytes }

/-- The server receives `n` bytes. -/
def hear (c : Conn) (n : ℕ) : Conn :=
  { c with toServer := c.toServer.drop n, heard := c.heard ++ [c.toServer.take n] }

/-- The server sends bytes. -/
def write (c : Conn) (bytes : Bytes) : Conn :=
  { c with toClient := c.toClient ++ bytes, written := c.written ++ bytes }

/-- The client receives `n` bytes. -/
def take (c : Conn) (n : ℕ) : Conn := { c with toClient := c.toClient.drop n }

def fail (c : Conn) : Conn := { c with failed := true }

def move (c : Conn) (stage : Stage) : Conn := { c with stage := stage }

/-- The server's socket is destroyed. -/
def drop (c : Conn) : Conn := { c with serverClosed := true, stage := .closed }

/-- The client's socket is destroyed. -/
def leave (c : Conn) : Conn := { c with clientClosed := true }

end Conn

/-! ## The threads -/

/-- `tasks` are those of the pool that no thread has begun; `stopped` is set when the destructor of
the pool stops it. `client_count` is an `int`: far more than all connections that there can be. -/
structure Shared (ι : Type*) where
  conns : ι → Conn
  backlog : List ι
  tasks : List ι
  stopped : Bool
  clientCount : ℤ

/-- `inl i` calls `http_request`, `inr none` runs `start`, `inr (some k)` is a thread of its
pool. -/
abbrev Thread (ι : Type*) := ι ⊕ Option (Fin 4)

/-- Where a thread is. -/
inductive Pc (ι : Type*)
  -- http_request; at `leave` the socket is destroyed
  | connect
  | send (rest : Bytes)
  | receive
  | leave (result : Option Bytes)
  | returned (response : Bytes)
  | threw
  -- start; at `drop` the pool is destroyed, with the tasks that it has left
  | accept
  | post (i : ι)
  | drop
  | stopped
  -- a thread of the pool; from `enter` to `exit` in `handle_client`
  | idle
  | enter (i : ι)
  | read (i : ι)
  | write (i : ι) (closes : Bool) (rest : Bytes)
  | exit (i : ι)
  | close (i : ι)
  deriving DecidableEq

/-- How a thread goes on: `bytes n` transfers `n` bytes, `run i` begins a task, `fail` is a call
that throws; `go` is the only way on where there is one. -/
inductive Choice (ι : Type*)
  | go
  | bytes (n : ℕ)
  | run (i : ι)
  | fail
  deriving DecidableEq

variable {ι : Type*} [DecidableEq ι]

/-- A step on connection `i`. -/
def Shared.on (s : Shared ι) (i : ι) (c : Conn) : Shared ι :=
  { s with conns := Function.update s.conns i c }

/-- `http_request` on connection `i`; `text` is the request. -/
def clientStep (text : Bytes) (i : ι) (s : Shared ι) : Pc ι → Choice ι → Option (Shared ι × Pc ι)
  | .connect, .go =>
    some ({ s.on i ((s.conns i).move .waiting) with backlog := s.backlog ++ [i] }, .send text)
  | .connect, .fail => some (s.on i (s.conns i).fail, .threw)
  | .send rest, .bytes n =>
    if 0 < n ∧ n ≤ rest.length then
      some (s.on i ((s.conns i).send (rest.take n)), .send (rest.drop n))
    else none
  | .send [], .go => some (s, .receive)
  | .send _, .fail => some (s.on i (s.conns i).fail, .leave none)
  | .receive, .bytes n =>
    if 0 < n ∧ n ≤ 1024 ∧ n ≤ (s.conns i).toClient.length then
      some (s.on i ((s.conns i).take n), .leave (some ((s.conns i).toClient.take n)))
    else none
  | .receive, .go =>
    if (s.conns i).toClient = [] ∧ (s.conns i).serverClosed = true then some (s, .leave none)
    else none
  | .receive, .fail => some (s.on i (s.conns i).fail, .leave none)
  | .leave (some response), .go => some (s.on i (s.conns i).leave, .returned response)
  | .leave none, .go => some (s.on i (s.conns i).leave, .threw)
  | _, _ => none

/-- `start`. -/
def startStep (s : Shared ι) : Pc ι → Choice ι → Option (Shared ι × Pc ι)
  | .accept, .go =>
    match s.backlog with
    | i :: backlog => some ({ s.on i ((s.conns i).move .accepted) with backlog := backlog },
      .post i)
    | [] => none
  | .accept, .fail => some ({ s with stopped := true }, .drop)
  | .post i, .go => some ({ s.on i ((s.conns i).move .posted) with tasks := s.tasks ++ [i] },
    .accept)
  | .drop, .go =>
    match s.tasks with
    | i :: tasks => some ({ s.on i (s.conns i).drop with tasks := tasks }, .drop)
    | [] => some (s, .stopped)
  | _, _ => none

/-- A thread of the pool. -/
def poolStep (limits : Limits) (k : Fin 4) (s : Shared ι) :
    Pc ι → Choice ι → Option (Shared ι × Pc ι)
  | .idle, .run i =>
    if i ∈ s.tasks ∧ s.stopped = false then
      some ({ s.on i ((s.conns i).move (.taken k)) with tasks := s.tasks.erase i }, .enter i)
    else none
  -- handle_client
  | .enter i, .go => some ({ s with clientCount := s.clientCount + 1 }, .read i)
  | .read i, .bytes n =>
    if 0 < n ∧ n ≤ 1024 ∧ n ≤ (s.conns i).toServer.length then
      match parseRequest limits ((s.conns i).toServer.take n) with
      | .error _ => some (s.on i ((s.conns i).hear n), .exit i)
      | .ok request =>
        some (s.on i ((s.conns i).hear n), .write i request.closes (route request).toString)
    else none
  | .read i, .go =>
    if (s.conns i).toServer = [] ∧ (s.conns i).clientClosed = true then some (s, .exit i) else none
  | .read i, .fail => some (s.on i (s.conns i).fail, .exit i)
  | .write i closes rest, .bytes n =>
    if 0 < n ∧ n ≤ rest.length then
      some (s.on i ((s.conns i).write (rest.take n)), .write i closes (rest.drop n))
    else none
  | .write i closes [], .go => some (s, if closes then .exit i else .read i)
  | .write i _ _, .fail => some (s.on i (s.conns i).fail, .exit i)
  | .exit i, .go => some ({ s with clientCount := s.clientCount - 1 }, .close i)
  -- the task is destroyed, with its socket
  | .close i, .go => some (s.on i (s.conns i).drop, .idle)
  | _, _ => none

/-- The program of a thread. -/
def step (limits : Limits) (text : ι → Bytes) : Thread ι → Shared ι → Pc ι → Choice ι →
    Option (Shared ι × Pc ι)
  | .inl i => clientStep (text i) i
  | .inr none => startStep
  | .inr (some k) => poolStep limits k

/-- The server, when it has begun to accept, and its clients. Client `i` sends `text i`. -/
def prog (limits : Limits) (text : ι → Bytes) :
    Prog (Thread ι) Empty (Shared ι) (Pc ι) (Choice ι) where
  init := ⟨fun _ => .new, [], [], false, 0⟩
  start := Sum.elim (fun _ => .connect) fun k => if k.isSome then .idle else .accept
  step := fun t s p x => (step limits text t s p x).map fun r => (r.1, r.2, .tau)
  wake := fun v _ => v.elim

/-- A state of the server and its clients. -/
abbrev State (ι : Type*) := Conf (Thread ι) (Shared ι) (Pc ι)

/-- `k` steps of thread `t` in a row. -/
def go (t : Thread ι) (k : ℕ) : List (Thread ι × Choice ι) := List.replicate k (t, .go)

end BackendTasks.HttpServer
