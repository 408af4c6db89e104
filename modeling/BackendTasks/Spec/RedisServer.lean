import BackendTasks.Net.Text
import Mathlib.Logic.Function.Basic

/-!
# `Http_Server` and `Redis_Client`

`redis/redis_demo/src/http_server.cpp` and `redis_client.cpp`. The Redis server is a map from byte
strings to byte strings. What becomes of a command that `redisCommand` sends is a
parameter (`Fate`). Keys and values go to it as C strings, and so does the value of a reply
come back.
-/

namespace BackendTasks.RedisServer

open Net

/-! ## The Redis server -/

abbrev Store := Bytes → Option Bytes

/-- The `type` of a `redisReply`, with its `str`. -/
inductive RedisReply
  | string (str : Bytes)
  | status (str : Bytes)
  | error (str : Bytes)
  | nil
  deriving DecidableEq

inductive Command
  | set (key value : Bytes)
  | get (key : Bytes)

/-- What the server does with a command. -/
def Command.run (store : Store) : Command → Store × RedisReply
  | .set key value => (Function.update store key (some value), .status (ascii "OK"))
  | .get key =>
    match store key with
    | some value => (store, .string value)
    | none => (store, .nil)

/-- What becomes of a command: it is carried out, it is turned down with an error, or no reply
arrives, whether it was carried out or not. -/
inductive Fate
  | done
  | refused (str : Bytes)
  | lost (carriedOut : Bool)

/-- `redisCommand`. The null pointer is `none`. -/
def redisCommand (fate : Fate) (store : Store) (command : Command) : Store × Option RedisReply :=
  match fate with
  | .done => ((command.run store).1, some (command.run store).2)
  | .refused str => (store, some (.error str))
  | .lost carriedOut => (if carriedOut then (command.run store).1 else store, none)

/-! ## `Redis_Client` -/

/-- A client without a `context_` does nothing. -/
structure RedisClient where
  context : Bool

namespace RedisClient

def set (client : RedisClient) (fate : Fate) (store : Store) (key value : Bytes) : Store × Bool :=
  if !client.context then (store, false)
  else
    match redisCommand fate store (.set (cstr key) (cstr value)) with
    | (store, none) => (store, false)
    | (store, some _) => (store, true)

def get (client : RedisClient) (fate : Fate) (store : Store) (key : Bytes) : Store × Bytes :=
  if !client.context then (store, [])
  else
    match redisCommand fate store (.get (cstr key)) with
    | (store, none) => (store, [])
    | (store, some (.string str)) => (store, cstr str)
    | (store, some _) => (store, [])

end RedisClient

/-! ## `Http_Server` -/

inductive Verb
  | get
  | post
  | other
  deriving DecidableEq

structure Request where
  method : Verb
  target : Bytes
  body : Bytes

/-- `http::status::ok` and `http::status::bad_request`. -/
inductive Status
  | ok
  | badRequest
  deriving DecidableEq

structure Response where
  result : Status
  body : Bytes
  deriving DecidableEq

/-- `do_action`, with what becomes of the command it sends. -/
def doAction (client : RedisClient) (fate : Fate) (store : Store) (req : Request) : Store × Response :=
  match req.method with
  | .get =>
    let key := if req.target.head? = some 47 then req.target.tail else req.target
    let (store, value) := client.get fate store key
    (store, ⟨.ok, value⟩)
  | .post =>
    if 61 ∈ req.body then
      let key := req.body.takeWhile (· != 61)
      let value := (req.body.dropWhile (· != 61)).tail
      let (store, _) := client.set fate store key value
      (store, ⟨.ok, ascii "OK"⟩)
    else (store, ⟨.badRequest, ascii "Bad body format"⟩)
  | .other => (store, ⟨.badRequest, ascii "Unsupported method"⟩)

/-! ## Sessions -/

/-- Where `handle_session` throws: in `http::read`, in `do_action` (before or after the command), in
`http::write`, or in `socket.shutdown`. -/
inductive Fault
  | read
  | action (after : Bool)
  | write
  | shutdown
  deriving DecidableEq

/-- A connection that is accepted: what `http::read` gives, what becomes of the command, and where it
goes wrong, if it does. -/
structure Session where
  req : Request
  fate : Fate
  fault : Option Fault

/-- What a session leaves: the response, if it is written, and whether an exception is. -/
structure Outcome where
  store : Store
  res : Option Response
  throws : Bool

def handleSession (client : RedisClient) (store : Store) (session : Session) : Outcome :=
  let (after, res) := doAction client session.fate store session.req
  match session.fault with
  | some .read => ⟨store, none, true⟩
  | some (.action false) => ⟨store, none, true⟩
  | some (.action true) => ⟨after, none, true⟩
  | some .write => ⟨after, none, true⟩
  | some .shutdown => ⟨after, some res, true⟩
  | none => ⟨after, some res, false⟩

/-- The loop of `Http_Server::run` inside its `try` block, for the connections that are accepted one
after the other: each that is handled, with its response. -/
def run (client : RedisClient) (store : Store) : List Session → List (Session × Option Response)
  | [] => []
  | session :: sessions =>
    let outcome := handleSession client store session
    (session, outcome.res) ::
      if outcome.throws then [] else run client outcome.store sessions

end BackendTasks.RedisServer
