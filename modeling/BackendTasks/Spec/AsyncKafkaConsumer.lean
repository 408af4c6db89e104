import BackendTasks.Net.Bytes
import BackendTasks.Sched.Monitor

/-!
# `Async_Kafka_Consumer`

`kafka/kafka_async/src/Async_Kafka_Consumer.cpp`. One thread runs `worker_loop`; all others
call `poll_message` and `stop`. Separate steps are: each read and write of `stop_`, `consume`,
locking and unlocking the mutex, one evaluation of the wait predicate, going to sleep (which
releases the mutex), waking up, the push, looking into the queue and taking what is there, each
notification, and the `join`.

`wait_for` returns when its predicate holds; once the time has passed (`Choice.expire`) it
returns the predicate's value of that moment.
-/

namespace BackendTasks.AsyncKafkaConsumer

open Net Sched

/-- What `consume` gives: a message, with the payload it has, or why there is none. -/
inductive Outcome
  | message (payload : Option Bytes)
  | timedOut
  | partitionEof
  | error (code : ℤ)
  deriving DecidableEq

/-- The payload of a message, if it has one that is not empty. -/
def Outcome.payload : Outcome → Option Bytes
  | .message (some payload) => if payload = [] then none else some payload
  | _ => none

/-- The fields of a consumer, and whether the worker has returned. The fields from `outcomes` on
are history: what `consume` gave; the payloads pushed and those taken out, in order; whether `stop`
was called and has returned. -/
structure Shared where
  queue : List Bytes
  stop : Bool
  finished : Bool
  outcomes : List Outcome
  accepted : List Bytes
  taken : List Bytes
  stopCalled : Bool
  stopReturned : Bool

/-- Where a thread is. -/
inductive Pc
  | idle
  -- poll_message; `pollLast` is after a timeout, `pollTake` at `if (!queue_.empty())`, `pollExit`
  -- holds what was taken out, if anything was
  | pollTest
  | pollLock
  | pollPred
  | pollWait
  | pollAsleep
  | pollWoken (notified : Bool)
  | pollLast
  | pollTake
  | pollExit (msg : Option Bytes)
  -- worker_loop
  | test
  | consume
  | lock (payload : Bytes)
  | push (payload : Bytes)
  | unlock
  | notify
  | done
  -- stop
  | stopSet
  | stopNotify
  | stopJoin
  deriving DecidableEq

/-- The call an idle thread makes, or how its call goes on: `go` is the only way on where
there is one, `wakeUp` is a wakeup without notification. -/
inductive Choice (ι : Type*)
  | poll
  | stop
  | consume (outcome : Outcome)
  | go
  | notify (pick : Option ι)
  | wakeUp
  | expire

variable {ι : Type*}

/-- `!queue_.empty() || stop_.load()`. -/
def Shared.ready (s : Shared) : Bool := !s.queue.isEmpty || s.stop

/-- The program of a thread. -/
def step (s : Shared) : Pc → Choice ι → Option (Shared × Pc × Effect ι Unit)
  -- poll_message
  | .idle, .poll => some (s, .pollTest, .tau)
  | .pollTest, .go => if s.stop then some (s, .idle, .tau) else some (s, .pollLock, .tau)
  | .pollLock, .go => some (s, .pollPred, .acquire)
  | .pollPred, .go => if s.ready then some (s, .pollTake, .tau) else some (s, .pollWait, .tau)
  | .pollWait, .go => some (s, .pollAsleep, .release)
  | .pollAsleep, .wakeUp => some (s, .pollWoken false, .tau)
  | .pollWoken _, .go => some (s, .pollPred, .acquire)
  | .pollWoken _, .expire => some (s, .pollLast, .acquire)
  | .pollLast, .go => if s.ready then some (s, .pollTake, .tau) else some (s, .pollExit none, .tau)
  | .pollTake, .go =>
    match s.queue with
    | msg :: rest => some ({ s with queue := rest, taken := s.taken ++ [msg] }, .pollExit (some msg), .tau)
    | [] => some (s, .pollExit none, .tau)
  | .pollExit _, .go => some (s, .idle, .release)
  -- worker_loop
  | .test, .go => if s.stop then some ({ s with finished := true }, .done, .tau) else some (s, .consume, .tau)
  | .consume, .consume outcome =>
    let s := { s with outcomes := s.outcomes ++ [outcome] }
    match outcome.payload with
    | some payload => some (s, .lock payload, .tau)
    | none => some (s, .test, .tau)
  | .lock payload, .go => some (s, .push payload, .acquire)
  | .push payload, .go =>
    some ({ s with queue := s.queue ++ [payload], accepted := s.accepted ++ [payload] }, .unlock, .tau)
  | .unlock, .go => some (s, .notify, .release)
  | .notify, .notify j => some (s, .test, .notifyOne () j)
  -- stop
  | .idle, .stop =>
    if s.stopReturned then some (s, .idle, .tau)
    else if s.stopCalled then none -- joining twice at a time: undefined behaviour
    else some ({ s with stopCalled := true }, .stopSet, .tau)
  | .stopSet, .go => some ({ s with stop := true }, .stopNotify, .tau)
  | .stopNotify, .notify j => some (s, .stopJoin, .notifyOne () j)
  | .stopJoin, .go => if s.finished then some ({ s with stopReturned := true }, .idle, .tau) else none
  | _, _ => none

/-- Where a poller is once notified. -/
def wake : Unit → Pc → Option Pc
  | _, .pollAsleep => some (.pollWoken true)
  | _, _ => none

/-- The constructed consumer. -/
def construct : Shared where
  queue := []
  stop := false
  finished := false
  outcomes := []
  accepted := []
  taken := []
  stopCalled := false
  stopReturned := false

/-- The worker of the constructed consumer and any number of threads using it. -/
def prog [DecidableEq ι] (worker : ι) : Prog ι Unit Shared Pc (Choice ι) where
  init := construct
  start := fun i => if i = worker then .test else .idle
  step := fun _ s p x => step s p x
  wake := wake

/-- A state of the consumer, its worker and the threads using it. -/
abbrev State (ι : Type*) := Conf ι Shared Pc

end BackendTasks.AsyncKafkaConsumer
