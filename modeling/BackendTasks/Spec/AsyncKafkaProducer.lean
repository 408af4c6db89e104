import BackendTasks.Sched.Monitor

/-!
# `Async_Kafka_Producer`

`kafka/kafka_async/src/Async_Kafka_Producer.cpp`. One thread runs `worker_loop`; all others
call `send` and `stop`. Separate steps are: each read and write of `stop_`, locking and
unlocking the mutex, one evaluation of the wait predicate, going to sleep (which releases the mutex),
waking up, the push and each round of the drain loop, each notification, each call of librdkafka
and the `join`.

`wait_for` ends when its predicate holds or the time has passed (`Choice.expire`); its result is
not used.
-/

namespace BackendTasks.AsyncKafkaProducer

open Sched

structure Message (T : Type*) where
  payload : T
  errorCode : ℤ
  deriving DecidableEq

/-- The fields of a producer, and whether the worker has returned. The fields from `accepted` on
are history: the records pushed and the records taken out and checked, in order; the numbers of those
whose `send` returned before `stop` was called; whether `stop` was called and has returned. -/
structure Shared (T : Type*) where
  queue : List (Message T)
  stop : Bool
  finished : Bool
  accepted : List (Message T)
  handled : List (Message T)
  due : List ℕ
  stopCalled : Bool
  stopReturned : Bool

/-- Where a thread is. -/
inductive Pc (T : Type*)
  | idle
  -- send
  | sendTest (payload : T)
  | sendProduce (payload : T)
  | sendLock (msg : Message T)
  | sendPush (msg : Message T)
  | sendUnlock (record : ℕ)
  | sendNotify (record : ℕ)
  -- worker_loop; `test` is at `while (!stop_.load())`, `check` at the `if` behind `wait_for`,
  -- `leave` at its `break`
  | test
  | lock
  | pred
  | wait
  | asleep
  | woken (notified : Bool)
  | check
  | leave
  | drain
  | unlock
  | poll
  | flush
  | done
  -- stop
  | stopSet
  | stopNotify
  | stopJoin

/-- The call an idle thread makes, or how its call goes on: `go` is the only way on where
there is one, `wakeUp` is a wakeup without notification. -/
inductive Choice (ι T : Type*)
  | send (payload : T)
  | stop
  | produce (err : ℤ)
  | go
  | notify (pick : Option ι)
  | wakeUp
  | expire

variable {ι T : Type*}

namespace Shared

/-- `!queue_.empty() || stop_.load()`. -/
def ready (s : Shared T) : Bool := !s.queue.isEmpty || s.stop

/-- `queue_.push(std::move(msg))`. -/
def push (s : Shared T) (msg : Message T) : Shared T :=
  { s with queue := s.queue ++ [msg], accepted := s.accepted ++ [msg] }

/-- A `send` returns. -/
def complete (s : Shared T) (record : ℕ) : Shared T :=
  if s.stopCalled then s else { s with due := s.due ++ [record] }

end Shared

/-- The program of a thread. -/
def step (s : Shared T) : Pc T → Choice ι T → Option (Shared T × Pc T × Effect ι Unit)
  -- send
  | .idle, .send payload => some (s, .sendTest payload, .tau)
  | .sendTest payload, .go =>
    if s.stop then some (s, .idle, .tau) else some (s, .sendProduce payload, .tau)
  | .sendProduce payload, .produce err => some (s, .sendLock ⟨payload, err⟩, .tau)
  | .sendLock msg, .go => some (s, .sendPush msg, .acquire)
  | .sendPush msg, .go => some (s.push msg, .sendUnlock s.accepted.length, .tau)
  | .sendUnlock record, .go => some (s, .sendNotify record, .release)
  | .sendNotify record, .notify j => some (s.complete record, .idle, .notifyOne () j)
  -- worker_loop
  | .test, .go => if s.stop then some (s, .flush, .tau) else some (s, .lock, .tau)
  | .lock, .go => some (s, .pred, .acquire)
  | .pred, .go => if s.ready then some (s, .check, .tau) else some (s, .wait, .tau)
  | .wait, .go => some (s, .asleep, .release)
  | .asleep, .wakeUp => some (s, .woken false, .tau)
  | .woken _, .go => some (s, .pred, .acquire)
  | .woken _, .expire => some (s, .check, .acquire)
  | .check, .go =>
    if s.stop && s.queue.isEmpty then some (s, .leave, .tau) else some (s, .drain, .tau)
  | .leave, .go => some (s, .flush, .release)
  | .drain, .go =>
    match s.queue with
    | msg :: rest => some ({ s with queue := rest, handled := s.handled ++ [msg] }, .drain, .tau)
    | [] => some (s, .unlock, .tau)
  | .unlock, .go => some (s, .poll, .release)
  | .poll, .go => some (s, .test, .tau)
  | .flush, .go => some ({ s with finished := true }, .done, .tau)
  -- stop
  | .idle, .stop =>
    if s.stopReturned then some (s, .idle, .tau)
    else if s.stopCalled then none -- joining twice at a time: undefined behaviour
    else some ({ s with stopCalled := true }, .stopSet, .tau)
  | .stopSet, .go => some ({ s with stop := true }, .stopNotify, .tau)
  | .stopNotify, .notify j => some (s, .stopJoin, .notifyOne () j)
  | .stopJoin, .go => if s.finished then some ({ s with stopReturned := true }, .idle, .tau) else none
  | _, _ => none

/-- Where the worker is once notified. -/
def wake : Unit → Pc T → Option (Pc T)
  | _, .asleep => some (.woken true)
  | _, _ => none

/-- The constructed producer. -/
def construct : Shared T where
  queue := []
  stop := false
  finished := false
  accepted := []
  handled := []
  due := []
  stopCalled := false
  stopReturned := false

/-- The worker of the constructed producer and any number of threads using it. -/
def prog [DecidableEq ι] (T : Type*) (worker : ι) : Prog ι Unit (Shared T) (Pc T) (Choice ι T) where
  init := construct
  start := fun i => if i = worker then .test else .idle
  step := fun _ s p x => step s p x
  wake := wake

/-- A state of the producer, its worker and the threads using it. -/
abbrev State (ι T : Type*) := Conf ι (Shared T) (Pc T)

/-- `k` steps of thread `t` in a row. -/
def go (t : ι) (k : ℕ) : List (ι × Choice ι T) := List.replicate k (t, .go)

/-- A whole `send(payload)` of thread `t`, the worker being awake. -/
def sendAlone (t : ι) (payload : T) : List (ι × Choice ι T) :=
  (t, .send payload) :: (t, .go) :: (t, .produce 0) :: go t 3 ++ [(t, .notify none)]

end BackendTasks.AsyncKafkaProducer
