import BackendTasks.Sched.Monitor

/-!
# `BlockingQueue`

`multithreading/Blocking_Queue/main.cpp`. Separate steps of a thread are: locking the
mutex, one evaluation of a wait predicate, going to sleep on a condition variable
(which releases the mutex), waking up, each later read or write of the shared fields,
each notification, and the return, which releases the mutex.

A thread asleep wakes up notified, or by itself at any time: spuriously, or in
`pop_for` because of the timeout. Having the mutex again, `wait` evaluates its predicate
once more; so does `wait_for`, unless the timeout has passed (`Choice.expire`), when it
returns the predicate's value of that moment. `stop` does not lock the mutex.
-/

namespace BackendTasks.BlockingQueue

open Sched

/-- `cv_not_empty` and `cv_not_full`. -/
inductive Cv
  | notEmpty
  | notFull
  deriving DecidableEq

/-- The fields of a queue. Those from `accepted` on are history: the values pushed and the
values popped, in order; whether `cv_not_empty.notify_all()` of a `stop` is done, and whether a
`stop` has returned. -/
structure Shared (T : Type*) where
  dataQueue : List T
  running : Bool
  accepted : List T
  delivered : List T
  stopNotified : Bool
  stopReturned : Bool

/-- Where a thread is. -/
inductive Pc (T : Type*)
  | idle
  -- push; `pushGate` is at `if (!running_) return`
  | pushLock (value : T)
  | pushPred (value : T)
  | pushWait (value : T)
  | pushAsleep (value : T)
  | pushWoken (value : T) (notified : Bool)
  | pushGate (value : T)
  | pushStore (value : T)
  | pushNotify (value : T)
  | pushExit (value : T) (stored : Bool)
  -- pop_impl; `popLast` is after a timeout, `popReady` is at `ready = !data_queue.empty()`,
  -- `popGate` is at `if (!running_ || data_queue.empty())`
  | popLock (waitForever : Bool)
  | popPred (waitForever : Bool)
  | popWait (waitForever : Bool)
  | popAsleep (waitForever : Bool)
  | popWoken (waitForever notified : Bool)
  | popLast
  | popReady
  | popGate (waitForever : Bool)
  | popTake (waitForever : Bool)
  | popNotify (waitForever : Bool) (value : T)
  | popExit (waitForever : Bool) (value : Option T)
  -- stop
  | stopFlag
  | stopEmpty
  | stopFull
  deriving DecidableEq

/-- The call an idle thread makes, or how its call goes on: `go` is the only way on where
there is one, `wakeUp` is a wakeup without notification. -/
inductive Choice (ι T : Type*)
  | push (value : T)
  | pop
  | popFor
  | stop
  | go
  | notify (pick : Option ι)
  | wakeUp
  | expire

variable {ι T : Type*}

namespace Shared

/-- `data_queue.size() < capacity_ || !running_`. -/
def pushable (s : Shared T) (capacity : ℕ) : Bool := s.dataQueue.length < capacity || !s.running

/-- `!data_queue.empty() || !running_`. -/
def poppable (s : Shared T) : Bool := !s.dataQueue.isEmpty || !s.running

/-- `data_queue.push(value)`. -/
def store (s : Shared T) (value : T) : Shared T :=
  { s with dataQueue := s.dataQueue ++ [value], accepted := s.accepted ++ [value] }

end Shared

/-- The program of a thread: any sequence of `push`, `pop`, `pop_for` and `stop` calls. -/
def step (capacity : ℕ) (s : Shared T) :
    Pc T → Choice ι T → Option (Shared T × Pc T × Effect ι Cv)
  | .idle, .push v => some (s, .pushLock v, .tau)
  | .idle, .pop => some (s, .popLock true, .tau)
  | .idle, .popFor => some (s, .popLock false, .tau)
  | .idle, .stop => some (s, .stopFlag, .tau)
  -- push
  | .pushLock v, .go => some (s, .pushPred v, .acquire)
  | .pushPred v, .go =>
    if s.pushable capacity then some (s, .pushGate v, .tau) else some (s, .pushWait v, .tau)
  | .pushWait v, .go => some (s, .pushAsleep v, .release)
  | .pushAsleep v, .wakeUp => some (s, .pushWoken v false, .tau)
  | .pushWoken v _, .go => some (s, .pushPred v, .acquire)
  | .pushGate v, .go =>
    if !s.running then some (s, .pushExit v false, .tau) else some (s, .pushStore v, .tau)
  | .pushStore v, .go => some (s.store v, .pushNotify v, .tau)
  | .pushNotify v, .notify j => some (s, .pushExit v true, .notifyOne .notEmpty j)
  | .pushExit _ _, .go => some (s, .idle, .release)
  -- pop_impl
  | .popLock w, .go => some (s, .popPred w, .acquire)
  | .popPred w, .go =>
    if s.poppable then some (s, if w then .popReady else .popGate w, .tau)
    else some (s, .popWait w, .tau)
  | .popWait w, .go => some (s, .popAsleep w, .release)
  | .popAsleep w, .wakeUp => some (s, .popWoken w false, .tau)
  | .popWoken w _, .go => some (s, .popPred w, .acquire)
  | .popWoken false _, .expire => some (s, .popLast, .acquire)
  | .popLast, .go =>
    if s.poppable then some (s, .popGate false, .tau) else some (s, .popExit false none, .tau)
  | .popReady, .go =>
    if s.dataQueue.isEmpty then some (s, .popExit true none, .tau) else some (s, .popGate true, .tau)
  | .popGate w, .go =>
    if !s.running || s.dataQueue.isEmpty then some (s, .popExit w none, .tau)
    else some (s, .popTake w, .tau)
  | .popTake w, .go =>
    match s.dataQueue with
    | v :: rest =>
      some ({ s with dataQueue := rest, delivered := s.delivered ++ [v] }, .popNotify w v, .tau)
    | [] => none -- undefined behaviour
  | .popNotify w v, .notify j => some (s, .popExit w (some v), .notifyOne .notFull j)
  | .popExit _ _, .go => some (s, .idle, .release)
  -- stop
  | .stopFlag, .go => some ({ s with running := false }, .stopEmpty, .tau)
  | .stopEmpty, .go => some ({ s with stopNotified := true }, .stopFull, .notifyAll .notEmpty)
  | .stopFull, .go => some ({ s with stopReturned := true }, .idle, .notifyAll .notFull)
  | _, _ => none

/-- Where a thread asleep on a condition variable is once notified. -/
def wake : Cv → Pc T → Option (Pc T)
  | .notFull, .pushAsleep v => some (.pushWoken v true)
  | .notEmpty, .popAsleep w => some (.popWoken w true)
  | _, _ => none

/-- The constructed queue. -/
def construct : Shared T where
  dataQueue := []
  running := true
  accepted := []
  delivered := []
  stopNotified := false
  stopReturned := false

/-- Any number of threads using the constructed queue. -/
def prog (ι T : Type*) (capacity : ℕ) : Prog ι Cv (Shared T) (Pc T) (Choice ι T) where
  init := construct
  start := fun _ => .idle
  step := fun _ s p x => step capacity s p x
  wake := wake

/-- A state of the queue and the threads using it. -/
abbrev State (ι T : Type*) := Conf ι (Shared T) (Pc T)

/-- `k` steps of thread `t` in a row. -/
def go (t : ι) (k : ℕ) : List (ι × Choice ι T) := List.replicate k (t, .go)

/-- A whole `push(value)` of thread `t` into a queue that is not full, nobody being asleep. -/
def pushAlone (t : ι) (value : T) : List (ι × Choice ι T) :=
  (t, .push value) :: go t 4 ++ (t, .notify none) :: go t 1

end BackendTasks.BlockingQueue
