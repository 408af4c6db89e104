import BackendTasks.Sched.Monitor
import Mathlib.Logic.Function.Basic

/-!
# `Thread_Pool`

`multithreading/Thread_Pool/main.cpp`. The threads of `threads_` run `worker`; all others
make any `enqueue` and `stop` calls. Separate steps are: locking the mutex, one evaluation of
the wait predicate, going to sleep (which releases the mutex), waking up, each later read or
write of the shared fields, unlocking, each notification, and each `join`.

A task is run in no fixed number of steps: it may make `enqueue` calls one after the other
for as long as it likes, and returns at some point or never.
-/

namespace BackendTasks.ThreadPool

open Sched

/-- A task that was enqueued, with the number of the `enqueue`. -/
abbrev Item (Task : Type*) := ℕ × Task

/-- The fields of a pool. `finished` says which workers have returned. The fields from
`enqueued` on are history: the tasks pushed, the tasks workers took, and the tasks that have
returned, in order; whether a `stop` has been called, has done its `notify_all`, and has
returned. -/
structure Shared (ι Task : Type*) where
  tasks : List (Item Task)
  stop : Bool
  finished : ι → Bool
  enqueued : List (Item Task)
  taken : List (Item Task)
  executed : List (Item Task)
  stopCalled : Bool
  allNotified : Bool
  stopReturned : Bool

/-- Where a thread is. -/
inductive Pc (ι Task : Type*)
  | idle
  -- worker; `test` is at `if (stop_ && tasks_.empty())`, `leave` at its `return`
  | lock
  | pred
  | wait
  | asleep
  | woken (notified : Bool)
  | test
  | take
  | unlock (task : Item Task)
  | run (task : Item Task)
  | leave
  | done
  -- enqueue, called in a task or outside
  | enqLock (caller : Option (Item Task)) (task : Task)
  | enqPush (caller : Option (Item Task)) (task : Task)
  | enqUnlock (caller : Option (Item Task))
  | enqNotify (caller : Option (Item Task))
  -- stop
  | stopLock
  | stopSet
  | stopUnlock
  | stopNotify
  | stopJoin (threads : List ι)
  deriving DecidableEq

/-- The call a thread makes, or how its call goes on: `go` is the only way on where there is
one, and lets a task return; `wakeUp` is a spurious wakeup. -/
inductive Choice (ι Task : Type*)
  | enqueue (task : Task)
  | stop
  | go
  | notify (pick : Option ι)
  | wakeUp

variable {ι Task : Type*}

namespace Shared

/-- `stop_ || !tasks_.empty()`. -/
def ready (s : Shared ι Task) : Bool := s.stop || !s.tasks.isEmpty

/-- `tasks_.push(task)`. -/
def push (s : Shared ι Task) (task : Task) : Shared ι Task :=
  { s with
    tasks := s.tasks ++ [(s.enqueued.length, task)]
    enqueued := s.enqueued ++ [(s.enqueued.length, task)] }

/-- The task returns. -/
def execute (s : Shared ι Task) (task : Item Task) : Shared ι Task :=
  { s with executed := s.executed ++ [task] }

/-- Worker `i` returns. -/
def finish [DecidableEq ι] (s : Shared ι Task) (i : ι) : Shared ι Task :=
  { s with finished := Function.update s.finished i true }

end Shared

/-- Where `enqueue` returns to. -/
def resume : Option (Item Task) → Pc ι Task
  | some task => .run task
  | none => .idle

/-- The program of thread `i`. -/
def step [DecidableEq ι] (threads : List ι) (i : ι) (s : Shared ι Task) :
    Pc ι Task → Choice ι Task → Option (Shared ι Task × Pc ι Task × Effect ι Unit)
  -- worker
  | .lock, .go => some (s, .pred, .acquire)
  | .pred, .go => if s.ready then some (s, .test, .tau) else some (s, .wait, .tau)
  | .wait, .go => some (s, .asleep, .release)
  | .asleep, .wakeUp => some (s, .woken false, .tau)
  | .woken _, .go => some (s, .pred, .acquire)
  | .test, .go => if s.stop && s.tasks.isEmpty then some (s, .leave, .tau) else some (s, .take, .tau)
  | .take, .go =>
    match s.tasks with
    | task :: rest => some ({ s with tasks := rest, taken := s.taken ++ [task] }, .unlock task, .tau)
    | [] => none -- undefined behaviour
  | .unlock task, .go => some (s, .run task, .release)
  | .run task, .enqueue new => some (s, .enqLock (some task) new, .tau)
  | .run task, .go => some (s.execute task, .lock, .tau)
  | .leave, .go => some (s.finish i, .done, .release)
  -- enqueue
  | .idle, .enqueue task => some (s, .enqLock none task, .tau)
  | .enqLock caller task, .go => some (s, .enqPush caller task, .acquire)
  | .enqPush caller task, .go => some (s.push task, .enqUnlock caller, .tau)
  | .enqUnlock caller, .go => some (s, .enqNotify caller, .release)
  | .enqNotify caller, .notify j => some (s, resume caller, .notifyOne () j)
  -- stop
  | .idle, .stop => some ({ s with stopCalled := true }, .stopLock, .tau)
  | .stopLock, .go => some (s, .stopSet, .acquire)
  | .stopSet, .go => some ({ s with stop := true }, .stopUnlock, .tau)
  | .stopUnlock, .go => some (s, .stopNotify, .release)
  | .stopNotify, .go => some ({ s with allNotified := true }, .stopJoin threads, .notifyAll ())
  | .stopJoin (j :: rest), .go => if s.finished j then some (s, .stopJoin rest, .tau) else none
  | .stopJoin [], .go => some ({ s with stopReturned := true }, .idle, .tau)
  | _, _ => none

/-- Where a worker asleep on `cv_` is once notified. -/
def wake : Unit → Pc ι Task → Option (Pc ι Task)
  | _, .asleep => some (.woken true)
  | _, _ => none

/-- The constructed pool. -/
def construct : Shared ι Task where
  tasks := []
  stop := false
  finished := fun _ => false
  enqueued := []
  taken := []
  executed := []
  stopCalled := false
  allNotified := false
  stopReturned := false

/-- The workers of the constructed pool and any number of threads using it. -/
def prog [DecidableEq ι] (Task : Type*) (threads : List ι) :
    Prog ι Unit (Shared ι Task) (Pc ι Task) (Choice ι Task) where
  init := construct
  start := fun i => if i ∈ threads then .lock else .idle
  step := step threads
  wake := wake

/-- A state of the pool, its workers and the threads using it. -/
abbrev State (ι Task : Type*) := Conf ι (Shared ι Task) (Pc ι Task)

/-- `k` steps of thread `i` in a row. -/
def go (i : ι) (k : ℕ) : List (ι × Choice ι Task) := List.replicate k (i, .go)

end BackendTasks.ThreadPool
