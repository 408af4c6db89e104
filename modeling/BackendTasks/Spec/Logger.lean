import BackendTasks.Sched.Monitor
import BackendTasks.Net.Text

/-!
# `Logger`

`multithreading/Logger/main.cpp`. One thread owns the logger and makes any `start` and `stop` calls,
the destructor's `stop` among them; each `start` appends five threads to `threads_`. A thread's
separate steps are: locking the mutex, each character that goes to `std::cout`, and unlocking.
`running_` is written and never read.

At most `n` threads are made in all, the `k`-th of them being thread `some k`.
-/

namespace BackendTasks.Logger

open Sched Net

/-- `"Threads " << i << ": msg: " << j << '\n'`. -/
def line (i j : ℕ) : Bytes :=
  ascii "Threads " ++ toDecimal i ++ ascii ": msg: " ++ toDecimal j ++ [10]

/-- The fields of a logger and what was written to `std::cout`. `threads` has the captured `i` of each
thread. The field `logged` is history: the thread, its `i` and the `j` of each message, in the order
in which they were begun. -/
structure Shared (n : ℕ) where
  threads : List ℕ
  running : Bool
  finished : Fin n → Bool
  joinable : Fin n → Bool
  out : Bytes
  logged : List (Fin n × ℕ × ℕ)

/-- Where a thread is. -/
inductive Pc
  -- the owner; `startThread i` is at the `i`-th turn of the loop, `stopJoin k` at `threads_[k]`
  | idle
  | startFlag
  | startThread (i : ℕ)
  | stopFlag
  | stopJoin (k : ℕ)
  -- a thread of `threads_`; `write` has the characters that are not written yet
  | begin
  | lock (i j : ℕ)
  | write (i j : ℕ) (rest : Bytes)
  | done
  deriving DecidableEq

/-- The call of the owner, or one more step. -/
inductive Choice
  | start
  | stop
  | go
  deriving DecidableEq

variable {n : ℕ}

/-- The program of a thread. -/
def step (t : Option (Fin n)) (s : Shared n) :
    Pc → Choice → Option (Shared n × Pc × Effect (Option (Fin n)) Empty)
  -- start
  | .idle, .start => some (s, .startFlag, .tau)
  | .startFlag, .go => some ({ s with running := true }, .startThread 1, .tau)
  | .startThread i, .go =>
    if i ≤ 5 then
      if h : s.threads.length < n then
        some ({ s with
          threads := s.threads ++ [i]
          joinable := Function.update s.joinable ⟨s.threads.length, h⟩ true }, .startThread (i + 1), .tau)
      else none
    else some (s, .idle, .tau)
  -- stop
  | .idle, .stop => some (s, .stopFlag, .tau)
  | .stopFlag, .go => some ({ s with running := false }, .stopJoin 0, .tau)
  | .stopJoin k, .go =>
    if h : k < s.threads.length ∧ k < n then
      if s.joinable ⟨k, h.2⟩ then
        if s.finished ⟨k, h.2⟩ then
          some ({ s with joinable := Function.update s.joinable ⟨k, h.2⟩ false }, .stopJoin (k + 1), .tau)
        else none
      else some (s, .stopJoin (k + 1), .tau)
    else some (s, .idle, .tau)
  -- a thread: the loop over `j`
  | .begin, .go =>
    match t with
    | some k => (s.threads[k.val]?).map fun i => (s, .lock i 1, .tau)
    | none => none
  | .lock i j, .go =>
    match t with
    | some k =>
      if j ≤ 5 then some ({ s with logged := s.logged ++ [(k, i, j)] }, .write i j (line i j), .acquire)
      else some ({ s with finished := Function.update s.finished k true }, .done, .tau)
    | none => none
  | .write i j (b :: rest), .go => some ({ s with out := s.out ++ [b] }, .write i j rest, .tau)
  | .write i j [], .go => some (s, .lock i (j + 1), .release)
  | _, _ => none

/-- The constructed logger. -/
def construct : Shared n where
  threads := []
  running := false
  finished := fun _ => false
  joinable := fun _ => false
  out := []
  logged := []

/-- The owner of the constructed logger and the threads it makes. -/
def prog (n : ℕ) : Prog (Option (Fin n)) Empty (Shared n) Pc Choice where
  init := construct
  start := fun t => if t.isSome then .begin else .idle
  step := step
  wake := fun v _ => v.elim

/-- A state of the logger and its threads. -/
abbrev State (n : ℕ) := Conf (Option (Fin n)) (Shared n) Pc

/-- `k` steps of thread `t` in a row. -/
def go (t : Option (Fin n)) (k : ℕ) : List (Option (Fin n) × Choice) := List.replicate k (t, .go)

/-- A whole `start`, none of its threads having begun. -/
def startAlone : List (Option (Fin n) × Choice) := (none, .start) :: go none 7

end BackendTasks.Logger
