import BackendTasks.Spec.ConcurrentLru
import BackendTasks.Sched.SharedMutex

/-!
# `Concurrent_LRU` with its locks

`multithreading/Concurrent_LRU_Cache/main.cpp` once more, with the `std::shared_mutex` of each
stripe. A thread's step locks a stripe, makes one access to its `data_` or its `list_`, or unlocks
it; so other threads run between the accesses of a call. `insert` and `get` hold the lock
exclusively, `size` and `empty` shared, for one stripe at a time.

An access with undefined behaviour is `none`, as in `Striped`.
-/

namespace BackendTasks.ConcurrentLru.Locks

open Sched

variable {ι Key Value : Type*}

/-! ## The accesses of a lock section -/

deriving instance DecidableEq for Call

/-- Where a call is in its lock section: the access that comes next. -/
inductive Point (Key Value : Type*)
  -- insert; `lookup` reads `data_[key]`, `assign` writes it, `test` compares with `capacity_`, and
  -- `back` erases the entry of the last node
  | contains (key : Key) (value : Value)
  | lookup (key : Key) (value : Value)
  | erase (key : Key) (value : Value) (it : Iter)
  | emplace (key : Key) (value : Value)
  | assign (key : Key) (value : Value)
  | test (key : Key) (value : Value)
  | back (key : Key) (value : Value)
  | pop (key : Key) (value : Value)
  -- get; `read` is `it->second->second`
  | getContains (key : Key)
  | find (key : Key)
  | splice (key : Key) (it : Iter)
  | read (key : Key) (it : Iter)
  deriving DecidableEq

/-- The call that is made. -/
def Point.call : Point Key Value → Call Key Value
  | .contains key value | .lookup key value | .erase key value _ | .emplace key value =>
    .insert key value
  | .assign key value | .test key value | .back key value | .pop key value => .insert key value
  | .getContains key | .find key | .splice key _ | .read key _ => .get key

/-- The first access of a call. -/
def begin : Call Key Value → Point Key Value
  | .insert key value => .contains key value
  | .get key => .getContains key

/-- One access: the stripe afterwards, and what comes next, or what the call returns. -/
def access [DecidableEq Key] (capacity : ℕ) (s : Striped Key Value) :
    Point Key Value → Option (Striped Key Value × (Point Key Value ⊕ Option Value))
  | .contains key value =>
    some (s, .inl (if (s.data key).isSome then .lookup key value else .emplace key value))
  | .lookup key value => (s.data key).map fun it => (s, .inl (.erase key value it))
  | .erase key value it => (s.erase it).map fun s => (s, .inl (.emplace key value))
  | .emplace key value => some (s.emplaceFront key value, .inl (.assign key value))
  | .assign key value => some (s.setBegin key, .inl (.test key value))
  | .test key value =>
    some (s, if s.list.length > capacity then .inl (.back key value) else .inr none)
  | .back key value =>
    s.list.getLast?.map fun back =>
      ({ s with data := Function.update s.data back.key none }, .inl (.pop key value))
  | .pop _ _ => s.list.getLast?.map fun _ => ({ s with list := s.list.dropLast }, .inr none)
  | .getContains key => some (s, if (s.data key).isSome then .inl (.find key) else .inr none)
  | .find key =>
    match s.data key with
    | some it => some (s, .inl (.splice key it))
    | none => some (s, .inr none)
  | .splice key it => (s.splice it).map fun s => (s, .inl (.read key it))
  | .read _ it => (s.deref it).map fun nd => (s, .inr (some nd.value))

/-! ## The threads -/

/-- The stripes. As history, the calls of `insert` and `get` with what they return, in the order of
their last accesses, the latest first. -/
structure Shared (ι Key Value : Type*) where
  striped : Cache Key Value
  shm : Fin 16 → SharedMutex ι
  log : List (ι × Call Key Value × Option Value)

namespace Shared

/-- A step on one stripe's mutex. -/
def setShm (s : Shared ι Key Value) (i : Fin 16) (m : SharedMutex ι) : Shared ι Key Value :=
  { s with shm := Function.update s.shm i m }

/-- An access to one stripe. -/
def setStriped (s : Shared ι Key Value) (i : Fin 16) (st : Striped Key Value) :
    Shared ι Key Value :=
  { s with striped := Function.update s.striped i st }

/-- A call has made its last access. -/
def finish (s : Shared ι Key Value) (t : ι) (x : Call Key Value) (r : Option Value) :
    Shared ι Key Value :=
  { s with log := (t, x, r) :: s.log }

end Shared

/-- Where a thread is. It holds no lock in `outside`, is before an access in `inside`, `sizeLook`
and `emptyLook`, and before the end of its lock section in `leaving` and `unlook`. -/
inductive Pc (Key Value : Type*)
  | outside (p : ConcurrentLru.Pc)
  | inside (p : Point Key Value)
  | leaving (x : Call Key Value)
  | sizeLook (i : Fin 16) (total start : ℕ)
  | emptyLook (i : Fin 16) (start : ℕ)
  | unlook (i : Fin 16) (p : ConcurrentLru.Pc)
  deriving DecidableEq

/-- The stripe of a call. -/
def stripe (hash : Key → ℕ) : Call Key Value → Fin 16
  | .insert key _ => getStriped hash key
  | .get key => getStriped hash key

variable [DecidableEq ι] [DecidableEq Key]

/-- The program of thread `t`: any sequence of `insert`, `get`, `size` and `empty` calls. -/
def step (hash : Key → ℕ) (capacity : ℕ) (t : ι) (s : Shared ι Key Value) :
    Pc Key Value → Choice Key Value → Option (Shared ι Key Value × Pc Key Value)
  -- insert and get
  | .outside .idle, .call x =>
    ((s.shm (stripe hash x)).acquire t .exclusive).map fun m =>
      (s.setShm (stripe hash x) m, .inside (begin x))
  | .inside p, .go =>
    (access capacity (s.striped (stripe hash p.call)) p).map fun r =>
      match r.2 with
      | .inl p' => (s.setStriped (stripe hash p.call) r.1, .inside p')
      | .inr result =>
        ((s.setStriped (stripe hash p.call) r.1).finish t p.call result, .leaving p.call)
  | .leaving x, .go =>
    some (s.setShm (stripe hash x) ((s.shm (stripe hash x)).release t), .outside .idle)
  -- size
  | .outside .idle, .size => some (s, .outside (.size 0 0 s.log.length))
  | .outside (.size i total start), .go =>
    if h : i < 16 then
      ((s.shm ⟨i, h⟩).acquire t .shared).map fun m =>
        (s.setShm ⟨i, h⟩ m, .sizeLook ⟨i, h⟩ total start)
    else some (s, .outside (.sizeReturn total start))
  | .sizeLook i total start, .go =>
    some (s, .unlook i (.size (i + 1) (total + (s.striped i).list.length) start))
  | .outside (.sizeReturn _ _), .go => some (s, .outside .idle)
  -- empty
  | .outside .idle, .empty => some (s, .outside (.empty 0 s.log.length))
  | .outside (.empty i start), .go =>
    if h : i < 16 then
      ((s.shm ⟨i, h⟩).acquire t .shared).map fun m => (s.setShm ⟨i, h⟩ m, .emptyLook ⟨i, h⟩ start)
    else some (s, .outside (.emptyReturn true start))
  | .emptyLook i start, .go =>
    if !(s.striped i).list.isEmpty then some (s, .unlook i (.emptyReturn false start))
    else some (s, .unlook i (.empty (i + 1) start))
  | .outside (.emptyReturn _ _), .go => some (s, .outside .idle)
  -- the lock of size and empty goes out of scope
  | .unlook i p, .go => some (s.setShm i ((s.shm i).release t), .outside p)
  | _, _ => none

/-- Any number of threads using the constructed cache. -/
def prog (ι Value : Type*) [DecidableEq ι] (hash : Key → ℕ) (capacity : ℕ) :
    Prog ι Empty (Shared ι Key Value) (Pc Key Value) (Choice Key Value) where
  init := ⟨construct, fun _ => .free, []⟩
  start := fun _ => .outside .idle
  step := fun t s p x => (step hash capacity t s p x).map fun r => (r.1, r.2, .tau)
  wake := fun v _ => v.elim

/-- A state of the cache and the threads using it. -/
abbrev State (ι Key Value : Type*) := Conf ι (Shared ι Key Value) (Pc Key Value)

end BackendTasks.ConcurrentLru.Locks
