import BackendTasks.Sched.Monitor
import Mathlib.Logic.Function.Basic
import Mathlib.Data.Nat.Notation

/-!
# `Concurrent_LRU`

`multithreading/Concurrent_LRU_Cache/main.cpp`. A call of `insert` or `get` is one critical
section of its stripe's mutex, so a run of the cache is a sequence of calls. `size` and
`empty` lock one stripe after the other; they are steps of threads that run among the calls.

An iterator into `list_` is the identity of a node; a new node has one that was never used
before. `none` is undefined behaviour: erasing, moving or reading through an iterator
whose node is gone, or the back of an empty list.
-/

namespace BackendTasks.ConcurrentLru

/-- An iterator into `list_`. -/
abbrev Iter := ℕ

/-- A node of `list_`. -/
structure Node (Key Value : Type*) where
  iter : Iter
  key : Key
  value : Value

/-- A stripe. The iterators from `fresh` on are unused. -/
structure Striped (Key Value : Type*) where
  data : Key → Option Iter
  list : List (Node Key Value)
  fresh : Iter

variable {Key Value : Type*}

namespace Striped

/-- `*it`. -/
def deref (s : Striped Key Value) (it : Iter) : Option (Node Key Value) :=
  s.list.find? (·.iter == it)

/-- `list_.erase(it)`. -/
def erase (s : Striped Key Value) (it : Iter) : Option (Striped Key Value) :=
  (s.deref it).map fun _ => { s with list := s.list.eraseP (·.iter == it) }

/-- `list_.emplace_front(key, value)`. -/
def emplaceFront (s : Striped Key Value) (key : Key) (value : Value) : Striped Key Value :=
  { s with list := ⟨s.fresh, key, value⟩ :: s.list, fresh := s.fresh + 1 }

/-- `list_.splice(list_.begin(), list_, it)`. -/
def splice (s : Striped Key Value) (it : Iter) : Option (Striped Key Value) :=
  (s.deref it).map fun nd => { s with list := nd :: s.list.eraseP (·.iter == it) }

/-- The critical section of `get`. -/
def get (s : Striped Key Value) (key : Key) : Option (Striped Key Value × Option Value) :=
  match s.data key with
  | none => some (s, none)
  | some it => (s.splice it).bind fun s => (s.deref it).map fun nd => (s, some nd.value)

variable [DecidableEq Key]

/-- `data_[key] = list_.begin()`. -/
def setBegin (s : Striped Key Value) (key : Key) : Striped Key Value :=
  { s with data := Function.update s.data key (s.list.head?.map Node.iter) }

/-- The removal of `list_.back()` and its entry in `data_`. -/
def evict (s : Striped Key Value) : Option (Striped Key Value) :=
  s.list.getLast?.map fun back =>
    { s with data := Function.update s.data back.key none, list := s.list.dropLast }

/-- `if (data_.contains(key)) list_.erase(data_[key])`. -/
def eraseKey (s : Striped Key Value) (key : Key) : Option (Striped Key Value) :=
  match s.data key with
  | some it => s.erase it
  | none => some s

/-- The critical section of `insert`. -/
def insert (capacity : ℕ) (s : Striped Key Value) (key : Key) (value : Value) :
    Option (Striped Key Value) :=
  (s.eraseKey key).bind fun s =>
    let s := (s.emplaceFront key value).setBegin key
    if s.list.length > capacity then s.evict else some s

end Striped

/-- `striped_`. -/
abbrev Cache (Key Value : Type*) := Fin 16 → Striped Key Value

/-- `get_striped`: the stripe of a key. -/
def getStriped (hash : Key → ℕ) (key : Key) : Fin 16 := Fin.ofNat 16 (hash key)

/-- A call of a thread. -/
inductive Call (Key Value : Type*)
  | insert (key : Key) (value : Value)
  | get (key : Key)

variable [DecidableEq Key]

/-- One call: the cache afterwards and what a `get` returns. -/
def call (hash : Key → ℕ) (capacity : ℕ) (c : Cache Key Value) :
    Call Key Value → Option (Cache Key Value × Option Value)
  | .insert key value =>
    ((c (getStriped hash key)).insert capacity key value).map fun s =>
      (Function.update c (getStriped hash key) s, none)
  | .get key =>
    ((c (getStriped hash key)).get key).map fun r =>
      (Function.update c (getStriped hash key) r.1, r.2)

/-- The constructed cache. -/
def construct : Cache Key Value := fun _ => ⟨fun _ => none, [], 0⟩

/-- The calls made and what they returned, the latest first. -/
abbrev Log (Key Value : Type*) := List (Call Key Value × Option Value)

/-- A sequence of calls. -/
def run (hash : Key → ℕ) (capacity : ℕ) (c : Cache Key Value) (log : Log Key Value) :
    List (Call Key Value) → Option (Cache Key Value × Log Key Value)
  | [] => some (c, log)
  | x :: calls =>
    (call hash capacity c x).bind fun r => run hash capacity r.1 ((x, r.2) :: log) calls

/-! ## size and empty -/

open Sched

/-- The cache. As history, the caches there were before, one for each critical section of an
`insert` or a `get`. -/
structure Shared (Key Value : Type*) where
  striped : Cache Key Value
  past : List (Cache Key Value)

/-- The instants of a run, the current one last. -/
def Shared.instants (s : Shared Key Value) : List (Cache Key Value) := s.past ++ [s.striped]

/-- Where a thread is. In `size` and `empty`, `stripe` is the next one to lock, and `start` is the
instant of the call. -/
inductive Pc
  | idle
  | size (stripe total start : ℕ)
  | sizeReturn (total start : ℕ)
  | empty (stripe start : ℕ)
  | emptyReturn (answer : Bool) (start : ℕ)
  deriving DecidableEq

/-- The call an idle thread makes, or one more step of the call it is in. -/
inductive Choice (Key Value : Type*)
  | call (x : Call Key Value)
  | size
  | empty
  | go

/-- The program of a thread: any sequence of `insert`, `get`, `size` and `empty` calls. -/
def step (hash : Key → ℕ) (capacity : ℕ) (s : Shared Key Value) :
    Pc → Choice Key Value → Option (Shared Key Value × Pc)
  | .idle, .call x =>
    (call hash capacity s.striped x).map fun r => (⟨r.1, s.instants⟩, .idle)
  -- size
  | .idle, .size => some (s, .size 0 0 s.past.length)
  | .size stripe total start, .go =>
    if h : stripe < 16 then
      some (s, .size (stripe + 1) (total + (s.striped ⟨stripe, h⟩).list.length) start)
    else some (s, .sizeReturn total start)
  | .sizeReturn _ _, .go => some (s, .idle)
  -- empty
  | .idle, .empty => some (s, .empty 0 s.past.length)
  | .empty stripe start, .go =>
    if h : stripe < 16 then
      if !(s.striped ⟨stripe, h⟩).list.isEmpty then some (s, .emptyReturn false start)
      else some (s, .empty (stripe + 1) start)
    else some (s, .emptyReturn true start)
  | .emptyReturn _ _, .go => some (s, .idle)
  | _, _ => none

/-- Any number of threads using the constructed cache. -/
def prog (ι Value : Type*) (hash : Key → ℕ) (capacity : ℕ) :
    Prog ι Empty (Shared Key Value) Pc (Choice Key Value) where
  init := ⟨construct, []⟩
  start := fun _ => .idle
  step := fun _ s p x => (step hash capacity s p x).map fun r => (r.1, r.2, .tau)
  wake := fun v _ => v.elim

/-- A state of the cache and the threads using it. -/
abbrev State (ι Key Value : Type*) := Conf ι (Shared Key Value) Pc

end BackendTasks.ConcurrentLru
