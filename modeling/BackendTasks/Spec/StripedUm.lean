import BackendTasks.Sched.Monitor
import BackendTasks.Sched.SharedMutex
import Mathlib.Logic.Function.Basic

/-!
# `Striped_UM`

`multithreading/Striped_Unordered_Map/main.cpp`. The map is spread over 16 stripes, each with
a `std::shared_mutex`. A thread's step locks a stripe, makes one access to its `data_`, or
unlocks it: a `get` that finds its key looks it up twice, with `contains` and with
`operator[]`, and holds the lock shared in between.
-/

namespace BackendTasks.StripedUm

open Sched

/-- `std::unordered_map<T, T>`. -/
abbrev UnorderedMap (T : Type*) := T → Option T

variable {T : Type*}

namespace UnorderedMap

def contains (data : UnorderedMap T) (key : T) : Bool := (data key).isSome

variable [DecidableEq T]

/-- `data[key]`, which inserts a value-initialized element if there is none. -/
def index [Inhabited T] (data : UnorderedMap T) (key : T) : UnorderedMap T × T :=
  match data key with
  | some value => (data, value)
  | none => (Function.update data key (some default), default)

/-- `data[key] = value`. -/
def assign [Inhabited T] (data : UnorderedMap T) (key value : T) : UnorderedMap T :=
  Function.update (data.index key).1 key (some value)

def erase (data : UnorderedMap T) (key : T) : UnorderedMap T := Function.update data key none

end UnorderedMap

/-- A call of a thread. -/
inductive Call (T : Type*)
  | get (key : T)
  | insert (key value : T)
  | erase (key : T)
  deriving DecidableEq

namespace Call

def key : Call T → T
  | .get key | .insert key _ | .erase key => key

/-- `std::shared_lock` or `std::unique_lock`. -/
def mode : Call T → LockMode
  | .get _ => .shared
  | .insert _ _ | .erase _ => .exclusive

end Call

/-- `get_striped`: the stripe of a key. -/
def getStriped (hash : T → ℕ) (key : T) : Fin 16 := ⟨hash key % 16, Nat.mod_lt _ (Nat.zero_lt_succ 15)⟩

/-- The `data_` of the stripes. -/
abbrev Stripes (T : Type*) := Fin 16 → UnorderedMap T

/-! ## The lock sections as single steps -/

section Sections

variable [DecidableEq T] [Inhabited T]

/-- The lock section of a call: the stripe's map afterwards and what a `get` returns. -/
def Call.locked : Call T → UnorderedMap T → UnorderedMap T × Option T
  | .get key, data =>
    if data.contains key then ((data.index key).1, some (data.index key).2) else (data, none)
  | .insert key value, data => (data.assign key value, none)
  | .erase key, data => (data.erase key, none)

/-- One call. -/
def call (hash : T → ℕ) (stripes : Stripes T) (x : Call T) : Stripes T × Option T :=
  (Function.update stripes (getStriped hash x.key) (x.locked (stripes (getStriped hash x.key))).1,
    (x.locked (stripes (getStriped hash x.key))).2)

end Sections

/-- The constructed map. -/
def construct : Stripes T := fun _ _ => none

/-! ## The threads -/

/-- The stripes. As history, the calls of the threads in the order of their lock sections, with what
they return. -/
structure Shared (ι T : Type*) where
  data : Stripes T
  shm : Fin 16 → SharedMutex ι
  log : List (ι × Call T × Option T)

/-- Where a thread is. In `found`, `contains` has found the key; in `leaving`, only the destructor of
the lock is left. -/
inductive Pc (T : Type*)
  | idle
  | locked (x : Call T)
  | found (key : T)
  | leaving (x : Call T) (result : Option T)

/-- The call an idle thread makes, or one more step of the call it is in. -/
inductive Choice (T : Type*)
  | call (x : Call T)
  | go

variable {ι : Type*}

/-- A change of one stripe's `data_`, the last access of a call. -/
def Shared.finish (s : Shared ι T) (i : Fin 16) (data : UnorderedMap T) (t : ι) (x : Call T)
    (result : Option T) : Shared ι T :=
  { s with data := Function.update s.data i data, log := s.log ++ [(t, x, result)] }

/-- A change of one stripe's `shm_`. -/
def Shared.setShm (s : Shared ι T) (i : Fin 16) (m : SharedMutex ι) : Shared ι T :=
  { s with shm := Function.update s.shm i m }

variable [DecidableEq ι] [DecidableEq T] [Inhabited T]

/-- The program of thread `t`: any sequence of `get`, `insert` and `erase` calls. -/
def step (hash : T → ℕ) (t : ι) (s : Shared ι T) : Pc T → Choice T → Option (Shared ι T × Pc T)
  | .idle, .call x =>
    let i := getStriped hash x.key
    ((s.shm i).acquire t x.mode).map fun m => (s.setShm i m, .locked x)
  -- get
  | .locked (.get key), .go =>
    let i := getStriped hash key
    if (s.data i).contains key then some (s, .found key)
    else some (s.finish i (s.data i) t (.get key) none, .leaving (.get key) none)
  | .found key, .go =>
    let i := getStriped hash key
    let r := (s.data i).index key
    some (s.finish i r.1 t (.get key) (some r.2), .leaving (.get key) (some r.2))
  -- insert
  | .locked (.insert key value), .go =>
    let i := getStriped hash key
    some (s.finish i ((s.data i).assign key value) t (.insert key value) none,
      .leaving (.insert key value) none)
  -- erase
  | .locked (.erase key), .go =>
    let i := getStriped hash key
    some (s.finish i ((s.data i).erase key) t (.erase key) none, .leaving (.erase key) none)
  | .leaving x _, .go =>
    let i := getStriped hash x.key
    some (s.setShm i ((s.shm i).release t), .idle)
  | _, _ => none

/-- Any number of threads using the constructed map. -/
def prog (ι : Type*) [DecidableEq ι] (hash : T → ℕ) : Prog ι Empty (Shared ι T) (Pc T) (Choice T) where
  init := ⟨construct, fun _ => .free, []⟩
  start := fun _ => .idle
  step := fun t s p x => (step hash t s p x).map fun r => (r.1, r.2, .tau)
  wake := fun v _ => v.elim

/-- A state of the map and the threads using it. -/
abbrev State (ι T : Type*) := Conf ι (Shared ι T) (Pc T)

end BackendTasks.StripedUm
