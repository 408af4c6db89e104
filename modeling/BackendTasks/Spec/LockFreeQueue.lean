import BackendTasks.Sched.Monitor

/-!
# `Lock_Free_Queue`

`multithreading/Lock_Free_Queue/main.cpp`. A thread's step is one atomic access: a
load of `head`, `tail` or a node's `next`, a `compare_exchange_weak`, the read of
`next->value`, or a `delete`. `new Node` happens when `push` is called.

Nodes live at addresses. `new Node` returns any address at which no node is allocated
at that moment, so a deleted node's address may come back. Reading a node that is no
longer allocated gives anything, and a write to one is lost: both are undefined
behaviour in the source. With `reclaim = false`, `delete` does nothing, and every
`new Node` is at a fresh address.
-/

namespace BackendTasks.LockFreeQueue

open Sched

/-- A non-null `Node*`. A pointer that may be null is an `Option Addr`. -/
abbrev Addr := ℕ

structure Node (T : Type*) where
  value : T
  next : Option Addr

/-- The memory and the two pointers of a queue. The fields from `allocs` on are history:
`serial` numbers the allocations, `pushed` holds the values in the order their nodes were
linked, `results` has a slot for each successful CAS on `head`, filled when that `pop` has
read its value, and `delivered` has the serial numbers of the nodes those CASes made head. -/
structure Shared (T : Type*) where
  heap : Addr → Option (Node T)
  head : Addr
  tail : Addr
  allocs : ℕ
  serial : Addr → ℕ
  pushed : List T
  results : List (Option T)
  delivered : List ℕ

/-- Where a thread is. -/
inductive Pc
  | idle
  -- push, with `new_Node`
  | pushTail (newNode : Addr)
  | pushNext (newNode oldTail : Addr)
  | pushLink (newNode oldTail : Addr)
  | pushHelp (newNode oldTail next : Addr)
  | pushSwing (newNode oldTail : Addr)
  -- pop
  | popHead
  | popNext (oldHead : Addr)
  | popSwing (oldHead next : Addr)
  | popValue (oldHead next : Addr) (slot : ℕ)
  | popDelete (oldHead : Addr)
  deriving DecidableEq

/-- What a step depends on besides the state: whether a `compare_exchange_weak` fails
spuriously, and what an access to a node that is not allocated gives. -/
structure Luck (T : Type*) where
  spurious : Bool
  next : Option Addr
  value : T

/-- No spurious failure. -/
def calm {T : Type*} [Inhabited T] : Luck T := ⟨false, none, default⟩

/-- The call an idle thread makes, or one more step of the call it is in. -/
inductive Choice (T : Type*)
  | push (value : T) (newNode : Addr)
  | pop
  | run (luck : Luck T)

namespace Shared

variable {T : Type*}

/-- `new Node{value, nullptr}` at `a`. -/
def alloc (s : Shared T) (a : Addr) (value : T) : Shared T :=
  { s with
    heap := Function.update s.heap a (some ⟨value, none⟩)
    allocs := s.allocs + 1
    serial := Function.update s.serial a s.allocs }

/-- `a->next.load()`. -/
def loadNext (s : Shared T) (a : Addr) (l : Luck T) : Option Addr :=
  match s.heap a with
  | some nd => nd.next
  | none => l.next

/-- `tail.compare_exchange_weak(expected, desired)`. -/
def casTail (s : Shared T) (expected desired : Addr) (l : Luck T) : Shared T :=
  if s.tail = expected ∧ l.spurious = false then { s with tail := desired } else s

/-- `delete a`. -/
def delete (reclaim : Bool) (s : Shared T) (a : Addr) : Shared T :=
  if reclaim then { s with heap := Function.update s.heap a none } else s

/-- The successful `old_tail->next.compare_exchange_weak(nullptr, new_Node)`. -/
def link (s : Shared T) (oldTail newNode : Addr) : Shared T :=
  match s.heap oldTail with
  | some nd =>
    { s with
      heap := Function.update s.heap oldTail (some { nd with next := some newNode })
      pushed := s.pushed ++ ((s.heap newNode).map Node.value).toList }
  | none => s

/-- Whether that exchange succeeds. On a node that is not allocated it may do either. -/
def linkable (s : Shared T) (oldTail : Addr) (l : Luck T) : Bool :=
  !l.spurious && match s.heap oldTail with
    | some nd => nd.next.isNone
    | none => true

/-- The successful `head.compare_exchange_weak(old_head, next)`. -/
def advance (s : Shared T) (next : Addr) : Shared T :=
  { s with
    head := next
    results := s.results ++ [none]
    delivered := s.delivered ++ [s.serial next] }

/-- `result = next->value`, for the CAS on `head` that has the given slot. -/
def read (s : Shared T) (next : Addr) (slot : ℕ) (l : Luck T) : Shared T :=
  { s with
    results := s.results.set slot (some (match s.heap next with
      | some nd => nd.value
      | none => l.value)) }

end Shared

variable {ι T : Type*}

/-- The program of a thread: any sequence of `push` and `pop` calls. -/
def step (reclaim : Bool) (s : Shared T) : Pc → Choice T → Option (Shared T × Pc)
  | .idle, .push value newNode =>
    if (s.heap newNode).isNone then some (s.alloc newNode value, .pushTail newNode) else none
  | .idle, .pop => some (s, .popHead)
  -- push: the loop, then the final CAS on `tail`
  | .pushTail newNode, .run _ => some (s, .pushNext newNode s.tail)
  | .pushNext newNode oldTail, .run l =>
    match s.loadNext oldTail l with
    | none => some (s, .pushLink newNode oldTail)
    | some next => some (s, .pushHelp newNode oldTail next)
  | .pushLink newNode oldTail, .run l =>
    if s.linkable oldTail l then some (s.link oldTail newNode, .pushSwing newNode oldTail)
    else some (s, .pushTail newNode)
  | .pushHelp newNode oldTail next, .run l => some (s.casTail oldTail next l, .pushTail newNode)
  | .pushSwing newNode oldTail, .run l => some (s.casTail oldTail newNode l, .idle)
  -- pop: a null `next` returns false
  | .popHead, .run _ => some (s, .popNext s.head)
  | .popNext oldHead, .run l =>
    match s.loadNext oldHead l with
    | none => some (s, .idle)
    | some next => some (s, .popSwing oldHead next)
  | .popSwing oldHead next, .run l =>
    if s.head = oldHead ∧ l.spurious = false then
      some (s.advance next, .popValue oldHead next s.results.length)
    else some (s, .popHead)
  | .popValue oldHead next slot, .run l => some (s.read next slot l, .popDelete oldHead)
  | .popDelete oldHead, .run _ => some (s.delete reclaim oldHead, .idle)
  | _, _ => none

/-- The constructed queue: a dummy node, both `head` and `tail` at it. -/
def construct [Inhabited T] : Shared T where
  heap := Function.update (fun _ => none) 0 (some ⟨default, none⟩)
  head := 0
  tail := 0
  allocs := 1
  serial := fun _ => 0
  pushed := []
  results := []
  delivered := []

/-- Any number of threads using the constructed queue. They share no mutex. -/
def prog [Inhabited T] (ι : Type*) (reclaim : Bool) : Prog ι Empty (Shared T) Pc (Choice T) where
  init := construct
  start := fun _ => .idle
  step := fun _ s p x => (step reclaim s p x).map fun r => (r.1, r.2, .tau)
  wake := fun v _ => v.elim

/-- A state of the queue and the threads using it. -/
abbrev State (ι T : Type*) := Conf ι (Shared T) Pc

/-- `k` steps of thread `t` in a row, without spurious failures. -/
def go [Inhabited T] (t : ι) (k : ℕ) : List (ι × Choice T) := List.replicate k (t, .run calm)

/-- A whole `push(value)` of thread `t`, its node at `n`, with nobody interfering. -/
def pushAlone [Inhabited T] (t : ι) (value : T) (n : Addr) : List (ι × Choice T) :=
  (t, .push value n) :: go t 4

/-- A whole `pop` of thread `t` from a queue that is not empty, with nobody interfering. -/
def popAlone [Inhabited T] (t : ι) : List (ι × Choice T) := (t, .pop) :: go t 5

end BackendTasks.LockFreeQueue
