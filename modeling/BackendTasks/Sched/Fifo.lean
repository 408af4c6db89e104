import BackendTasks.Sched.Lts

/-!
# A first-in first-out queue with its history

The abstract object that the concurrent queues refine: what is in the queue, what
was ever put in and what was ever taken out, each in order. `room` says at which
lengths an element may be put in.

* `Fifo.Run.conserved`: what was taken out, followed by what is in the queue, is what
  was put in.
* `Fifo.Run.bounded`: a queue that takes elements only below its capacity never
  exceeds it.
-/

namespace BackendTasks.Sched

/-- A queue and its history. -/
structure Fifo (T : Type*) where
  items : List T
  accepted : List T
  delivered : List T

namespace Fifo

variable {T : Type*} {room : ℕ → Prop} {q q' : Fifo T}

/-- Put an element in at the back, or take the one at the front out. -/
inductive Step (room : ℕ → Prop) : Fifo T → Fifo T → Prop
  | enq (q : Fifo T) (v : T) : room q.items.length →
      Step room q ⟨q.items ++ [v], q.accepted ++ [v], q.delivered⟩
  | deq (v : T) (rest accepted delivered : List T) :
      Step room ⟨v :: rest, accepted, delivered⟩ ⟨rest, accepted, delivered ++ [v]⟩

/-- Any number of operations. -/
abbrev Run (room : ℕ → Prop) : Fifo T → Fifo T → Prop := Relation.ReflTransGen (Step room)

/-- The queue with nothing in it and no history. -/
def empty : Fifo T := ⟨[], [], []⟩

/-- Nothing is lost, duplicated, reordered or invented. -/
def Conserved (q : Fifo T) : Prop := q.delivered ++ q.items = q.accepted

theorem Step.conserved (h : Step room q q') (hq : q.Conserved) : q'.Conserved := by
  unfold Conserved at hq ⊢
  cases h with
  | enq _ v _ => rw [← hq]; simp
  | deq v rest acc del => simpa using hq

/-- **Conservation.** -/
theorem Run.conserved (h : Run room empty q) : q.Conserved := by
  induction h with
  | refl => rfl
  | tail _ hs ih => exact hs.conserved ih

/-- **The bound.** -/
theorem Run.bounded {capacity : ℕ} (h : Run (· < capacity) empty q) : q.items.length ≤ capacity := by
  induction h with
  | refl => exact Nat.zero_le _
  | tail _ hs ih =>
    cases hs with
    | enq _ v hroom => rw [List.length_append]; exact hroom
    | deq v rest acc del => exact Nat.le_of_succ_le (by simpa using ih)

end Fifo

end BackendTasks.Sched
