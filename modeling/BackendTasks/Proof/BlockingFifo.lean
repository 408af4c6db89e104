import BackendTasks.Proof.BlockingStep
import BackendTasks.Sched.Fifo

/-!
# The blocking queue is a bounded FIFO queue with a stop flag

`ThreadOK` is what a thread knows at a control point from the tests it has passed. What it
knows of the contents it knows inside its critical section; that `running_` is false stays
true.

* `refines_bounded_fifo`: what was popped, followed by what is in the queue, is what was
  pushed, and the queue holds at most `capacity_` elements; a `push` that stores nothing and
  a `pop` that throws found the queue stopped; a `pop_for` that returns `nullopt` found it
  stopped or empty.
-/

namespace BackendTasks.BlockingQueue

open Sched

variable {ι T : Type*} {capacity : ℕ} {s s' : Shared T} {p p' q : Pc T} {x : Choice ι T}
  {e : Effect ι Cv}

/-- What a thread knows. -/
def ThreadOK (capacity : ℕ) (s : Shared T) : Pc T → Prop
  | .pushWait _ => capacity ≤ s.dataQueue.length
  | .pushGate _ => s.dataQueue.length < capacity ∨ s.running = false
  | .pushStore _ => s.dataQueue.length < capacity
  | .pushNotify v | .pushExit v true => s.accepted.getLast? = some v
  | .pushExit _ false => s.running = false
  | .popWait _ => s.dataQueue = []
  | .popReady | .popGate _ => s.dataQueue ≠ [] ∨ s.running = false
  | .popTake _ => s.dataQueue ≠ []
  | .popNotify _ v | .popExit _ (some v) => s.delivered.getLast? = some v
  | .popExit true none => s.running = false
  | .popExit false none => s.running = false ∨ s.dataQueue = []
  | .stopEmpty | .stopFull => s.running = false
  | _ => True

/-- A thread's own step. -/
theorem ThreadOK.own (h : ThreadOK capacity s p) (hm : Move capacity s p x s' p' e) :
    ThreadOK capacity s' p' := by
  cases hm with
  | pushPass hp => exact hp
  | pushFail hfull _ => exact hfull
  | pushRefuse hr => exact hr
  | pushGo hr => exact h.resolve_right (by rw [hr]; decide)
  | pushStore => exact List.getLast?_concat ..
  | pushNotify => exact h
  | popPass hp => rename_i w; cases w <;> exact hp
  | popFail hnil _ => exact hnil
  | popLastPass hp => exact hp
  | popTimeout hnil _ => exact .inr hnil
  | popUnready hnil => exact h.resolve_left fun hne => hne hnil
  | popReady hne => exact .inl hne
  | popRefuse hg =>
    rename_i w
    cases w with
    | false => exact hg
    | true => exact hg.elim id fun hnil => h.resolve_left fun hne => hne hnil
  | popGo _ hne => exact hne
  | popTake _ => exact List.getLast?_concat ..
  | popNotify => rename_i w v j; cases w <;> exact h
  | stopFlag => rfl
  | stopEmpty => exact h
  | _ => trivial

/-- A step of another thread. -/
theorem ThreadOK.other (h : ThreadOK capacity s q) (hrun : s.running = false → s'.running = false)
    (hsame : q.inside = true →
      s'.dataQueue = s.dataQueue ∧ s'.accepted = s.accepted ∧ s'.delivered = s.delivered) :
    ThreadOK capacity s' q := by
  cases q with
  | pushWait | pushStore | popWait | popTake =>
    obtain ⟨hq, -, -⟩ := hsame rfl
    rw [ThreadOK, hq]; exact h
  | pushGate | popReady | popGate =>
    obtain ⟨hq, -, -⟩ := hsame rfl
    rw [ThreadOK, hq]; exact h.imp id hrun
  | pushNotify => obtain ⟨-, ha, -⟩ := hsame rfl; rw [ThreadOK, ha]; exact h
  | popNotify => obtain ⟨-, -, hd⟩ := hsame rfl; rw [ThreadOK, hd]; exact h
  | pushExit v stored =>
    obtain ⟨-, ha, -⟩ := hsame rfl
    cases stored with
    | true => rw [ThreadOK, ha]; exact h
    | false => exact hrun h
  | popExit w r =>
    obtain ⟨hq, -, hd⟩ := hsame rfl
    cases r with
    | some v => rw [ThreadOK, hd]; cases w <;> exact h
    | none =>
      cases w with
      | true => exact hrun h
      | false => rw [ThreadOK, hq]; exact h.imp hrun id
  | stopEmpty | stopFull => exact hrun h
  | _ => trivial

/-- A thread that has just been woken knows nothing. -/
theorem ThreadOK.woken [DecidableEq ι] (i : ι) (h : ThreadOK capacity s q) :
    ThreadOK capacity s ((prog ι T capacity).woken e i q) := by
  rcases woken_eq capacity e i q with heq | ⟨v, heq⟩ | ⟨w, heq⟩
  · rw [heq]; exact h
  · rw [heq]; trivial
  · rw [heq]; trivial

/-- The queue as an abstract one. -/
def fifo (s : Shared T) : Fifo T := ⟨s.dataQueue, s.accepted, s.delivered⟩

/-- A step of a thread is a step of the abstract queue, or leaves it alone. -/
theorem Move.fifo (hm : Move capacity s p x s' p' e) (h : ThreadOK capacity s p) :
    fifo s' = fifo s ∨ Fifo.Step (· < capacity) (fifo s) (fifo s') := by
  cases hm with
  | pushStore => exact .inr (.enq _ _ h)
  | popTake hq =>
    refine .inr ?_
    simp only [BlockingQueue.fifo, hq]
    exact .deq _ _ _ _
  | _ => exact .inl rfl

variable [DecidableEq ι] [Fintype ι] {ok : State ι T → ι × Choice ι T → Prop} {c : State ι T}

theorem thread_ok (h : (prog ι T capacity).lts.ReachIf ok c) :
    ∀ i, ThreadOK capacity c.sh (c.pc i) := by
  refine Prog.local_invariant (locked capacity) (ThreadOK capacity) (fun _ => trivial) ?_ ?_ h
  · intro c t x s p e _ _ hs hL
    exact hL.own (step_move hs)
  · intro c t x s p e i _ _ hs _ _ hexcl hL
    have hm := step_move hs
    exact (hL.other hm.stopped fun hin => hm.frame (hexcl hin)).woken i

theorem fifo_run (h : (prog ι T capacity).lts.ReachIf ok c) :
    Fifo.Run (· < capacity) Fifo.empty (fifo c.sh) :=
  Prog.simulate fifo (fun hc hs => (step_move hs).fifo (thread_ok hc _)) h

/-- **The queue refines a bounded FIFO queue with a stop flag.** -/
theorem refines_bounded_fifo (h : (prog ι T capacity).lts.Reach c) :
    Fifo.Run (· < capacity) Fifo.empty (fifo c.sh) ∧
    c.sh.dataQueue.length ≤ capacity ∧
    c.sh.delivered ++ c.sh.dataQueue = c.sh.accepted ∧
    ∀ t,
      -- a push that has stored its value, and one that has not
      (∀ v, c.pc t = .pushExit v true → c.sh.accepted.getLast? = some v) ∧
      (∀ v, c.pc t = .pushExit v false → c.sh.running = false) ∧
      -- a pop that has a value, a pop that throws, and a pop_for that returns nullopt
      (∀ w, c.pc t = .popTake w → c.sh.dataQueue ≠ []) ∧
      (∀ w v, c.pc t = .popExit w (some v) → c.sh.delivered.getLast? = some v) ∧
      (c.pc t = .popExit true none → c.sh.running = false) ∧
      (c.pc t = .popExit false none → c.sh.running = false ∨ c.sh.dataQueue = []) := by
  have hrun := fifo_run h
  refine ⟨hrun, hrun.bounded, hrun.conserved, fun t => ?_⟩
  have ht := thread_ok h t
  refine ⟨fun v hp => ?_, fun v hp => ?_, fun w hp => ?_, fun w v hp => ?_, fun hp => ?_,
    fun hp => ?_⟩
  · rw [hp] at ht; exact ht
  · rw [hp] at ht; exact ht
  · rw [hp] at ht; exact ht
  · rw [hp] at ht; cases w <;> exact ht
  · rw [hp] at ht; exact ht
  · rw [hp] at ht; exact ht

/-- Two values pushed, and the first one popped. -/
theorem refines_bounded_fifo_two : ∃ c : State (Fin 2) ℕ, (prog (Fin 2) ℕ 2).lts.Reach c ∧
    c.pc 1 = .popExit true (some 7) ∧ c.sh.accepted = [7, 8] ∧
    c.sh.delivered ++ c.sh.dataQueue = c.sh.accepted ∧ c.sh.delivered.getLast? = some 7 := by
  obtain ⟨c, hc, hres⟩ := Lts.exists_reachIf (prog (Fin 2) ℕ 2).lts (fun _ _ => True)
    (pushAlone 0 7 ++ pushAlone 0 8 ++ [(1, .pop)] ++ go 1 5 ++ [(1, .notify none)])
    (fun c => c.pc 1 == .popExit true (some 7) && c.sh.accepted == [7, 8]) (by decide)
  rw [Bool.and_eq_true, beq_iff_eq, beq_iff_eq] at hres
  obtain ⟨-, -, hcons, hthreads⟩ := refines_bounded_fifo hc
  exact ⟨c, hc, hres.1, hres.2, hcons, (hthreads 1).2.2.2.1 _ _ hres.1⟩

end BackendTasks.BlockingQueue
