import BackendTasks.Proof.PoolStep
import BackendTasks.Sched.Potential

/-!
# One notification per task is enough

`enqueue` notifies one worker after it has released the mutex. While a worker is asleep, the
tasks in the queue are covered: by `enqueue` calls that have pushed and not notified yet, by
workers that were notified, and by the worker that holds the mutex on its way to a task.

* `tasks_covered`: this bound, and that no worker is asleep once `stop` has notified all.
* `woken_worker_counts`: the worker that holds the mutex has to be counted. Of two workers
  asleep one is notified and locks the mutex again: the task is still in the queue.
-/

namespace BackendTasks.ThreadPool

open Sched

variable {ι Task : Type*} {threads : List ι} {i : ι} {s s' : Shared ι Task} {p p' q : Pc ι Task}
  {x : Choice ι Task} {e : Effect ι Unit} {c : State ι Task}

/-- A worker that was notified and has not locked the mutex again. -/
def Pc.notified : Pc ι Task → Bool
  | .woken notified => notified
  | _ => false

/-- An `enqueue` that has pushed and not notified yet. -/
def Pc.pending : Pc ι Task → Bool
  | .enqUnlock _ | .enqNotify _ => true
  | _ => false

/-- A worker that holds the mutex and has not taken a task yet. -/
def Pc.taking : Pc ι Task → Bool
  | .pred | .test | .take => true
  | _ => false

/-- A thread that covers a task. -/
def Pc.cover (p : Pc ι Task) : ℕ := p.notified.toNat + p.pending.toNat + p.taking.toNat

variable [DecidableEq ι]

/-- A step adds a task only with a thread to cover it. -/
theorem task_balance (hm : Move threads i s p x s' p' e) (hT : ThreadOK threads s p) :
    s'.tasks.length = 0 ∨ (wake () p' = none ∧
      s'.tasks.length + p.cover ≤ s.tasks.length + p'.cover + Prog.charge () e) := by
  cases hm with
  | unready _ hnil => exact .inl (by rw [hnil]; rfl)
  | sleep => exact .inl (by rw [hT.2]; rfl)
  | drained _ hnil => exact .inl (by rw [hnil]; rfl)
  | relock =>
    rename_i b
    refine .inr ⟨rfl, ?_⟩
    cases b <;> simp [Pc.cover, Pc.notified, Pc.pending, Pc.taking, Prog.charge]
  | take hk =>
    refine .inr ⟨rfl, ?_⟩
    rw [hk]
    simp [Pc.cover, Pc.notified, Pc.pending, Pc.taking, Prog.charge]
  | enqPush =>
    refine .inr ⟨rfl, ?_⟩
    simp [Shared.push, Pc.cover, Pc.notified, Pc.pending, Pc.taking, Prog.charge]
  | enqNotify =>
    rename_i k j
    refine .inr ⟨by cases k <;> rfl, ?_⟩
    cases k <;> simp [resume, Pc.cover, Pc.notified, Pc.pending, Pc.taking, Prog.charge]
  | _ =>
    refine .inr ⟨rfl, ?_⟩
    simp [Shared.execute, Shared.finish, Pc.cover, Pc.notified, Pc.pending, Pc.taking, Prog.charge]

variable [Fintype ι]

omit [DecidableEq ι] in
theorem total_cover (pc : ι → Pc ι Task) :
    total Pc.cover pc = count Pc.notified pc + count Pc.pending pc + count Pc.taking pc := by
  rw [count_eq_total, count_eq_total, count_eq_total]
  simp only [total, Pc.cover, Finset.sum_add_distrib]

/-- While a worker is asleep, the tasks in the queue are covered. -/
theorem covered (h : (prog Task threads).lts.Reach c) (hi : ∃ i, c.pc i = .asleep) :
    c.sh.tasks.length ≤ total Pc.cover c.pc := by
  obtain ⟨i, hi⟩ := hi
  refine Prog.notify_one_suffices (M := prog Task threads) () (fun s => s.tasks.length) Pc.cover
    (fun i => ?_) ?_ ?_ ?_ h ⟨i, by rw [hi]; rfl⟩
  · simp only [prog]
    split <;> rfl
  · intro u q q' hq
    obtain ⟨rfl, rfl⟩ := wake_inv hq
    exact ⟨Nat.zero_le _, rfl⟩
  · intro q q' hq
    obtain ⟨rfl, rfl⟩ := wake_inv hq
    exact Nat.one_pos
  · intro c t x s p e hc _ hs
    exact task_balance (step_move hs) (pool_ok hc t).2

/-- A thread is taking a task only while it holds the mutex. -/
theorem no_taking (h : (prog Task threads).lts.Reach c) (hfree : c.owner = none) :
    count Pc.taking c.pc = 0 := by
  refine Finset.card_eq_zero.2 (Finset.filter_eq_empty_iff.2 fun i _ htaking => ?_)
  have hin : (c.pc i).inside = true := by
    generalize c.pc i = p at htaking
    cases p <;> simp_all [Pc.taking, Pc.inside]
  have howner := ((locked threads).excl h i).1 hin
  rw [hfree] at howner
  simp at howner

/-- **No wakeup is lost.** While a worker is asleep, there are at most as many tasks in the queue
as notified workers that have not locked the mutex again, `enqueue` calls that have pushed and
not notified, and workers that hold the mutex and have not taken a task, of which there is at
most one, and none when the mutex is free. Once a `stop` has notified all, no worker is asleep. -/
theorem tasks_covered (h : (prog Task threads).lts.Reach c) :
    ((∃ i, c.pc i = .asleep) → c.sh.tasks.length ≤
      count Pc.notified c.pc + count Pc.pending c.pc + count Pc.taking c.pc) ∧
    count Pc.taking c.pc ≤ 1 ∧ (c.owner = none → count Pc.taking c.pc = 0) ∧
    (c.sh.allNotified = true → ∀ i, c.pc i ≠ .asleep) := by
  refine ⟨fun hi => ?_, (locked threads).count_le_one h fun p hp => ?_, no_taking h, fun hall i hi => ?_⟩
  · rw [← total_cover]
    exact covered h hi
  · cases p <;> simp_all [Pc.taking, Pc.inside]
  · have := (pool_ok h i).2
    rw [hi, ThreadOK, hall] at this
    simp at this

/-- A task pushed and its `enqueue` about to notify. -/
theorem tasks_covered_pending : ∃ c : State (Fin 2) ℕ, (prog ℕ [(0 : Fin 2)]).lts.Reach c ∧
    c.pc 0 = .asleep ∧ c.sh.tasks = [(0, 7)] ∧ c.sh.tasks.length ≤
      count Pc.notified c.pc + count Pc.pending c.pc + count Pc.taking c.pc := by
  obtain ⟨c, hc, hres⟩ := Lts.exists_reachIf (prog ℕ [(0 : Fin 2)]).lts (fun _ _ => True)
    (go 0 3 ++ (1, .enqueue 7) :: go 1 3)
    (fun c => c.pc 0 == .asleep && c.sh.tasks == [(0, 7)]) (by decide)
  rw [Bool.and_eq_true, beq_iff_eq, beq_iff_eq] at hres
  exact ⟨c, hc, hres.1, hres.2, (tasks_covered hc).1 ⟨0, hres.1⟩⟩

/-- **The worker that holds the mutex counts.** Workers 0 and 1 are asleep,
thread 2 enqueues a task and notifies worker 0, which locks the mutex again. -/
theorem woken_worker_counts : ∃ c : State (Fin 3) ℕ, (prog ℕ [(0 : Fin 3), 1]).lts.Reach c ∧
    c.sh.stop = false ∧ c.pc 1 = .asleep ∧
    ¬ c.sh.tasks.length ≤ count Pc.notified c.pc + count Pc.pending c.pc := by
  obtain ⟨c, hc, hres⟩ := Lts.exists_reachIf (prog ℕ [(0 : Fin 3), 1]).lts (fun _ _ => True)
    (go 0 3 ++ go 1 3 ++ (2, .enqueue 7) :: go 2 3 ++ (2, .notify (some 0)) :: go 0 1)
    (fun c => !c.sh.stop && c.pc 1 == .asleep && decide
      (¬ c.sh.tasks.length ≤ count Pc.notified c.pc + count Pc.pending c.pc)) (by decide)
  simp only [Bool.and_eq_true, Bool.not_eq_true', beq_iff_eq, decide_eq_true_eq] at hres
  exact ⟨c, hc, hres.1.1, hres.1.2, hres.2⟩

end BackendTasks.ThreadPool
