import BackendTasks.Proof.PoolStep

/-!
# The thread pool drains on stop

A worker returns only when it has found `stop_` set and the queue empty, holding the mutex.
So the last one to return leaves an empty queue behind; what is pushed later stays.

* `drained`: if every push happens while some worker has not returned, the queue is empty
  once all workers have returned.
* `stop_drains`: so it is then when `stop` has returned; a push after all workers have
  returned stays in the queue for ever.
* `enqueue_after_stop`: `enqueue` does not look at `stop_`, so such a push is possible.
-/

namespace BackendTasks.ThreadPool

open Sched

variable {ι Task : Type*} {threads : List ι} {i : ι} {s s' : Shared ι Task} {p p' q : Pc ι Task}
  {x : Choice ι Task} {e : Effect ι Unit} {c c' : State ι Task} {act : ι × Choice ι Task}

/-- The worker has returned. -/
def Pc.isDone : Pc ι Task → Bool
  | .done => true
  | _ => false

/-- All workers have returned. -/
def AllDone (threads : List ι) (c : State ι Task) : Prop := ∀ i ∈ threads, (c.pc i).isDone = true

/-- At `tasks_.push(task)`. -/
def Pc.pushes : Pc ι Task → Bool
  | .enqPush _ _ => true
  | _ => false

/-- The step is not a push after all workers have returned. -/
def Served (threads : List ι) (c : State ι Task) (act : ι × Choice ι Task) : Prop :=
  (c.pc act.1).pushes = true → ∃ i ∈ threads, (c.pc i).isDone = false

instance (threads : List ι) (c : State ι Task) (act : ι × Choice ι Task) :
    Decidable (Served threads c act) :=
  inferInstanceAs (Decidable ((c.pc act.1).pushes = true → ∃ i ∈ threads, (c.pc i).isDone = false))

variable [DecidableEq ι]

/-- A worker returns from an empty queue. -/
theorem Move.isDone (hm : Move threads i s p x s' p' e) (h : p'.isDone = true)
    (hT : ThreadOK threads s p) : s'.tasks = [] := by
  cases hm with
  | leave => exact hT.2
  | enqNotify => rename_i k j; cases k <;> simp [resume, Pc.isDone] at h
  | _ => simp [Pc.isDone] at h

/-- A step that does not push adds no task. -/
theorem Move.tasks (hm : Move threads i s p x s' p' e) (h : p.pushes = false) (hnil : s.tasks = []) :
    s'.tasks = [] := by
  cases hm with
  | take hk => rw [hnil] at hk; simp at hk
  | enqPush => simp [Pc.pushes] at h
  | _ => exact hnil

/-- A worker that has returned makes no step. -/
theorem Move.not_isDone (hm : Move threads i s p x s' p' e) : p.isDone = false := by
  cases hm <;> rfl

/-- `finished` records who returns. -/
theorem Move.finished (hm : Move threads i s p x s' p' e) {j : ι} (h : s'.finished j = true) :
    s.finished j = true ∨ (j = i ∧ p'.isDone = true) := by
  cases hm with
  | leave =>
    by_cases hji : j = i
    · exact .inr ⟨hji, rfl⟩
    · exact .inl ((Function.update_of_ne hji ..).symm.trans h)
  | _ => exact .inl h

/-- Other threads than workers only push. -/
theorem Move.outside (hm : Move threads i s p x s' p' e) (h : p.worker = false) :
    s'.tasks = s.tasks ∨ ∃ k, s'.tasks = s.tasks ++ [k] := by
  cases hm with
  | take _ => simp [Pc.worker] at h
  | enqPush => exact .inr ⟨_, rfl⟩
  | _ => exact .inl rfl

theorem Move.push (hm : Move threads i s p x s' p' e) (h : p.pushes = true) : s'.tasks ≠ [] := by
  cases hm with
  | enqPush => exact List.append_ne_nil_of_right_ne_nil _ (List.cons_ne_nil _ _)
  | _ => simp [Pc.pushes] at h

theorem woken_isDone (threads : List ι) (e : Effect ι Unit) (i : ι) (q : Pc ι Task) :
    ((prog Task threads).woken e i q).isDone = q.isDone := by
  rcases woken_eq threads e i q with heq | ⟨rfl, heq⟩
  · rw [heq]
  · rw [heq]; rfl

variable [Fintype ι]

/-- **The queue is drained.** -/
theorem drained (h : (prog Task threads).lts.ReachIf (Served threads) c)
    (hdone : AllDone threads c) : c.sh.tasks = [] := by
  refine h.invariant (I := fun c : State ι Task => AllDone threads c → c.sh.tasks = []) ?_ ?_ hdone
  · intro; rfl
  intro c a c' hc ih hserved hs hdone
  obtain ⟨s, p, e, hstep, -, rfl⟩ := Prog.next_inv hs
  have hm := step_move hstep
  by_cases hp : p.isDone = true
  · exact hm.isDone hp (pool_ok hc a.1).2
  -- the stepping thread is not a worker, so all workers had returned before the step
  have hout : a.1 ∉ threads := by
    intro hmem
    have := hdone a.1 hmem
    simp only [if_true] at this
    exact hp this
  have hbefore : AllDone threads c := by
    intro i hi
    have hia : i ≠ a.1 := by rintro rfl; exact hout hi
    have := hdone i hi
    simpa only [hia, if_false, woken_isDone] using this
  refine hm.tasks ?_ (ih hbefore)
  by_contra hpush
  obtain ⟨i, hi, hnot⟩ := hserved (by simpa using hpush)
  rw [hbefore i hi] at hnot
  simp at hnot

/-! ## After the workers have returned -/

theorem finished_done {ok : State ι Task → ι × Choice ι Task → Prop}
    (h : (prog Task threads).lts.ReachIf ok c) :
    ∀ j, c.sh.finished j = true → (c.pc j).isDone = true := by
  refine h.invariant
    (I := fun c : State ι Task => ∀ j, c.sh.finished j = true → (c.pc j).isDone = true) ?_ ?_
  · intro j hj
    simp [Prog.lts, prog, construct] at hj
  intro c a c' _ ih _ hs j hj
  obtain ⟨s, p, e, hstep, -, rfl⟩ := Prog.next_inv hs
  have hm := step_move hstep
  rcases hm.finished hj with hfin | ⟨rfl, hp⟩
  · have hja : j ≠ a.1 := by
      rintro rfl
      have := ih a.1 hfin
      rw [hm.not_isDone] at this
      simp at this
    simp only [hja, if_false, woken_isDone]
    exact ih j hfin
  · simpa only [if_true] using hp

/-- `stop` returns when all workers have. -/
theorem allDone_of_returned {ok : State ι Task → ι × Choice ι Task → Prop}
    (h : (prog Task threads).lts.ReachIf ok c) (hret : c.sh.stopReturned = true) :
    AllDone threads c :=
  fun i hi => finished_done h i ((pool_ok h i).1.returned hret i hi)

/-- With all workers returned, only pushes change the queue. -/
theorem AllDone.step (hdone : AllDone threads c) (h : (prog Task threads).lts.Reach c)
    (hs : (prog Task threads).lts.step c act = some c') :
    AllDone threads c' ∧ (c'.sh.tasks = c.sh.tasks ∨ ∃ k, c'.sh.tasks = c.sh.tasks ++ [k]) := by
  obtain ⟨s, p, e, hstep, -, rfl⟩ := Prog.next_inv hs
  have hm := step_move hstep
  have hout : act.1 ∉ threads := by
    intro hmem
    have := hdone act.1 hmem
    rw [hm.not_isDone] at this
    simp at this
  refine ⟨fun i hi => ?_, hm.outside ?_⟩
  · have hia : i ≠ act.1 := by rintro rfl; exact hout hi
    simp only [hia, if_false, woken_isDone]
    exact hdone i hi
  · simpa only [Bool.not_eq_true] using mt (worker_iff h act.1).1 hout

/-- What is in the queue when all workers have returned stays in it. -/
theorem left_behind (h : (prog Task threads).lts.Reach c) (hdone : AllDone threads c)
    (hne : c.sh.tasks ≠ []) (hl : (prog Task threads).lts.Leads c c') : c'.sh.tasks ≠ [] := by
  have hinv : (prog Task threads).lts.Reach c' ∧ AllDone threads c' ∧ c'.sh.tasks ≠ [] := by
    induction hl with
    | refl => exact ⟨h, hdone, hne⟩
    | tail _ hs ih =>
      obtain ⟨hr, hd, hn⟩ := ih
      obtain ⟨a, hs⟩ := hs
      obtain ⟨hd', htasks⟩ := hd.step hr hs
      refine ⟨.step hr trivial hs, hd', ?_⟩
      rcases htasks with heq | ⟨k, heq⟩
      · rw [heq]; exact hn
      · rw [heq]; exact List.append_ne_nil_of_right_ne_nil _ (List.cons_ne_nil _ _)
  exact hinv.2.2

/-- **When `stop` leaves nothing behind.** Along runs in which every push happens while some
worker has not returned, the queue is empty once a `stop` has returned; and after a push
with all workers returned it is never empty again. -/
theorem stop_drains (h : (prog Task threads).lts.ReachIf (Served threads) c) :
    (c.sh.stopReturned = true → c.sh.tasks = []) ∧
    ∀ act c' c'', (prog Task threads).lts.step c act = some c' → ¬ Served threads c act →
      (prog Task threads).lts.Leads c' c'' → c''.sh.tasks ≠ [] := by
  refine ⟨fun hret => drained h (allDone_of_returned h hret), fun act c' c'' hs hlate hl => ?_⟩
  have hr : (prog Task threads).lts.Reach c := h.mono fun _ _ _ => trivial
  simp only [Served, Classical.not_imp, not_exists, not_and, Bool.not_eq_false] at hlate
  obtain ⟨hpush, hdone⟩ := hlate
  refine left_behind (.step hr trivial hs) (AllDone.step hdone hr hs).1 ?_ hl
  obtain ⟨s, p, e, hstep, -, rfl⟩ := Prog.next_inv hs
  exact (step_move hstep).push hpush

/-- A task enqueued before `stop`, run and drained. -/
theorem stop_drains_one : ∃ c : State (Fin 2) ℕ,
    (prog ℕ [(0 : Fin 2)]).lts.ReachIf (Served [0]) c ∧ c.sh.stopReturned = true ∧
    c.sh.executed = [(0, 7)] ∧ c.sh.tasks = [] := by
  obtain ⟨c, hc, hres⟩ := Lts.exists_reachIf (prog ℕ [(0 : Fin 2)]).lts (Served [0])
    ((1, .enqueue 7) :: go 1 3 ++ (1, .notify none) :: (1, .stop) :: go 1 4 ++ go 0 10 ++ go 1 2)
    (fun c => c.sh.stopReturned && c.sh.executed == [(0, 7)]) (by decide)
  rw [Bool.and_eq_true, beq_iff_eq] at hres
  exact ⟨c, hc, hres.1, hres.2, (stop_drains hc).1 hres.1⟩

/-- **A task left behind.** Thread 1 stops the pool, whose only worker is thread 0, and
enqueues a task when `stop` has returned. -/
theorem enqueue_after_stop : ∃ c : State (Fin 2) ℕ,
    (prog ℕ [(0 : Fin 2)]).lts.Reach c ∧ c.sh.stopReturned = true ∧ c.sh.tasks = [(0, 7)] := by
  obtain ⟨c, hc, hres⟩ := Lts.exists_reachIf (prog ℕ [(0 : Fin 2)]).lts (fun _ _ => True)
    ((1, .stop) :: go 1 4 ++ go 0 4 ++ go 1 2 ++ (1, .enqueue 7) :: go 1 2)
    (fun c => c.sh.stopReturned && c.sh.tasks == [(0, 7)]) (by decide)
  rw [Bool.and_eq_true, beq_iff_eq] at hres
  exact ⟨c, hc, hres⟩

end BackendTasks.ThreadPool
