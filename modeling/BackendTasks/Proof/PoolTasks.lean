import BackendTasks.Proof.PoolDrain
import BackendTasks.Sched.Progress
import Mathlib.Data.List.Count

/-!
# The thread pool runs every task once

Each call of `enqueue` pushes its task (`calls_pushed`), the queue of the pool is a FIFO queue
(`fifo_run`), and each task taken is in the hands of one worker until it has returned (`in_hand`).

* `runs_every_task`: when the `enqueue` calls from outside complete before `stop` is called,
  tasks are taken in the order of their pushes, and once all workers have returned each task,
  those that tasks enqueued included, has been run exactly once, as often as it was
  enqueued.
-/

namespace BackendTasks.ThreadPool

open Sched

variable {ι Task : Type*} {threads : List ι} {i : ι} {s s' : Shared ι Task} {p p' q : Pc ι Task}
  {x : Choice ι Task} {e : Effect ι Unit} {c c' : State ι Task}

/-! ## The queue -/

/-- The queue as an abstract one. -/
def fifo (s : Shared ι Task) : Fifo (Item Task) := ⟨s.tasks, s.enqueued, s.taken⟩

/-- Tasks carry the numbers of their pushes. -/
def Numbered (s : Shared ι Task) : Prop := s.enqueued.map Prod.fst = List.range s.enqueued.length

/-- The task a worker has taken and not finished. -/
def Pc.inHand : Pc ι Task → Option (Item Task)
  | .unlock k | .run k => some k
  | .enqLock k _ | .enqPush k _ | .enqUnlock k | .enqNotify k => k
  | _ => none

/-- Only workers have tasks in hand. -/
theorem inHand_worker (h : q.worker = false) : q.inHand = none := by
  cases q <;> simp_all [Pc.worker, Pc.inHand]

/-- In an `enqueue` that was not called by a task. -/
def Pc.enqueuesOutside : Pc ι Task → Bool
  | .enqLock k _ | .enqPush k _ | .enqUnlock k | .enqNotify k => k.isNone
  | _ => false

/-- The call is an `enqueue`. -/
def Choice.enqueues : Choice ι Task → Bool
  | .enqueue _ => true
  | _ => false

/-- The call is a `stop`. -/
def Choice.stops : Choice ι Task → Bool
  | .stop => true
  | _ => false

/-- The step does not call `enqueue` from outside after a call of `stop`, or `stop` during such
an `enqueue`. -/
def Orderly (c : State ι Task) (act : ι × Choice ι Task) : Prop :=
  (act.2.enqueues = true → (c.pc act.1).worker = true ∨ c.sh.stopCalled = false) ∧
    (act.2.stops = true → ∀ i, (c.pc i).enqueuesOutside = false)

instance [Fintype ι] (c : State ι Task) (act : ι × Choice ι Task) : Decidable (Orderly c act) :=
  inferInstanceAs (Decidable
    ((act.2.enqueues = true → (c.pc act.1).worker = true ∨ c.sh.stopCalled = false) ∧
      (act.2.stops = true → ∀ i, (c.pc i).enqueuesOutside = false)))

variable [DecidableEq ι] {ok : State ι Task → ι × Choice ι Task → Prop}

theorem Move.fifo (hm : Move threads i s p x s' p' e) :
    fifo s' = fifo s ∨ Fifo.Step (fun _ => True) (fifo s) (fifo s') := by
  cases hm with
  | take hk =>
    refine .inr ?_
    simp only [ThreadPool.fifo, hk]
    exact .deq _ _ _ _
  | enqPush => exact .inr (.enq _ _ trivial)
  | _ => exact .inl rfl

/-- After a call of `stop`, an orderly step starts no `enqueue` from outside. -/
theorem Move.orderly (hm : Move threads i s p x s' p' e)
    (hx : x.enqueues = true → p.worker = true ∨ s.stopCalled = false)
    (hp : s.stopCalled = true → p.enqueuesOutside = false) :
    s'.stopCalled = true → p'.enqueuesOutside = false := by
  intro hcalled
  cases hm with
  | callEnqueue =>
    rcases hx rfl with hw | hnot
    · simp [Pc.worker] at hw
    · rw [hnot] at hcalled; simp at hcalled
  | enqLock | enqPush | enqUnlock => exact hp hcalled
  | enqNotify => rename_i k j; cases k <;> rfl
  | _ => rfl

theorem Move.stopCalled (hm : Move threads i s p x s' p' e) (h : s'.stopCalled = true) :
    s.stopCalled = true ∨ x.stops = true := by
  cases hm with
  | callStop => exact .inr rfl
  | _ => exact .inl h

theorem Numbered.move (h : Numbered s) (hm : Move threads i s p x s' p' e) : Numbered s' := by
  cases hm with
  | enqPush =>
    simp only [Numbered, Shared.push, List.map_append, List.map_cons, List.map_nil, List.length_append,
      List.length_singleton, List.range_succ]
    rw [h]
  | _ => exact h

/-! ## Tasks in hand -/

variable [DecidableEq (Item Task)]

/-- Whether the task in hand is `k`. -/
def Pc.holds (k : Item Task) (q : Pc ι Task) : ℕ := if q.inHand = some k then 1 else 0

/-- A task is taken into a hand and leaves it when executed. -/
theorem Move.inHand (hm : Move threads i s p x s' p' e) (k : Item Task) :
    s'.taken.count k + s.executed.count k + p.holds k =
      s.taken.count k + s'.executed.count k + p'.holds k := by
  cases hm with
  | take hk =>
    rename_i j rest
    simp only [Pc.holds, Pc.inHand, List.count_append, List.count_singleton, beq_iff_eq,
      Option.some.injEq, reduceCtorEq, if_false]
    omega
  | executed =>
    rename_i j
    simp only [Pc.holds, Pc.inHand, Shared.execute, List.count_append, List.count_singleton,
      beq_iff_eq, Option.some.injEq, reduceCtorEq, if_false]
    omega
  | enqNotify => rename_i j l; cases j <;> rfl
  | _ => rfl

variable [Fintype ι]

/-- **Every task taken is executed or in the hands of a worker**, as often as it was taken. -/
theorem in_hand (h : (prog Task threads).lts.ReachIf ok c) (k : Item Task) :
    c.sh.taken.count k = c.sh.executed.count k + total (Pc.holds k) c.pc := by
  refine Prog.conserved (M := prog Task threads) (fun s => s.taken.count k)
    (fun s => s.executed.count k) (Pc.holds k) ?_ ?_ ?_ h
  · simp only [prog, construct, total, List.count_nil, Nat.zero_add]
    refine (Finset.sum_eq_zero fun i _ => ?_).symm
    split <;> rfl
  · intro v q q' hq
    obtain ⟨rfl, rfl⟩ := wake_inv hq
    rfl
  · intro c t x s p e _ hs
    exact (step_move hs).inHand k

omit [DecidableEq (Item Task)] in
theorem fifo_run (h : (prog Task threads).lts.ReachIf ok c) :
    Fifo.Run (fun _ => True) Fifo.empty (fifo c.sh) :=
  Prog.simulate fifo (fun _ hs => (step_move hs).fifo) h

omit [DecidableEq (Item Task)] in
theorem numbered (h : (prog Task threads).lts.ReachIf ok c) : Numbered c.sh := by
  refine h.invariant (I := fun c : State ι Task => Numbered c.sh) ?_ fun c a c' _ ih _ hs => ?_
  · rfl
  obtain ⟨s, p, e, hstep, -, rfl⟩ := Prog.next_inv hs
  exact ih.move (step_move hstep)

/-- With no task in hand, the tasks taken have been run. -/
theorem executed_perm (h : (prog Task threads).lts.ReachIf ok c) (hhand : ∀ i, (c.pc i).inHand = none) :
    c.sh.executed.Perm c.sh.taken := by
  rw [List.perm_iff_count]
  intro k
  have hzero : total (Pc.holds k) c.pc = 0 :=
    Finset.sum_eq_zero fun i _ => by simp [Pc.holds, hhand i]
  rw [in_hand h k, hzero]
  rfl

/-! ## The calls -/

/-- The steps of a run. -/
abbrev Trace (ι Task : Type*) := List (Edge (State ι Task) (ι × Choice ι Task))

section Calls

variable [DecidableEq Task]

/-- The call is an `enqueue` of the task. -/
def Choice.isEnqueue (task : Task) : Choice ι Task → Bool
  | .enqueue new => new == task
  | _ => false

/-- Whether the thread has called `enqueue` with the task, and has not pushed it. -/
def Pc.pushing (task : Task) : Pc ι Task → ℕ
  | .enqLock _ new | .enqPush _ new => (new == task).toNat
  | _ => 0

omit [DecidableEq (Item Task)] [Fintype ι] in
theorem Move.pushing (hm : Move threads i s p x s' p' e) (task : Task) :
    (s'.enqueued.map Prod.snd).count task + p'.pushing task =
      (s.enqueued.map Prod.snd).count task + p.pushing task + (x.isEnqueue task).toNat := by
  cases hm with
  | enqPush =>
    simp only [Shared.push, List.map_append, List.map_cons, List.map_nil, List.count_append,
      List.count_singleton, Pc.pushing, Choice.isEnqueue, Bool.toNat_false]
    split <;> simp_all
  | enqNotify =>
    rename_i k j
    cases k <;> rfl
  | _ => rfl

omit [DecidableEq (Item Task)] in
/-- **Each call of `enqueue` pushes its task**, or has not got that far. -/
theorem calls_pushed {tr : Trace ι Task} (h : (prog Task threads).lts.Traced ok tr c) (task : Task) :
    times (fun e => e.label.2.isEnqueue task) tr =
      (c.sh.enqueued.map Prod.snd).count task + total (Pc.pushing task) c.pc := by
  have hinit : total (Pc.pushing task) (prog Task threads).start = 0 := by
    refine Finset.sum_eq_zero fun i _ => ?_
    simp only [prog]
    split <;> rfl
  have hcount := Prog.counted (M := prog Task threads) (fun s => (s.enqueued.map Prod.snd).count task)
    (Pc.pushing task) (fun x => (x.isEnqueue task).toNat)
    (fun hq => by obtain ⟨rfl, rfl⟩ := wake_inv hq; rfl) (fun _ _ hs => (step_move hs).pushing task) h
  rw [hinit, Nat.add_zero] at hcount
  exact ((Nat.zero_add _).symm.trans hcount.symm)

end Calls

/-! ## Orderly runs -/

omit [DecidableEq (Item Task)] in
/-- Once `stop` is called, nobody enqueues from outside. -/
theorem no_outside_enqueue (h : (prog Task threads).lts.ReachIf Orderly c) :
    ∀ i, c.sh.stopCalled = true → (c.pc i).enqueuesOutside = false := by
  refine Prog.local_invariant (locked threads)
    (fun s p => s.stopCalled = true → p.enqueuesOutside = false) (fun i => ?_) ?_ ?_ h
  · intro hcalled
    simp [prog, construct] at hcalled
  · intro c t x s p e _ hok hs hL
    exact (step_move hs).orderly hok.1 hL
  · intro c t x s p e i _ hok hs _ _ _ hL hcalled
    have hbefore : (c.pc i).enqueuesOutside = false := by
      rcases (step_move hs).stopCalled hcalled with hcalled | hstop
      · exact hL hcalled
      · exact hok.2 hstop i
    rcases woken_eq threads e i (c.pc i) with heq | ⟨-, heq⟩
    · rw [heq]; exact hbefore
    · rw [heq]; rfl

omit [DecidableEq (Item Task)] in
/-- In an orderly run some worker is there for every push: the caller itself, if it is one, and
any worker before `stop`. -/
theorem served_of_orderly (hne : threads ≠ []) (h : (prog Task threads).lts.ReachIf Orderly c) :
    (prog Task threads).lts.ReachIf (Served threads) c := by
  refine h.strengthen fun c act hc _ hpush => ?_
  by_cases hw : (c.pc act.1).worker = true
  · refine ⟨act.1, (worker_iff hc act.1).1 hw, ?_⟩
    generalize c.pc act.1 = p at hpush
    cases p <;> simp_all [Pc.pushes, Pc.isDone]
  · have hout : (c.pc act.1).enqueuesOutside = true := by
      generalize c.pc act.1 = p at hpush hw
      cases p <;> simp_all [Pc.pushes, Pc.worker, Pc.enqueuesOutside]
    obtain ⟨i, hi⟩ := List.exists_mem_of_ne_nil threads hne
    refine ⟨i, hi, ?_⟩
    by_contra hdone
    -- a worker that has returned has seen `stop_`, so `stop` was called
    have hstop : c.sh.stop = true := by
      have hT := (pool_ok hc i).2
      generalize c.pc i = p at hdone hT
      cases p <;> simp_all [Pc.isDone, ThreadOK]
    have := no_outside_enqueue hc act.1 ((pool_ok hc i).1.called hstop)
    rw [hout] at this
    simp at this

omit [DecidableEq (Item Task)] in
/-- Once all workers have returned, nobody is in an `enqueue`. -/
theorem no_enqueue (hne : threads ≠ []) (h : (prog Task threads).lts.ReachIf Orderly c)
    (hdone : AllDone threads c) (i : ι) :
    (c.pc i).inHand = none ∧ (c.pc i).enqueuesOutside = false := by
  by_cases hi : i ∈ threads
  · have hend := hdone i hi
    generalize c.pc i = p at hend
    cases p <;> simp_all [Pc.isDone, Pc.inHand, Pc.enqueuesOutside]
  · obtain ⟨j, hj⟩ := List.exists_mem_of_ne_nil threads hne
    -- a worker that has returned has seen `stop_`, so `stop` was called
    have hstop : c.sh.stop = true := by
      have hT := (pool_ok h j).2
      have hend := hdone j hj
      generalize c.pc j = p at hend hT
      cases p <;> simp_all [Pc.isDone, ThreadOK]
    exact ⟨inHand_worker (by simpa using mt (worker_iff h i).1 hi),
      no_outside_enqueue h i ((pool_ok h j).1.called hstop)⟩

omit [DecidableEq (Item Task)] in
/-- **Every task is run exactly once.** In orderly runs of a pool with at least one worker, the
tasks taken are a prefix of the tasks pushed, none of them taken twice; and once all workers have
returned, as they have when `stop` returns, the queue is empty and the tasks that have
been run are those pushed, each once. The tasks pushed are those of the calls of `enqueue`, except
for calls that have not got that far; once all workers have returned, each task has been run as often
as `enqueue` was called with it. -/
theorem runs_every_task [DecidableEq Task] (hne : threads ≠ [])
    (h : (prog Task threads).lts.ReachIf Orderly c) :
    c.sh.taken <+: c.sh.enqueued ∧ (c.sh.taken.map Prod.fst).Nodup ∧
    (AllDone threads c → c.sh.tasks = [] ∧ c.sh.executed.Perm c.sh.enqueued ∧
      (c.sh.executed.map Prod.fst).Nodup) ∧
    (c.sh.stopReturned = true → AllDone threads c) ∧
    ∀ tr, (prog Task threads).lts.Traced Orderly tr c → ∀ task,
      times (fun e => e.label.2.isEnqueue task) tr =
        (c.sh.enqueued.map Prod.snd).count task + total (Pc.pushing task) c.pc ∧
      (AllDone threads c → times (fun e => e.label.2.isEnqueue task) tr =
        (c.sh.executed.map Prod.snd).count task) := by
  have hcons : c.sh.taken ++ c.sh.tasks = c.sh.enqueued := (fifo_run h).conserved
  have htaken : c.sh.taken <+: c.sh.enqueued := ⟨_, hcons⟩
  have hnodup : (c.sh.enqueued.map Prod.fst).Nodup := by
    rw [numbered h]
    exact List.nodup_range
  have hdrained (hdone : AllDone threads c) : c.sh.tasks = [] ∧ c.sh.executed.Perm c.sh.enqueued := by
    have htasks := drained (served_of_orderly hne h) hdone
    rw [htasks, List.append_nil] at hcons
    exact ⟨htasks, hcons ▸ executed_perm h fun i => (no_enqueue hne h hdone i).1⟩
  refine ⟨htaken, (htaken.map Prod.fst).nodup hnodup, fun hdone => ?_, allDone_of_returned h,
    fun tr htr task => ⟨calls_pushed htr task, fun hdone => ?_⟩⟩
  · obtain ⟨htasks, hperm⟩ := hdrained hdone
    exact ⟨htasks, hperm, ((hperm.map Prod.fst).nodup_iff).2 hnodup⟩
  · have hzero : total (Pc.pushing task) c.pc = 0 := by
      refine Finset.sum_eq_zero fun i _ => ?_
      obtain ⟨hhand, hout⟩ := no_enqueue hne h hdone i
      generalize c.pc i = p at hhand hout
      cases p <;> simp_all [Pc.pushing, Pc.inHand, Pc.enqueuesOutside]
    rw [calls_pushed htr task, hzero, Nat.add_zero]
    exact (((hdrained hdone).2.map Prod.snd).count_eq task).symm

/-- A task that enqueues a second one, which is run during the drain. -/
theorem runs_every_task_nested : ∃ (tr : Trace (Fin 2) ℕ) (c : State (Fin 2) ℕ),
    (prog ℕ [(0 : Fin 2)]).lts.Traced Orderly tr c ∧ c.sh.stopReturned = true ∧
      c.sh.enqueued = [(0, 7), (1, 8)] ∧ c.sh.executed.Perm c.sh.enqueued ∧
      times (fun e => e.label.2.isEnqueue 8) tr = (c.sh.executed.map Prod.snd).count 8 := by
  obtain ⟨tr, c, htr, hres⟩ := Lts.exists_traced (prog ℕ [(0 : Fin 2)]).lts Orderly
    ((1, .enqueue 7) :: go 1 3 ++ (1, .notify none) :: go 0 5 ++ (1, .stop) :: go 1 4 ++
      (0, .enqueue 8) :: go 0 3 ++ (0, .notify none) :: go 0 11 ++ go 1 2)
    (fun _ c => c.sh.stopReturned && c.sh.enqueued == [(0, 7), (1, 8)]) (by decide)
  rw [Bool.and_eq_true, beq_iff_eq] at hres
  obtain ⟨-, -, hdone, hret, hcalls⟩ := runs_every_task (List.cons_ne_nil _ _) htr.reach
  have hall := hret hres.1
  exact ⟨tr, c, htr, hres.1, hres.2, (hdone hall).2.1, (hcalls tr htr 8).2 hall⟩

end BackendTasks.ThreadPool
