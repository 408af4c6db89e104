import BackendTasks.Proof.PoolNotify
import BackendTasks.Proof.PoolTasks
import BackendTasks.Sched.Progress

/-!
# The thread pool gets its work done

The tasks are supposed to return.

* `steps_of_work`: the workers and the calls take together a bounded number of steps for each task,
  each `stop` and each spurious wakeup.
* `pool_settles`: when nobody can go on, no call is left over. If the pool was not stopped, its
  workers are asleep, and every task has been run; if it was, `stop` has returned, and so have the
  workers.
-/

namespace BackendTasks.ThreadPool

open Sched

variable {ι Task : Type*} {threads : List ι} {i : ι} {s s' : Shared ι Task} {p p' q : Pc ι Task}
  {x : Choice ι Task} {e : Effect ι Unit}

/-! ## The steps of a task -/

namespace Choice

/-- A spurious wakeup. -/
def isWakeUp : Choice ι Task → Bool
  | .wakeUp => true
  | _ => false

/-- The thread goes on with what it is at. -/
def onward : Choice ι Task → Bool
  | .go | .notify _ => true
  | _ => false

/-- The steps that a call or a wakeup pays for, with `n` threads, `m` of them workers. -/
def pay (n m : ℕ) : Choice ι Task → ℕ
  | .enqueue _ => 15
  | .stop => 4 * n + m + 6
  | .wakeUp => 5
  | _ => 0

theorem pay_eq (n m : ℕ) (x : Choice ι Task) : x.pay n m =
    15 * x.enqueues.toNat + ((4 * n + m + 6) * x.stops.toNat + 5 * x.isWakeUp.toNat) := by
  cases x <;> simp [pay, enqueues, stops, isWakeUp]

end Choice

/-- The steps a task in hand leaves to its worker. -/
def after : Option (Item Task) → ℕ
  | some _ => 5
  | none => 0

/-- The steps a thread may still take until it sleeps, takes a task or its call is over, together
with those of the threads it may wake up and of the task it pushes. -/
def Pc.left (n m : ℕ) : Pc ι Task → ℕ
  | .idle | .asleep | .done => 0
  | .lock | .woken _ => 4
  | .pred => 3
  | .test => 2
  | .take | .wait | .leave => 1
  | .unlock _ => 6
  | .run _ => 5
  | .enqLock caller _ => 14 + after caller
  | .enqPush caller _ => 13 + after caller
  | .enqUnlock caller => 6 + after caller
  | .enqNotify caller => 5 + after caller
  | .stopLock => 4 * n + m + 5
  | .stopSet => 4 * n + m + 4
  | .stopUnlock => 4 * n + m + 3
  | .stopNotify => 4 * n + m + 2
  | .stopJoin threads => threads.length + 1

theorem left_resume (n m : ℕ) (caller : Option (Item Task)) :
    (resume caller : Pc ι Task).left n m = after caller := by
  cases caller <;> rfl

variable [DecidableEq ι]

/-- **One step** uses up one of those left. A task in the queue is worth six. -/
theorem left_move [Fintype ι] (hm : Move threads i s p x s' p' e) :
    1 + p'.left (Fintype.card ι) threads.length + 6 * s'.tasks.length + 4 * e.reach ≤
      p.left (Fintype.card ι) threads.length + 6 * s.tasks.length +
        x.pay (Fintype.card ι) threads.length := by
  cases hm with
  | take hk =>
    simp only [hk, Pc.left, Effect.reach, List.length_cons]
    omega
  | enqPush =>
    simp only [Shared.push, Pc.left, Effect.reach, List.length_append, List.length_singleton]
    omega
  | enqNotify =>
    rename_i k j
    rw [left_resume]
    cases j <;> simp only [Pc.left, Effect.reach] <;> omega
  | join _ =>
    simp only [Pc.left, Effect.reach, List.length_cons]
    omega
  | _ =>
    simp only [Pc.left, Effect.reach, Choice.pay, after, Shared.execute, Shared.finish, List.length_nil]
    omega

/-! ## Going on -/

/-- In no call, asleep or returned; or waiting for a worker to return. -/
def Pc.rests (s : Shared ι Task) : Pc ι Task → Bool
  | .idle | .asleep | .done => true
  | .stopJoin (j :: _) => !s.finished j
  | _ => false

/-- A thread that is not at rest goes on, if it holds the mutex or the mutex is free. -/
theorem goes_on [Fintype ι] {c : State ι Task} (hT : ∀ i, ThreadOK threads c.sh (c.pc i)) (t : ι)
    (hrest : (c.pc t).rests c.sh = false) (hmutex : (c.pc t).inside = true ∨ c.owner = none) :
    ∃ x s p e, Choice.onward x = true ∧ step threads t c.sh (c.pc t) x = some (s, p, e) ∧
      (prog Task threads).Enabled c t e := by
  have hTt := hT t
  generalize c.pc t = p at hrest hmutex hTt
  have hfree : p.inside = false → c.owner = none := by
    intro hout
    exact hmutex.resolve_left (by rw [hout]; decide)
  cases p with
  | idle | asleep | done => simp [Pc.rests] at hrest
  | lock => exact ⟨.go, _, _, _, rfl, rfl, hfree rfl⟩
  | woken b => exact ⟨.go, _, _, _, rfl, rfl, hfree rfl⟩
  | enqLock k new => exact ⟨.go, _, _, _, rfl, rfl, hfree rfl⟩
  | stopLock => exact ⟨.go, _, _, _, rfl, rfl, hfree rfl⟩
  | enqNotify k =>
    obtain ⟨pick, hpick⟩ := Prog.exists_pick (prog Task threads) c t ()
    exact ⟨.notify pick, _, _, _, rfl, rfl, hpick⟩
  | take =>
    obtain ⟨k, rest, hk⟩ := List.exists_cons_of_ne_nil hTt
    exact ⟨.go, _, _, .tau, rfl, by rw [step, hk], trivial⟩
  | stopJoin l =>
    cases l with
    | nil => exact ⟨.go, _, _, .tau, rfl, rfl, trivial⟩
    | cons j rest =>
      have hfin : c.sh.finished j = true := by simpa [Pc.rests] using hrest
      exact ⟨.go, _, _, .tau, rfl, by rw [step, if_pos hfin], trivial⟩
  | pred | test =>
    refine ⟨.go, ?_⟩
    simp only [step]
    split <;> exact ⟨_, _, _, rfl, rfl, trivial⟩
  | _ => exact ⟨.go, _, _, _, rfl, rfl, trivial⟩

/-! ## How far a `stop` is -/

/-- In `stop`. -/
def Pc.inStop : Pc ι Task → Bool
  | .stopLock | .stopSet | .stopUnlock | .stopNotify | .stopJoin _ => true
  | _ => false

/-- Who joins has notified all, and joins workers. -/
def JoinOK (threads : List ι) (s : Shared ι Task) : Pc ι Task → Prop
  | .stopJoin l => s.allNotified = true ∧ ∀ j ∈ l, j ∈ threads
  | _ => True

theorem JoinOK.own (hm : Move threads i s p x s' p' e) (h : JoinOK threads s p) :
    JoinOK threads s' p' := by
  cases hm with
  | stopNotify => exact ⟨rfl, fun _ => id⟩
  | join _ => exact ⟨h.1, fun j hj => h.2 j (List.mem_cons_of_mem _ hj)⟩
  | enqNotify =>
    rename_i k j
    cases k <;> trivial
  | _ => trivial

/-- A step of another thread. -/
theorem JoinOK.other {j : ι} (hm : Move threads i s p x s' p' e) (h : JoinOK threads s q) :
    JoinOK threads s' ((prog Task threads).woken e j q) := by
  have hkeep : s.allNotified = true → s'.allNotified = true := by
    intro hall
    cases hm with
    | stopNotify => rfl
    | _ => exact hall
  rcases woken_eq threads e j q with heq | ⟨rfl, heq⟩
  · rw [heq]
    cases q with
    | stopJoin l => exact ⟨hkeep h.1, h.2⟩
    | _ => trivial
  · rw [heq]
    trivial

/-- A `stop` that was called is being worked on until it has returned. -/
theorem inStop_move (hm : Move threads i s p x s' p' e) :
    (s'.stopReturned = true ∨ (p.inStop = true → p'.inStop = true)) ∧
      (s.stopReturned = true → s'.stopReturned = true) ∧
      (s'.stopCalled = true → s.stopCalled = true ∨ p'.inStop = true) := by
  cases hm with
  | callStop => exact ⟨.inr nofun, id, fun _ => .inr rfl⟩
  | stopReturn => exact ⟨.inl rfl, fun _ => rfl, .inl⟩
  | stopLock | stopSet | stopUnlock | stopNotify | join _ => exact ⟨.inr fun _ => rfl, id, .inl⟩
  | _ => exact ⟨.inr nofun, id, .inl⟩

/-! ## Every run -/

variable [Fintype ι] {c : State ι Task} {ok : State ι Task → ι × Choice ι Task → Prop}
  {tr : Trace ι Task}

/-- **The work takes a bounded number of steps.** Whatever the schedule, workers and calls together
take at most four steps for each thread to begin with, fifteen for each `enqueue`, those that tasks
make included, five for each spurious wakeup, and for each `stop` six, one for each worker and four
for each thread. -/
theorem steps_of_work (h : (prog Task threads).lts.Traced ok tr c) :
    tr.length ≤ 4 * Fintype.card ι + 15 * times (fun e => e.label.2.enqueues) tr +
      (4 * Fintype.card ι + threads.length + 6) * times (fun e => e.label.2.stops) tr +
      5 * times (fun e => e.label.2.isWakeUp) tr := by
  have hpaid : tr.length ≤
      total (Pc.left (Fintype.card ι) threads.length) (prog Task threads).start + 6 * 0 +
        spent (fun e => e.label.2.pay (Fintype.card ι) threads.length) tr :=
    Prog.steps_le (Pc.left (Fintype.card ι) threads.length) (fun s => 6 * s.tasks.length) 4
      (Choice.pay (Fintype.card ι) threads.length)
      (fun hq => by obtain ⟨rfl, rfl⟩ := wake_inv hq; exact Nat.le_refl 4)
      (fun _ _ hs => left_move (step_move hs)) h
  have hinit : total (Pc.left (Fintype.card ι) threads.length) (prog Task threads).start ≤
      4 * Fintype.card ι := by
    rw [Nat.mul_comm]
    refine Finset.sum_le_card_nsmul Finset.univ _ 4 fun i _ => ?_
    simp only [prog]
    split
    · exact Nat.le_refl 4
    · exact Nat.zero_le 4
  simp only [Choice.pay_eq, spent_add, spent_mul] at hpaid
  dsimp only [times]
  omega

/-- Worker `w` sleeps until thread `t` enqueues a task, runs it, and sleeps again. -/
def enqueueOne (w t : Fin 2) : List (Fin 2 × Choice (Fin 2) ℕ) :=
  go w 3 ++ (t, .enqueue 7) :: go t 3 ++ (t, .notify (some w)) :: go w 9

/-- One task takes seventeen steps. -/
theorem steps_of_work_one : ∃ (tr : Trace (Fin 2) ℕ) (c : State (Fin 2) ℕ),
    (prog ℕ [(0 : Fin 2)]).lts.Traced (fun _ _ => True) tr c ∧ c.sh.executed = [(0, 7)] ∧
    tr.length = 17 ∧ tr.length ≤ 4 * 2 + 15 * 1 := by
  obtain ⟨tr, c, htr, hend⟩ := Lts.exists_traced (prog ℕ [(0 : Fin 2)]).lts (fun _ _ => True) (enqueueOne 0 1)
    (fun tr c => c.sh.executed == [(0, 7)] && tr.length == 17 &&
      times (fun e => e.label.2.enqueues) tr == 1 && times (fun e => e.label.2.stops) tr == 0 &&
        times (fun e => e.label.2.isWakeUp) tr == 0) (by decide)
  simp only [Bool.and_eq_true, beq_iff_eq] at hend
  obtain ⟨⟨⟨⟨hran, hlen⟩, hcalls⟩, hstops⟩, hwakes⟩ := hend
  have hle := steps_of_work htr
  rw [hcalls, hstops, hwakes] at hle
  exact ⟨tr, c, htr, hran, hlen, hle⟩

/-- A worker that has returned can be joined. -/
theorem done_finished (h : (prog Task threads).lts.ReachIf ok c) :
    ∀ j, (c.pc j).isDone = true → c.sh.finished j = true := by
  refine h.invariant
    (I := fun c : State ι Task => ∀ j, (c.pc j).isDone = true → c.sh.finished j = true) ?_ ?_
  · intro j hj
    simp only [Prog.lts, prog] at hj
    split at hj <;> simp [Pc.isDone] at hj
  intro c a c' _ ih _ hs j hj
  obtain ⟨s, p, e, hstep, -, rfl⟩ := Prog.next_inv hs
  have hm := step_move hstep
  by_cases hja : j = a.1
  · subst hja
    simp only [if_true] at hj
    generalize c.pc a.1 = q at hm
    generalize a.2 = x at hm
    cases hm with
    | leave => exact Function.update_self ..
    | enqNotify =>
      rename_i k _
      cases k <;> simp [resume, Pc.isDone] at hj
    | _ => simp [Pc.isDone] at hj
  · simp only [hja, if_false, woken_isDone] at hj
    exact hm.flags.2.2.1 j (ih j hj)

theorem join_ok (h : (prog Task threads).lts.ReachIf ok c) : ∀ i, JoinOK threads c.sh (c.pc i) := by
  refine Prog.local_invariant (locked threads) (JoinOK threads) (fun i => ?_) ?_ ?_ h
  · simp only [prog]
    split <;> trivial
  · intro c t x s p e _ _ hs hL
    exact hL.own (step_move hs)
  · intro c t x s p e i _ _ hs _ _ _ hL
    exact hL.other (step_move hs)

/-- A `stop` that was called has returned, or some thread is in it. -/
theorem called_inStop (h : (prog Task threads).lts.ReachIf ok c) (hcalled : c.sh.stopCalled = true) :
    c.sh.stopReturned = true ∨ ∃ i, (c.pc i).inStop = true :=
  Prog.begun_ends (M := prog Task threads) Shared.stopCalled Shared.stopReturned Pc.inStop rfl
    (fun hw => by obtain ⟨rfl, rfl⟩ := wake_inv hw; rfl) (fun hs => inStop_move (step_move hs)) h hcalled

/-- At rest nobody is waiting for a worker: it would be asleep although all were notified, or have
returned. -/
theorem no_join (h : (prog Task threads).lts.ReachIf ok c) (hrest : ∀ i, (c.pc i).rests c.sh = true) (i : ι) :
    c.pc i = .idle ∨ c.pc i = .asleep ∨ c.pc i = .done := by
  have hr := hrest i
  cases hp : c.pc i with
  | idle => exact .inl rfl
  | asleep => exact .inr (.inl rfl)
  | done => exact .inr (.inr rfl)
  | stopJoin l =>
    exfalso
    rw [hp] at hr
    cases l with
    | nil => simp [Pc.rests] at hr
    | cons j rest =>
      have hwaits : c.sh.finished j = false := by simpa [Pc.rests] using hr
      have hjoin := join_ok h i
      rw [hp] at hjoin
      have hworker := (worker_iff h j).2 (hjoin.2 j List.mem_cons_self)
      have hj := hrest j
      have hT := (pool_ok h j).2
      have hfin := done_finished h j
      generalize c.pc j = q at hworker hj hT hfin
      cases q with
      | asleep =>
        rw [ThreadOK, hjoin.1] at hT
        simp at hT
      | done =>
        rw [hfin rfl] at hwaits
        simp at hwaits
      | stopJoin l => simp [Pc.worker] at hworker
      | _ => simp [Pc.rests, Pc.worker] at hj hworker
  | _ =>
    rw [hp] at hr
    simp [Pc.rests] at hr

omit [DecidableEq ι] in
/-- The weight of threads in no call, asleep or returned. -/
theorem total_settled {w : Pc ι Task → ℕ} (hall : ∀ i, c.pc i = .idle ∨ c.pc i = .asleep ∨ c.pc i = .done)
    (hidle : w .idle = 0) (hasleep : w .asleep = 0) (hdone : w .done = 0) : total w c.pc = 0 := by
  refine Finset.sum_eq_zero fun i _ => ?_
  rcases hall i with hp | hp | hp <;> rw [hp] <;> assumption

/-- If a worker sleeps then, all tasks have been run. -/
theorem settled_executed [DecidableEq Task] (h : (prog Task threads).lts.Reach c) (hasleep : ∃ i, c.pc i = .asleep)
    (hall : ∀ i, c.pc i = .idle ∨ c.pc i = .asleep ∨ c.pc i = .done) :
    c.sh.tasks = [] ∧ c.sh.executed.Perm c.sh.enqueued := by
  have hle := covered h hasleep
  rw [total_settled hall rfl rfl rfl] at hle
  have htasks : c.sh.tasks = [] := List.length_eq_zero_iff.1 (Nat.le_zero.1 hle)
  have hcons : c.sh.taken ++ c.sh.tasks = c.sh.enqueued := (fifo_run h).conserved
  rw [htasks, List.append_nil] at hcons
  have hperm := executed_perm h fun j => by rcases hall j with hp | hp | hp <;> rw [hp] <;> rfl
  exact ⟨htasks, hcons ▸ hperm⟩

/-- **What a settled pool looks like.** In a state in which no thread can go on, no call of a thread
outside is left over. If the pool was not stopped, its workers are asleep, and, if there are any,
every task enqueued, from a task or from outside, has been run once. If it was, `stop` has returned,
and all workers have. The tasks enqueued are those of the calls of `enqueue`. -/
theorem pool_settles [DecidableEq Task] (h : (prog Task threads).lts.Reach c)
    (hstuck : (prog Task threads).Stuck Choice.onward c) :
    (∀ i, i ∉ threads → c.pc i = .idle) ∧
    (c.sh.stopCalled = false → (∀ i ∈ threads, c.pc i = .asleep) ∧
      (threads ≠ [] → c.sh.tasks = [] ∧ c.sh.executed.Perm c.sh.enqueued)) ∧
    (c.sh.stopCalled = true → c.sh.stopReturned = true ∧ AllDone threads c) ∧
    ∀ tr, (prog Task threads).lts.Traced (fun _ _ => True) tr c → ∀ task,
      times (fun e => e.label.2.isEnqueue task) tr = (c.sh.enqueued.map Prod.snd).count task := by
  have hT := fun i => (pool_ok h i).2
  obtain ⟨-, hrest⟩ := Prog.stuck_rests (Pc.rests c.sh) (locked threads)
    (fun p hin => by cases p <;> simp [Pc.inside, Pc.rests] at hin ⊢) (goes_on hT) h hstuck
  have hall := no_join h hrest
  have hidle : ∀ i, i ∉ threads → c.pc i = .idle := by
    intro i hi
    have hout := mt (worker_iff h i).1 hi
    rcases hall i with hp | hp | hp
    · exact hp
    · rw [hp] at hout
      exact absurd rfl hout
    · rw [hp] at hout
      exact absurd rfl hout
  refine ⟨hidle, fun hnot => ?_, fun hcalled => ?_, fun tr htr task => ?_⟩
  · have hasleep : ∀ i ∈ threads, c.pc i = .asleep := by
      intro i hi
      have hworker := (worker_iff h i).2 hi
      rcases hall i with hp | hp | hp
      · rw [hp] at hworker
        simp [Pc.worker] at hworker
      · exact hp
      · -- a worker that has returned has seen `stop_`
        have hstop := hT i
        rw [hp] at hstop
        rw [(pool_ok h i).1.called hstop] at hnot
        simp at hnot
    refine ⟨hasleep, fun hne => ?_⟩
    obtain ⟨i, hi⟩ := List.exists_mem_of_ne_nil threads hne
    exact settled_executed h ⟨i, hasleep i hi⟩ hall
  · have hret : c.sh.stopReturned = true := by
      refine (called_inStop h hcalled).resolve_right ?_
      rintro ⟨i, hi⟩
      rcases hall i with hp | hp | hp <;> simp [hp, Pc.inStop] at hi
    exact ⟨hret, allDone_of_returned h hret⟩
  · rw [calls_pushed htr task, total_settled hall rfl rfl rfl, Nat.add_zero]

/-- Of threads in no call, asleep or returned none goes on. -/
theorem stuck_of_rests (threads : List ι) (hrest : ∀ i, c.pc i = .idle ∨ c.pc i = .asleep ∨ c.pc i = .done) :
    (prog Task threads).Stuck Choice.onward c := by
  intro t x hx
  have hs : step threads t c.sh (c.pc t) x = none := by
    rcases hrest t with ht | ht | ht <;> rw [ht] <;> cases x <;> first | rfl | simp [Choice.onward] at hx
  show (prog Task threads).next c (t, x) = none
  unfold Prog.next
  rw [show (prog Task threads).step t c.sh (c.pc t) x = none from hs]
  rfl

/-- The worker asleep again, the task run. -/
theorem pool_settles_one : ∃ (tr : Trace (Fin 2) ℕ) (c : State (Fin 2) ℕ),
    (prog ℕ [(0 : Fin 2)]).lts.Traced (fun _ _ => True) tr c ∧ c.sh.enqueued = [(0, 7)] ∧
      c.pc 0 = .asleep ∧ c.sh.executed.Perm c.sh.enqueued ∧
      times (fun e => e.label.2.isEnqueue 7) tr = 1 := by
  obtain ⟨tr, c, htr, hend⟩ := Lts.exists_traced (prog ℕ [(0 : Fin 2)]).lts (fun _ _ => True)
    (enqueueOne 0 1)
    (fun _ c => c.pc 0 == .asleep && c.pc 1 == .idle && c.sh.enqueued == [(0, 7)] && !c.sh.stopCalled)
    (by decide)
  simp only [Bool.and_eq_true, beq_iff_eq, Bool.not_eq_true'] at hend
  obtain ⟨⟨⟨h0, h1⟩, henq⟩, hnot⟩ := hend
  have hrest : ∀ i, c.pc i = .idle ∨ c.pc i = .asleep ∨ c.pc i = .done := by
    rw [Fin.forall_fin_two]
    exact ⟨.inr (.inl h0), .inl h1⟩
  obtain ⟨-, hrunning, -, hcalls⟩ := pool_settles htr.reach (stuck_of_rests [0] hrest)
  have hseven := hcalls tr htr 7
  rw [henq] at hseven
  exact ⟨tr, c, htr, henq, h0, ((hrunning hnot).2 (List.cons_ne_nil _ _)).2, hseven⟩

end BackendTasks.ThreadPool
