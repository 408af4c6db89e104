import BackendTasks.Proof.BlockingNotify
import BackendTasks.Sched.Progress

/-!
# The blocking queue gets its calls done

* `steps_of_calls`: the calls of all threads together take a bounded number of steps, and a
  `notify_one` or an unnotified wakeup a bounded number more, so no schedule keeps them going.
* `stuck_waits`: when no thread can go on, those still in a call are asleep for a reason: consumers
  because the queue is empty, producers because it is full.
* `balanced_completes`: so as many `push`es as `pop`s all complete, and every value is delivered.
-/

namespace BackendTasks.BlockingQueue

open Sched

variable {ι T : Type*} {capacity : ℕ} {s s' : Shared T} {p p' q : Pc T} {x : Choice ι T}
  {e : Effect ι Cv}

/-! ## The steps of a call -/

namespace Choice

/-- A `push`, `pop` or `pop_for` is called. -/
def isCall : Choice ι T → Bool
  | .push _ | .pop | .popFor => true
  | _ => false

def isPush : Choice ι T → Bool
  | .push _ => true
  | _ => false

def isPop : Choice ι T → Bool
  | .pop => true
  | _ => false

/-- The call, if it is one to pop, waits as long as it takes. -/
def waits : Choice ι T → Bool
  | .popFor => false
  | _ => true

def isStop : Choice ι T → Bool
  | .stop => true
  | _ => false

/-- A wakeup without notification. -/
def isWakeUp : Choice ι T → Bool
  | .wakeUp => true
  | _ => false

/-- The thread goes on with the call it is in. -/
def onward : Choice ι T → Bool
  | .go | .notify _ | .expire => true
  | _ => false

/-- The steps that a call or a wakeup pays for, with `n` threads. -/
def pay (n : ℕ) : Choice ι T → ℕ
  | .push _ | .pop | .popFor => 15
  | .stop => 14 * n + 4
  | .wakeUp => 8
  | _ => 0

theorem pay_eq (n : ℕ) (x : Choice ι T) :
    x.pay n = 15 * x.isCall.toNat + ((14 * n + 4) * x.isStop.toNat + 8 * x.isWakeUp.toNat) := by
  cases x <;> simp [pay, isCall, isStop, isWakeUp]

end Choice

/-- The steps a thread may still take until it sleeps or its call is over, together with those of
the thread it may wake up; of each thread, for `stop`. -/
def Pc.left (n : ℕ) : Pc T → ℕ
  | .idle => 0
  | .pushLock _ | .pushWoken _ _ => 13
  | .pushPred _ => 12
  | .pushGate _ => 11
  | .pushStore _ => 10
  | .pushNotify _ => 9
  | .pushWait _ => 7
  | .pushAsleep _ => 6
  | .popLock _ | .popWoken _ _ => 14
  | .popPred _ => 13
  | .popReady | .popLast => 12
  | .popGate _ => 11
  | .popTake _ => 10
  | .popNotify _ _ => 9
  | .popWait _ => 8
  | .popAsleep _ => 7
  | .pushExit _ _ | .popExit _ _ => 1
  | .stopFlag => 14 * n + 3
  | .stopEmpty => 14 * n + 2
  | .stopFull => 7 * n + 1

theorem left_wake {v : Cv} {q' : Pc T} (n : ℕ) (h : wake v q = some q') : q'.left n ≤ q.left n + 7 := by
  rcases wake_inv h with ⟨x, -, rfl, rfl⟩ | ⟨w, -, rfl, rfl⟩
  · exact Nat.le_refl 13
  · exact Nat.le_refl 14

/-- **One step** uses up one of those left. -/
theorem left_move [Fintype ι] (hm : Move capacity s p x s' p' e) :
    1 + p'.left (Fintype.card ι) + 7 * e.reach ≤
      p.left (Fintype.card ι) + x.pay (Fintype.card ι) := by
  cases hm with
  | pushNotify =>
    rename_i v j
    cases j <;> simp [Pc.left, Effect.reach, Choice.pay]
  | popNotify =>
    rename_i w v j
    cases j <;> simp [Pc.left, Effect.reach, Choice.pay]
  | popPass =>
    rename_i w _
    cases w <;> simp [Pc.left, Effect.reach, Choice.pay]
  | _ =>
    simp only [Pc.left, Effect.reach, Choice.pay]
    omega

/-! ## Runs of `push` and `pop` -/

/-- No `stop` and no `pop_for` is called. -/
def Plain (_ : State ι T) (act : ι × Choice ι T) : Prop :=
  act.2.keepsRunning = true ∧ act.2.waits = true

instance (c : State ι T) (act : ι × Choice ι T) : Decidable (Plain c act) :=
  inferInstanceAs (Decidable (act.2.keepsRunning = true ∧ act.2.waits = true))

/-- In a `push` that has not stored its value. -/
def Pc.pushing : Pc T → ℕ
  | .pushLock _ | .pushPred _ | .pushWait _ | .pushAsleep _ | .pushWoken _ _ => 1
  | .pushGate _ | .pushStore _ => 1
  | _ => 0

/-- In a `pop` that has not taken a value. -/
def Pc.popping : Pc T → ℕ
  | .popLock _ | .popPred _ | .popWait _ | .popAsleep _ | .popWoken _ _ => 1
  | .popLast | .popReady | .popGate _ | .popTake _ => 1
  | _ => 0

/-- In a `pop_for`. -/
def Pc.timed : Pc T → Bool
  | .popLock w | .popPred w | .popWait w | .popAsleep w | .popWoken w _ => !w
  | .popGate w | .popTake w | .popNotify w _ | .popExit w _ => !w
  | .popLast => true
  | _ => false

/-- A `push` stores its value once. -/
theorem pushing_move (hm : Move capacity s p x s' p' e) (hrun : s.running = true) :
    s'.accepted.length + p'.pushing = s.accepted.length + p.pushing + x.isPush.toNat := by
  cases hm with
  | pushRefuse hr =>
    rw [hrun] at hr
    simp at hr
  | pushStore =>
    simp only [Shared.store, List.length_append, List.length_singleton, Pc.pushing, Choice.isPush]
    rfl
  | popPass =>
    rename_i w _
    cases w <;> rfl
  | _ => rfl

/-- A `pop` takes a value once. -/
theorem popping_move (hm : Move capacity s p x s' p' e) (hrun : s.running = true) (hT : ThreadOK capacity s p)
    (htimed : p.timed = false) (hx : x.waits = true) :
    s'.delivered.length + p'.popping = s.delivered.length + p.popping + x.isPop.toNat := by
  cases hm with
  | callPopFor => simp [Choice.waits] at hx
  | popPass =>
    rename_i w _
    cases w <;> rfl
  | popTimeout _ _ => simp [Pc.timed] at htimed
  | popUnready hnil =>
    have hstopped := hT.resolve_left fun hne => hne hnil
    rw [hrun] at hstopped
    simp at hstopped
  | popRefuse hg =>
    have hnil := hg.resolve_left (by rw [hrun]; decide)
    have hstopped := hT.resolve_left fun hne => hne hnil
    rw [hrun] at hstopped
    simp at hstopped
  | popTake _ =>
    simp only [List.length_append, List.length_singleton, Pc.popping, Choice.isPop]
    rfl
  | _ => rfl

theorem timed_move (hm : Move capacity s p x s' p' e) (htimed : p.timed = false) (hx : x.waits = true) :
    p'.timed = false := by
  cases hm with
  | callPopFor => simp [Choice.waits] at hx
  | popPass =>
    rename_i w _
    cases w
    · simp [Pc.timed] at htimed
    · rfl
  | popExpire | popLastPass _ | popTimeout _ _ => simp [Pc.timed] at htimed
  | _ => first | rfl | exact htimed

/-! ## Going on -/

/-- In no call, or asleep. -/
def Pc.rests : Pc T → Bool
  | .idle | .pushAsleep _ | .popAsleep _ => true
  | _ => false

/-- A thread that is not at rest goes on, if it holds the mutex or the mutex is free. -/
theorem goes_on [DecidableEq ι] [Fintype ι] {c : State ι T} (hT : ∀ i, ThreadOK capacity c.sh (c.pc i))
    (t : ι) (hrest : (c.pc t).rests = false) (hmutex : (c.pc t).inside = true ∨ c.owner = none) :
    ∃ x s p e, Choice.onward x = true ∧ step capacity c.sh (c.pc t) x = some (s, p, e) ∧
      (prog ι T capacity).Enabled c t e := by
  have hTt := hT t
  generalize c.pc t = p at hrest hmutex hTt
  have hfree : p.inside = false → c.owner = none := by
    intro hout
    exact hmutex.resolve_left (by rw [hout]; decide)
  cases p with
  | idle | pushAsleep v | popAsleep w => simp [Pc.rests] at hrest
  | pushLock v => exact ⟨.go, _, _, _, rfl, rfl, hfree rfl⟩
  | pushWoken v b => exact ⟨.go, _, _, _, rfl, rfl, hfree rfl⟩
  | popLock w => exact ⟨.go, _, _, _, rfl, rfl, hfree rfl⟩
  | popWoken w b => exact ⟨.go, _, _, _, rfl, rfl, hfree rfl⟩
  | pushNotify v =>
    obtain ⟨pick, hpick⟩ := Prog.exists_pick (prog ι T capacity) c t .notEmpty
    exact ⟨.notify pick, _, _, _, rfl, rfl, hpick⟩
  | popNotify w v =>
    obtain ⟨pick, hpick⟩ := Prog.exists_pick (prog ι T capacity) c t .notFull
    exact ⟨.notify pick, _, _, _, rfl, rfl, hpick⟩
  | popTake w =>
    obtain ⟨v, rest, hq⟩ := List.exists_cons_of_ne_nil hTt
    exact ⟨.go, _, _, .tau, rfl, by rw [step, hq], trivial⟩
  | pushPred v | pushGate v | popPred w | popLast | popReady | popGate w =>
    refine ⟨.go, ?_⟩
    simp only [step]
    split <;> exact ⟨_, _, _, rfl, rfl, trivial⟩
  | _ => exact ⟨.go, _, _, _, rfl, rfl, trivial⟩

/-! ## Every run -/

/-- The steps of a run. -/
abbrev Trace (ι T : Type*) := List (Edge (State ι T) (ι × Choice ι T))

variable [DecidableEq ι] [Fintype ι] {c : State ι T} {ok : State ι T → ι × Choice ι T → Prop}
  {tr : Trace ι T}

/-- **All calls together take a bounded number of steps.** Whatever the schedule, a run takes at most
fifteen steps for each `push`, `pop` and `pop_for` called, eight for each wakeup without notification,
and for each `stop` four and fourteen for each thread. -/
theorem steps_of_calls (h : (prog ι T capacity).lts.Traced ok tr c) :
    tr.length ≤ 15 * times (fun e => e.label.2.isCall) tr +
      (14 * Fintype.card ι + 4) * times (fun e => e.label.2.isStop) tr +
      8 * times (fun e => e.label.2.isWakeUp) tr := by
  have hpaid : tr.length ≤ total (Pc.left (Fintype.card ι)) (prog ι T capacity).start + 0 +
      spent (fun e => e.label.2.pay (Fintype.card ι)) tr :=
    Prog.steps_le (Pc.left (Fintype.card ι)) (fun _ => 0) 7 (Choice.pay (Fintype.card ι))
      (fun hq => left_wake _ hq) (fun _ _ hs => left_move (step_move hs)) h
  have hinit : total (Pc.left (Fintype.card ι)) (prog ι T capacity).start = 0 :=
    Finset.sum_eq_zero fun _ _ => rfl
  simp only [Choice.pay_eq, spent_add, spent_mul, hinit] at hpaid
  dsimp only [times]
  omega

/-- Of threads at rest none goes on. -/
theorem stuck_of_rests (capacity : ℕ) (hrest : ∀ i, (c.pc i).rests = true) :
    (prog ι T capacity).Stuck Choice.onward c := by
  intro t x hx
  have ht := hrest t
  have hs : step capacity c.sh (c.pc t) x = none := by
    cases hp : c.pc t <;> rw [hp] at ht <;> simp only [Pc.rests, Bool.false_eq_true] at ht <;>
      cases x <;> first | rfl | simp [Choice.onward] at hx
  show (prog ι T capacity).next c (t, x) = none
  unfold Prog.next
  rw [show (prog ι T capacity).step t c.sh (c.pc t) x = none from hs]
  rfl

/-- Thread `r` sleeps in `pop` until thread `w` has pushed a value. -/
def popThenPush (r w : ι) : List (ι × Choice ι ℕ) :=
  (r, .pop) :: go r 3 ++ (w, .push 7) :: go w 4 ++ (w, .notify (some r)) :: go w 1 ++ go r 5 ++
    (r, .notify none) :: go r 1

/-- Two calls take eighteen steps. -/
theorem steps_of_calls_two : ∃ (tr : Trace (Fin 2) ℕ) (c : State (Fin 2) ℕ),
    (prog (Fin 2) ℕ 1).lts.Traced (fun _ _ => True) tr c ∧ c.pc = (fun _ => .idle) ∧
    tr.length = 18 ∧ tr.length ≤ 15 * 2 := by
  obtain ⟨tr, c, htr, hend⟩ := Lts.exists_traced (prog (Fin 2) ℕ 1).lts (fun _ _ => True) (popThenPush 0 1)
    (fun tr c => decide (c.pc = fun _ => .idle) && tr.length == 18 &&
      times (fun e => e.label.2.isCall) tr == 2 && times (fun e => e.label.2.isStop) tr == 0 &&
        times (fun e => e.label.2.isWakeUp) tr == 0) (by decide)
  simp only [Bool.and_eq_true, decide_eq_true_eq, beq_iff_eq] at hend
  obtain ⟨⟨⟨⟨hidle, hlen⟩, hcalls⟩, hstops⟩, hwakes⟩ := hend
  have hle := steps_of_calls htr
  rw [hcalls, hstops, hwakes] at hle
  exact ⟨tr, c, htr, hidle, hlen, hle⟩

theorem stuck_at_rest (h : (prog ι T capacity).lts.ReachIf ok c)
    (hstuck : (prog ι T capacity).Stuck Choice.onward c) :
    c.owner = none ∧ ∀ i, (c.pc i).rests = true := by
  refine Prog.stuck_rests Pc.rests (locked capacity) (fun p hin => ?_) (goes_on (thread_ok h)) h hstuck
  cases p <;> simp [Pc.inside, Pc.rests] at hin ⊢

/-- **Nobody waits without a reason.** Along runs without `stop`, in a state in which no thread can go
on with its call, the mutex is free and each thread is in no call or asleep: a consumer because
the queue is empty, a producer because it is full. -/
theorem stuck_waits (h : (prog ι T capacity).lts.ReachIf NoStop c)
    (hstuck : (prog ι T capacity).Stuck Choice.onward c) :
    c.owner = none ∧ (∀ i, (c.pc i).rests = true) ∧
      ((∃ i w, c.pc i = .popAsleep w) → c.sh.dataQueue = []) ∧
      ((∃ i v, c.pc i = .pushAsleep v) → c.sh.dataQueue.length = capacity) := by
  obtain ⟨hfree, hrest⟩ := stuck_at_rest h hstuck
  have hpop : total Pc.toPop c.pc = 0 := by
    refine Finset.sum_eq_zero fun i _ => ?_
    have hi := hrest i
    cases hp : c.pc i <;> simp [hp, Pc.rests, Pc.toPop] at hi ⊢
  have hpush : total Pc.toPush c.pc = 0 := by
    refine Finset.sum_eq_zero fun i _ => ?_
    have hi := hrest i
    cases hp : c.pc i <;> simp [hp, Pc.rests, Pc.toPush] at hi ⊢
  refine ⟨hfree, hrest, ?_, ?_⟩
  · rintro ⟨i, w, hi⟩
    have hle := elements_covered h ⟨i, by rw [hi]; rfl⟩
    rw [hpop] at hle
    exact List.length_eq_zero_iff.1 (Nat.le_zero.1 hle)
  · rintro ⟨i, v, hi⟩
    have hle := places_covered h ⟨i, by rw [hi]; rfl⟩
    have hcap : c.sh.dataQueue.length ≤ capacity := (fifo_run h).bounded
    omega

/-- A consumer asleep on an empty queue, nobody else in a call. -/
theorem stuck_waits_one : ∃ c : State (Fin 2) ℕ, (prog (Fin 2) ℕ 1).lts.ReachIf NoStop c ∧
    c.pc 0 = .popAsleep true ∧ c.sh.dataQueue = [] := by
  obtain ⟨c, hc, hend⟩ := Lts.exists_reachIf (prog (Fin 2) ℕ 1).lts NoStop ((0, .pop) :: go 0 3)
    (fun c => c.pc 0 == .popAsleep true && c.pc 1 == .idle) (by decide)
  rw [Bool.and_eq_true, beq_iff_eq, beq_iff_eq] at hend
  have hrest : ∀ i, (c.pc i).rests = true := by
    rw [Fin.forall_fin_two, hend.1, hend.2]
    exact ⟨rfl, rfl⟩
  exact ⟨c, hc, hend.1, (stuck_waits hc (stuck_of_rests 1 hrest)).2.2.1 ⟨0, true, hend.1⟩⟩

/-! ## As many pushes as pops -/

theorem plain_noStop (h : (prog ι T capacity).lts.ReachIf Plain c) :
    (prog ι T capacity).lts.ReachIf NoStop c :=
  h.mono fun _ _ hok => hok.1

theorem untimed (h : (prog ι T capacity).lts.ReachIf Plain c) : ∀ i, (c.pc i).timed = false := by
  refine Prog.local_invariant (locked capacity) (fun _ p => p.timed = false) (fun _ => rfl) ?_ ?_ h
  · intro c t x s p e _ hok hs htimed
    exact timed_move (step_move hs) htimed hok.2
  · intro c t x s p e i _ _ _ _ _ _ htimed
    rcases (prog ι T capacity).woken_cases e i (c.pc i) with heq | ⟨v, hv⟩
    · rw [heq]
      exact htimed
    · rcases wake_inv hv with ⟨y, -, hi, hw⟩ | ⟨w, -, hi, hw⟩
      · rw [hw]
        rfl
      · rw [hw]
        rw [hi] at htimed
        exact htimed

/-- The `push`es called are those that have stored their value and those that still wait to. -/
theorem pushes_eq (h : (prog ι T capacity).lts.Traced Plain tr c) :
    c.sh.accepted.length + total Pc.pushing c.pc = times (fun e => e.label.2.isPush) tr := by
  have hcount : c.sh.accepted.length + total Pc.pushing c.pc =
      0 + total Pc.pushing (prog ι T capacity).start + spent (fun e => e.label.2.isPush.toNat) tr := by
    refine Prog.counted (fun s => s.accepted.length) Pc.pushing (fun x => x.isPush.toNat) ?_ ?_ h
    · intro v q q' hq
      rcases wake_inv hq with ⟨x, -, rfl, rfl⟩ | ⟨w, -, rfl, rfl⟩ <;> rfl
    · intro c t x s p e hc _ hs
      exact pushing_move (step_move hs) (running_of_noStop (plain_noStop hc) t).1
  have hinit : total Pc.pushing (prog ι T capacity).start = 0 := Finset.sum_eq_zero fun _ _ => rfl
  rw [hinit] at hcount
  dsimp only [times]
  omega

/-- The `pop`s called are those that have taken a value and those that still wait to. -/
theorem pops_eq (h : (prog ι T capacity).lts.Traced Plain tr c) :
    c.sh.delivered.length + total Pc.popping c.pc = times (fun e => e.label.2.isPop) tr := by
  have hcount : c.sh.delivered.length + total Pc.popping c.pc =
      0 + total Pc.popping (prog ι T capacity).start + spent (fun e => e.label.2.isPop.toNat) tr := by
    refine Prog.counted (fun s => s.delivered.length) Pc.popping (fun x => x.isPop.toNat) ?_ ?_ h
    · intro v q q' hq
      rcases wake_inv hq with ⟨x, -, rfl, rfl⟩ | ⟨w, -, rfl, rfl⟩ <;> rfl
    · intro c t x s p e hc hok hs
      have hrun := (running_of_noStop (plain_noStop hc) t).1
      exact popping_move (step_move hs) hrun (thread_ok hc t) (untimed hc t) hok.2
  have hinit : total Pc.popping (prog ι T capacity).start = 0 := Finset.sum_eq_zero fun _ _ => rfl
  rw [hinit] at hcount
  dsimp only [times]
  omega

/-- **As many pushes as pops all complete.** If only `push` and `pop` are called, as often the one as
the other, on a queue with room for an element, then once no thread can go on every call has
returned, the queue is empty, and the values popped are those pushed, in their order. -/
theorem balanced_completes (hcap : 1 ≤ capacity) (h : (prog ι T capacity).lts.Traced Plain tr c)
    (hstuck : (prog ι T capacity).Stuck Choice.onward c)
    (hbalance : times (fun e => e.label.2.isPush) tr = times (fun e => e.label.2.isPop) tr) :
    (∀ i, c.pc i = .idle) ∧ c.sh.dataQueue = [] ∧ c.sh.delivered = c.sh.accepted ∧
      c.sh.accepted.length = times (fun e => e.label.2.isPush) tr := by
  obtain ⟨-, hrest, hconsumers, hproducers⟩ := stuck_waits (plain_noStop h.reach) hstuck
  have hpushes := pushes_eq h
  have hpops := pops_eq h
  have hcons : c.sh.delivered ++ c.sh.dataQueue = c.sh.accepted := (fifo_run h.reach).conserved
  have hlen : c.sh.delivered.length + c.sh.dataQueue.length = c.sh.accepted.length := by
    rw [← hcons, List.length_append]
  have hasleep : total Pc.popping c.pc ≠ 0 → c.sh.dataQueue.length = 0 := by
    intro hne
    obtain ⟨i, -, hi⟩ := Finset.exists_ne_zero_of_sum_ne_zero hne
    have hr := hrest i
    rw [List.length_eq_zero_iff]
    cases hp : c.pc i <;> rw [hp] at hi hr <;> simp [Pc.rests, Pc.popping] at hi hr
    exact hconsumers ⟨i, _, hp⟩
  have hfull : total Pc.pushing c.pc ≠ 0 → c.sh.dataQueue.length = capacity := by
    intro hne
    obtain ⟨i, -, hi⟩ := Finset.exists_ne_zero_of_sum_ne_zero hne
    have hr := hrest i
    cases hp : c.pc i <;> rw [hp] at hi hr <;> simp [Pc.rests, Pc.pushing] at hi hr
    exact hproducers ⟨i, _, hp⟩
  -- a producer and a consumer do not both wait, and one kind alone would unbalance the calls
  have hnopush : total Pc.pushing c.pc = 0 := by
    by_contra hne
    have hcapacity := hfull hne
    have hempty := hasleep (by omega)
    omega
  have hnopop : total Pc.popping c.pc = 0 := by
    by_contra hne
    have hempty := hasleep hne
    omega
  have hnil : c.sh.dataQueue = [] := List.length_eq_zero_iff.1 (by omega)
  refine ⟨fun i => ?_, hnil, by rw [← hcons, hnil, List.append_nil], by omega⟩
  have hpush := Finset.sum_eq_zero_iff.1 hnopush i (Finset.mem_univ i)
  have hpop := Finset.sum_eq_zero_iff.1 hnopop i (Finset.mem_univ i)
  have hr := hrest i
  cases hp : c.pc i <;> simp [hp, Pc.rests, Pc.pushing, Pc.popping] at hr hpush hpop ⊢

/-- One `push` and one `pop`. -/
theorem balanced_completes_two : ∃ c : State (Fin 2) ℕ, (prog (Fin 2) ℕ 1).lts.ReachIf Plain c ∧
    c.sh.accepted = [7] ∧ c.sh.delivered = c.sh.accepted ∧ c.sh.dataQueue = [] := by
  obtain ⟨tr, c, htr, hend⟩ := Lts.exists_traced (prog (Fin 2) ℕ 1).lts Plain (popThenPush 0 1)
    (fun tr c => decide (c.pc = fun _ => .idle) && c.sh.accepted == [7] &&
      times (fun e => e.label.2.isPush) tr == times (fun e => e.label.2.isPop) tr) (by decide)
  simp only [Bool.and_eq_true, decide_eq_true_eq, beq_iff_eq] at hend
  obtain ⟨⟨hidle, hacc⟩, hbalance⟩ := hend
  have hstuck := stuck_of_rests (c := c) 1 fun i => by rw [hidle]; rfl
  obtain ⟨-, hnil, hall, -⟩ := balanced_completes le_rfl htr hstuck hbalance
  exact ⟨c, htr.reach, hacc, hall, hnil⟩

end BackendTasks.BlockingQueue
