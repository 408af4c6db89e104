import BackendTasks.Proof.KafkaProducer
import BackendTasks.Sched.Progress

/-!
# The producer gets its calls done

The worker sleeps when there is nothing to do; what wakes it up then is a record, the `stop`, or its
timer. `Pc.ahead` bounds the steps that it still takes before it sleeps again or has returned, when
each record in the queue takes eight.

* `producer_completes`: the calls and the wakeups before `stop_` is set bound the steps of a run; and
  when nobody can go on any more, every `send` and the `stop` have returned, and the worker too.
* `no_timer_needed`: a record does not wait for the timer: when nobody can go on but by it, all
  records are handled, or the worker has returned. Only a `stop` may be waiting for it, if it sends
  its notification while the worker is between its predicate and its sleep (`no_timer_needed_stop`).
  The records are those of the `send` calls (`sends_pushed`).
-/

namespace BackendTasks.AsyncKafkaProducer

open Sched

variable {ι T : Type*} {worker : ι} {s s' : Shared T} {p p' q : Pc T} {x : Choice ι T}
  {e : Effect ι Unit}

/-! ## The worker and its callers -/

/-- The control points of the worker. -/
def Pc.isWorker : Pc T → Bool
  | .test | .lock | .pred | .wait | .asleep | .woken _ | .check | .leave => true
  | .drain | .unlock | .poll | .flush | .done => true
  | _ => false

theorem Move.isWorker (hm : Move s p x s' p' e) : p'.isWorker = p.isWorker := by
  cases hm <;> rfl

namespace Choice

/-- A `send` or a `stop` is called. -/
def isCall : Choice ι T → Bool
  | .send _ | .stop => true
  | _ => false

/-- A wakeup without notification, by the timer or spurious. -/
def isWakeUp : Choice ι T → Bool
  | .wakeUp => true
  | _ => false

/-- The thread goes on with what it is doing; `timer` says whether one that sleeps may be woken up
without notification. -/
def onward (timer : Bool) : Choice ι T → Bool
  | .send _ | .stop => false
  | .wakeUp => timer
  | _ => true

end Choice

theorem Shared.complete_queue (s : Shared T) (k : ℕ) : (s.complete k).queue = s.queue := by
  rw [complete]
  split <;> rfl

theorem Shared.complete_stop (s : Shared T) (k : ℕ) : (s.complete k).stop = s.stop := by
  rw [complete]
  split <;> rfl

/-- The steps that a `send` or a `stop` still takes, together with those of the worker that
it may wake up. -/
def Pc.left : Pc T → ℕ
  | .sendTest _ => 23
  | .sendProduce _ => 22
  | .sendLock _ => 21
  | .sendPush _ => 20
  | .sendUnlock _ => 11
  | .sendNotify _ => 10
  | .stopSet => 23
  | .stopNotify => 11
  | .stopJoin => 1
  | _ => 0

/-- The steps of the worker until it sleeps or has returned, without those for the records. -/
def Pc.ahead (stop empty : Bool) : Pc T → ℕ
  | .test => 4
  | .lock => if stop then 10 else 3
  | .pred => if empty then (if stop then 9 else 2) else 2
  | .wait => if stop then 12 else 1
  | .asleep => if stop then 11 else 0
  | .woken _ => if stop then 10 else 9
  | .check => if empty then 8 else 1
  | .drain => if empty then 7 else 0
  | .unlock => 6
  | .poll => 5
  | .leave => 2
  | .flush => 1
  | _ => 0

/-- **One step of the worker** uses up one of those ahead, or eight are taken off a record. -/
theorem ahead_move (hm : Move s p x s' p' e) (hp : p.isWorker = true) :
    1 + p'.ahead s'.stop s'.queue.isEmpty + 8 * s'.queue.length ≤
      p.ahead s.stop s.queue.isEmpty + 8 * s.queue.length + 10 * (x.isWakeUp && !s.stop).toNat := by
  cases hm with
  | ready hready =>
    cases hq : s.queue with
    | nil =>
      have hstop : s.stop = true := hready.resolve_left fun hne => hne hq
      simp [Pc.ahead, hstop]
    | cons msg rest => simp [Pc.ahead]
  | unready hq hstop => simp [Pc.ahead, hq, hstop]
  | drained hstop hq =>
    simp only [Pc.ahead, hq, List.isEmpty_nil, if_true]
    omega
  | take hq =>
    rename_i msg rest
    simp only [Pc.ahead, hq, List.isEmpty_cons, List.length_cons]
    cases rest with
    | nil => simp
    | cons next rest =>
      simp only [List.isEmpty_cons, List.length_cons, Bool.false_eq_true, if_false]
      omega
  | empty hq => simp [Pc.ahead, hq]
  | sleep | wake | relock | expire | lock =>
    simp only [Pc.ahead, Choice.isWakeUp]
    cases s.stop <;> cases s.queue.isEmpty <;> simp <;> omega
  | work _ =>
    simp only [Pc.ahead]
    cases s.queue.isEmpty <;> simp
  | running hstop =>
    simp only [Pc.ahead, hstop, Bool.false_eq_true, if_false]
    omega
  | stopped _ | leave | unlock | poll | finish =>
    simp only [Pc.ahead]
    omega
  | _ => simp [Pc.isWorker] at hp

/-- **One step of a caller** uses up one of those left, and those of the worker that it makes. -/
theorem left_move [Fintype ι] (hm : Move s p x s' p' e) (hp : p.isWorker = false) :
    1 + p'.left + 8 * s'.queue.length + 11 * (s'.stop && !s.stop).toNat + 9 * e.reach ≤
      p.left + 8 * s.queue.length + 24 * x.isCall.toNat := by
  cases hm with
  | sendPush =>
    simp only [Pc.left, Shared.push, Effect.reach, Choice.isCall, List.length_append,
      List.length_singleton, Bool.and_not_self, Bool.toNat_false]
    omega
  | sendNotify =>
    rename_i k j
    cases j <;> simp only [Shared.complete_queue, Shared.complete_stop, Pc.left, Effect.reach,
      Choice.isCall, Bool.and_not_self, Bool.toNat_false] <;> omega
  | stopNotify =>
    rename_i j
    cases j <;> simp only [Pc.left, Effect.reach, Choice.isCall, Bool.and_not_self,
      Bool.toNat_false] <;> omega
  | stopSet =>
    have hone := Bool.toNat_le (true && !s.stop)
    simp only [Pc.left, Effect.reach, Choice.isCall, Bool.toNat_false]
    omega
  | callSend | sendRefuse _ | sendGo _ | produce | sendLock | sendUnlock | stopAgain _ | callStop _
  | stopReturn _ =>
    simp only [Pc.left, Effect.reach, Choice.isCall, Bool.and_not_self, Bool.toNat_false,
      Bool.toNat_true]
    omega
  | _ => simp [Pc.isWorker] at hp

/-- What a step of another thread may add to what the worker has ahead of it: a wakeup, and the
`stop_` that it finds set. -/
theorem ahead_other [DecidableEq ι] [Fintype ι] (worker i : ι) (hm : Move s p x s' p' e)
    (hexcl : q.inside = true → p.inside = false) :
    ((prog T worker).woken e i q).ahead s'.stop s'.queue.isEmpty ≤
      q.ahead s.stop s.queue.isEmpty + 11 * (s'.stop && !s.stop).toNat + 9 * e.reach := by
  have hstop : q.ahead s'.stop s'.queue.isEmpty ≤
      q.ahead s.stop s.queue.isEmpty + 11 * (s'.stop && !s.stop).toNat := by
    have hqueue : q.inside = true → s'.queue = s.queue := fun hq => hm.frame (hexcl hq)
    have hset := hm.mono.1
    cases q with
    | pred | wait | check | leave | drain | unlock =>
      rw [hqueue rfl]
      cases hold : s.stop with
      | true => simp [hset hold]
      | false => cases s'.stop <;> cases s.queue.isEmpty <;> simp [Pc.ahead]
    | _ =>
      cases hold : s.stop with
      | true => simp [Pc.ahead, hset hold]
      | false => cases s'.stop <;> simp [Pc.ahead]
  cases e with
  | notifyOne v j =>
    cases j with
    | none => exact Nat.le_add_right_of_le hstop
    | some j =>
      have hwake : ((prog T worker).wake v q).getD q = q ∨
          q = .asleep ∧ ((prog T worker).wake v q).getD q = .woken true := by
        cases hw : (prog T worker).wake v q with
        | none => exact .inl rfl
        | some q' =>
          obtain ⟨hq, rfl⟩ := wake_inv hw
          exact .inr ⟨hq, rfl⟩
      simp only [Prog.woken, Effect.reach]
      split
      · rcases hwake with hsame | ⟨rfl, hwoken⟩
        · rw [hsame]
          omega
        · rw [hwoken]
          cases hold : s.stop with
          | true => simp [Pc.ahead, hm.mono.1 hold]
          | false => cases s'.stop <;> simp [Pc.ahead]
      · omega
  | notifyAll v => cases hm
  | _ => exact Nat.le_add_right_of_le hstop

/-! ## At rest -/

/-- A thread that cannot go on: it is in no call, waits for the worker, has returned, or it sleeps and
there is no timer. -/
def Pc.rests (timer : Bool) (s : Shared T) : Pc T → Bool
  | .idle | .done => true
  | .asleep => !timer
  | .stopJoin => !s.finished
  | _ => false

/-- A thread that is not at rest goes on, if it holds the mutex or the mutex is free. -/
theorem goes_on [DecidableEq ι] [Fintype ι] {c : State ι T} {timer : Bool} (t : ι)
    (hrest : (c.pc t).rests timer c.sh = false) (hmutex : (c.pc t).inside = true ∨ c.owner = none) :
    ∃ x s p e, Choice.onward timer x = true ∧ step c.sh (c.pc t) x = some (s, p, e) ∧
      (prog T worker).Enabled c t e := by
  generalize c.pc t = p at hrest hmutex
  have hfree : p.inside = false → c.owner = none := by
    intro hout
    exact hmutex.resolve_left (by rw [hout]; decide)
  cases p with
  | idle | done => simp [Pc.rests] at hrest
  | asleep =>
    have htimer : timer = true := by simpa [Pc.rests] using hrest
    exact ⟨.wakeUp, _, _, _, htimer, rfl, trivial⟩
  | sendProduce payload => exact ⟨.produce 0, _, _, _, rfl, rfl, trivial⟩
  | sendLock msg => exact ⟨.go, _, _, _, rfl, rfl, hfree rfl⟩
  | lock => exact ⟨.go, _, _, _, rfl, rfl, hfree rfl⟩
  | woken b => exact ⟨.go, _, _, _, rfl, rfl, hfree rfl⟩
  | sendNotify record =>
    obtain ⟨pick, hpick⟩ := Prog.exists_pick (prog T worker) c t ()
    exact ⟨.notify pick, _, _, _, rfl, rfl, hpick⟩
  | stopNotify =>
    obtain ⟨pick, hpick⟩ := Prog.exists_pick (prog T worker) c t ()
    exact ⟨.notify pick, _, _, _, rfl, rfl, hpick⟩
  | stopJoin =>
    have hfin : c.sh.finished = true := by simpa [Pc.rests] using hrest
    exact ⟨.go, _, _, .tau, rfl, by rw [step, if_pos hfin], trivial⟩
  | sendTest payload | test | pred | check | drain =>
    refine ⟨.go, ?_⟩
    simp only [step]
    split <;> exact ⟨_, _, _, rfl, rfl, trivial⟩
  | _ => exact ⟨.go, _, _, _, rfl, rfl, trivial⟩

/-- Of threads at rest none goes on. -/
theorem stuck_of_rests [DecidableEq ι] [Fintype ι] (worker : ι) {c : State ι T} {timer : Bool}
    (hrest : ∀ i, (c.pc i).rests timer c.sh = true) :
    (prog T worker).Stuck (Choice.onward timer) c := by
  intro t x hx
  have ht := hrest t
  have hs : step c.sh (c.pc t) x = none := by
    generalize c.pc t = p at ht
    cases p with
    | idle | done => cases x <;> first | rfl | simp [Choice.onward] at hx
    | asleep =>
      have hnone : timer = false := by simpa [Pc.rests] using ht
      rw [hnone] at hx
      cases x <;> first | rfl | simp [Choice.onward] at hx
    | stopJoin =>
      have hnot : c.sh.finished = false := by simpa [Pc.rests] using ht
      cases x <;> simp [step, hnot]
    | _ => simp [Pc.rests] at ht
  show (prog T worker).next c (t, x) = none
  unfold Prog.next
  rw [show (prog T worker).step t c.sh (c.pc t) x = none from hs]
  rfl

/-! ## How far a `stop` is -/

/-- In `stop`. -/
def Pc.inStop : Pc T → Bool
  | .stopSet | .stopNotify | .stopJoin => true
  | _ => false

/-- A `stop` that was called is being worked on until it has returned. -/
theorem inStop_move (hm : Move s p x s' p' e) :
    (s'.stopReturned = true ∨ (p.inStop = true → p'.inStop = true)) ∧
      (s.stopReturned = true → s'.stopReturned = true) ∧
      (s'.stopCalled = true → s.stopCalled = true ∨ p'.inStop = true) := by
  have hout : p.inStop = false → p.inStop = true → p'.inStop = true := by
    intro hno hin
    rw [hno] at hin
    simp at hin
  cases hm with
  | callStop => exact ⟨.inr (hout rfl), id, fun _ => .inr rfl⟩
  | stopReturn => exact ⟨.inl rfl, fun _ => rfl, .inl⟩
  | stopSet | stopNotify => exact ⟨.inr fun _ => rfl, id, .inl⟩
  | sendNotify =>
    rw [Shared.complete]
    split <;> exact ⟨.inr (hout rfl), id, .inl⟩
  | _ => exact ⟨.inr (hout rfl), id, .inl⟩

/-- What a thread knows of `stop_` and of the queue. -/
def Knows (s : Shared T) : Pc T → Prop
  | .wait => s.queue = []
  | .leave | .flush => s.stop = true
  | .done => s.stop = true ∧ s.finished = true
  | .stopSet | .stopNotify | .stopJoin => s.stopCalled = true
  | _ => True

/-- `stop_` is set by a `stop` only, and what a thread knows holds. -/
structure Told (s : Shared T) (p : Pc T) : Prop where
  called : s.stop = true → s.stopCalled = true
  knows : Knows s p

theorem Told.own (h : Told s p) (hm : Move s p x s' p' e) : Told s' p' := by
  obtain ⟨hcalled, hknows⟩ := h
  cases hm with
  | sendNotify =>
    refine ⟨?_, trivial⟩
    rw [Shared.complete]
    split <;> exact hcalled
  | unready hq _ => exact ⟨hcalled, hq⟩
  | stopped hstop | drained hstop _ => exact ⟨hcalled, hstop⟩
  | leave => exact ⟨hcalled, hknows⟩
  | finish => exact ⟨hcalled, hknows, rfl⟩
  | callStop => exact ⟨fun _ => rfl, rfl⟩
  | stopSet => exact ⟨fun _ => hknows, hknows⟩
  | stopNotify => exact ⟨hcalled, hknows⟩
  | _ => exact ⟨hcalled, trivial⟩

/-- A step of another thread. -/
theorem Told.other (hp : Told s p) (h : Told s q) (hm : Move s p x s' p' e)
    (hexcl : q.inside = true → p.inside = false) : Told s' q := by
  obtain ⟨hstop, hcalled, -, -⟩ := hm.mono
  have hfinished : s.finished = true → s'.finished = true := by
    intro hfin
    cases hm with
    | sendNotify => rw [Shared.complete]; split <;> exact hfin
    | finish => rfl
    | _ => exact hfin
  refine ⟨(hp.own hm).called, ?_⟩
  have hknows := h.knows
  cases q with
  | wait =>
    rw [Knows, hm.frame (hexcl rfl)]
    exact hknows
  | leave | flush => exact hstop hknows
  | done => exact ⟨hstop hknows.1, hfinished hknows.2⟩
  | stopSet | stopNotify | stopJoin => exact hcalled hknows
  | _ => trivial

/-- A record in the queue is covered by a thread that has still to notify, or by the worker when it
is awake. -/
def Pc.cover : Pc T → ℕ
  | .sendUnlock _ | .sendNotify _ => 1
  | .test | .lock | .pred | .wait | .woken _ | .check | .leave => 1
  | .drain | .unlock | .poll | .flush | .done => 1
  | _ => 0

/-- **One notification is enough**: what a step does to the queue and to who covers it. -/
theorem cover_move (hm : Move s p x s' p' e) (h : Told s p) :
    min s'.queue.length 1 = 0 ∨ (wake () p' = none ∧
      min s'.queue.length 1 + p.cover ≤
        min s.queue.length 1 + p'.cover + Prog.charge () e) := by
  cases hm with
  | sendPush =>
    refine .inr ⟨rfl, ?_⟩
    simp only [Shared.push, Pc.cover, Prog.charge]
    omega
  | take hq =>
    refine .inr ⟨rfl, ?_⟩
    simp only [hq, Pc.cover, Prog.charge, List.length_cons]
    omega
  | sleep =>
    left
    have hempty : s.queue = [] := h.knows
    rw [hempty]
    rfl
  | sendNotify =>
    refine .inr ⟨rfl, ?_⟩
    simp only [Shared.complete_queue, Pc.cover, Prog.charge, if_true]
    omega
  | _ => exact .inr ⟨rfl, by simp only [Pc.cover, Prog.charge]; omega⟩

/-! ## The calls of `send` -/

section Sends

variable [DecidableEq T]

/-- A `send` of the payload is called. -/
def Choice.isSend (payload : T) : Choice ι T → Bool
  | .send new => new == payload
  | _ => false

/-- Whether the thread is in a `send` of the payload, and has not pushed its record. -/
def Pc.sending (payload : T) : Pc T → ℕ
  | .sendTest new | .sendProduce new => (new == payload).toNat
  | .sendLock msg | .sendPush msg => (msg.payload == payload).toNat
  | _ => 0

/-- The thread is about to throw, in a `send` of the payload. -/
def Pc.refuses (payload : T) (s : Shared T) : Pc T → Bool
  | .sendTest new => s.stop && new == payload
  | _ => false

theorem Move.sending (hm : Move s p x s' p' e) (payload : T) :
    (s'.accepted.map Message.payload).count payload + p'.sending payload +
        (p.refuses payload s).toNat =
      (s.accepted.map Message.payload).count payload + p.sending payload +
        (x.isSend payload).toNat := by
  cases hm with
  | sendRefuse hstop => simp [Pc.sending, Pc.refuses, Choice.isSend, hstop]
  | sendGo hstop => simp [Pc.sending, Pc.refuses, Choice.isSend, hstop]
  | sendPush =>
    simp only [Shared.push, List.map_append, List.map_cons, List.map_nil, List.count_append,
      List.count_singleton, Pc.sending, Pc.refuses, Choice.isSend, Bool.toNat_false]
    split <;> simp_all
  | sendNotify =>
    rw [Shared.complete]
    split <;> rfl
  | _ => rfl

end Sends

section Runs

variable [DecidableEq ι] [Fintype ι] {c : State ι T} {ok : State ι T → ι × Choice ι T → Prop}

theorem isWorker_iff (h : (prog T worker).lts.ReachIf ok c) (i : ι) :
    (c.pc i).isWorker = true ↔ i = worker := by
  have hconst := Prog.feature_const (M := prog T worker) Pc.isWorker
    (fun hs => (step_move hs).isWorker)
    (fun hw => by obtain ⟨rfl, rfl⟩ := wake_inv hw; rfl) h i
  have hstart : ((prog T worker).start i).isWorker = decide (i = worker) := by
    by_cases hi : i = worker
    · simp [prog, hi, Pc.isWorker]
    · simp [prog, hi, Pc.isWorker]
  rw [hconst, hstart, decide_eq_true_iff]

/-- The steps that are still ahead of all threads together. -/
def potential (worker : ι) (c : State ι T) : ℕ :=
  (c.pc worker).ahead c.sh.stop c.sh.queue.isEmpty + 8 * c.sh.queue.length + total Pc.left c.pc

theorem potential_step {c' : State ι T} {a : ι × Choice ι T}
    (h : (prog T worker).lts.ReachIf ok c) (hs : (prog T worker).lts.step c a = some c') :
    1 + potential worker c' ≤
      potential worker c + (24 * a.2.isCall.toNat + 10 * (a.2.isWakeUp && !c.sh.stop).toNat) := by
  obtain ⟨s, p, e, hstep, -, rfl⟩ := Prog.next_inv hs
  have hm := step_move hstep
  have hleft := total_eq Pc.left (f := c.pc) (g := fun i => (prog T worker).woken e i (c.pc i))
    (t := a.1) p fun i _ => by
      rcases (prog T worker).woken_cases e i (c.pc i) with hsame | ⟨v, hv⟩
      · rw [hsame]
      · obtain ⟨hq, hv⟩ := wake_inv hv
        rw [hv, hq]
        rfl
  unfold potential
  dsimp only at hleft ⊢
  cases hp : (c.pc a.1).isWorker with
  | true =>
    have hworker := (isWorker_iff h a.1).1 hp
    have hzero : ∀ q : Pc T, q.isWorker = true → q.left = 0 := by
      intro q hq
      cases q <;> simp [Pc.isWorker, Pc.left] at hq ⊢
    have hahead := ahead_move hm hp
    rw [hzero _ hp, hzero _ (hm.isWorker.trans hp)] at hleft
    rw [if_pos hworker.symm]
    rw [hworker] at hahead
    omega
  | false =>
    have hne : worker ≠ a.1 := by
      intro heq
      rw [(isWorker_iff h a.1).2 heq.symm] at hp
      simp at hp
    have hexcl : (c.pc worker).inside = true → (c.pc a.1).inside = false := by
      intro hin
      have howner := ((locked T worker).excl h worker).1 hin
      by_contra hother
      rw [Bool.not_eq_false] at hother
      have hsame := ((locked T worker).excl h a.1).1 hother
      exact hne (Option.some.inj (howner.symm.trans hsame))
    have hahead := ahead_other worker worker hm hexcl
    have hcall := left_move hm hp
    rw [if_neg hne]
    omega

theorem told (h : (prog T worker).lts.ReachIf ok c) : ∀ i, Told c.sh (c.pc i) := by
  refine Prog.local_invariant (locked T worker) Told (fun i => ⟨nofun, ?_⟩) ?_ ?_ h
  · simp only [prog]
    split <;> trivial
  · intro c t x s p e _ _ hs hL
    exact hL.own (step_move hs)
  · intro c t x s p e i _ _ hs hp _ hexcl hL
    have hother := hp.other hL (step_move hs) hexcl
    rcases (prog T worker).woken_cases e i (c.pc i) with hsame | ⟨v, hv⟩
    · rw [hsame]
      exact hother
    · obtain ⟨-, hv⟩ := wake_inv hv
      rw [hv]
      exact ⟨hother.called, trivial⟩

/-- A `stop` that was called has returned, or some thread is in it. -/
theorem called_inStop (h : (prog T worker).lts.ReachIf ok c) (hcalled : c.sh.stopCalled = true) :
    c.sh.stopReturned = true ∨ ∃ i, (c.pc i).inStop = true :=
  Prog.begun_ends (M := prog T worker) Shared.stopCalled Shared.stopReturned Pc.inStop rfl
    (fun hw => by obtain ⟨rfl, rfl⟩ := wake_inv hw; rfl) (fun hs => inStop_move (step_move hs)) h hcalled

/-- While the worker is asleep, a record in the queue is covered. -/
theorem covered (h : (prog T worker).lts.ReachIf ok c) (hi : ∃ i, c.pc i = .asleep) :
    min c.sh.queue.length 1 ≤ total Pc.cover c.pc := by
  obtain ⟨i, hi⟩ := hi
  refine Prog.notify_one_suffices (M := prog T worker) () (fun s => min s.queue.length 1) Pc.cover
    (fun i => ?_) ?_ ?_ ?_ h ⟨i, by rw [hi]; rfl⟩
  · simp only [prog]
    split <;> rfl
  · intro u q q' hq
    obtain ⟨rfl, rfl⟩ := wake_inv hq
    exact ⟨Nat.zero_le _, rfl⟩
  · intro q q' hq
    obtain ⟨rfl, rfl⟩ := wake_inv hq
    exact Nat.one_pos
  · intro c t x s p e hc _ hs
    exact cover_move (step_move hs) (told hc t)

/-- **Where everybody is when nobody can go on.** -/
theorem stuck_rests {timer : Bool} (h : (prog T worker).lts.ReachIf ok c)
    (hstuck : (prog T worker).Stuck (Choice.onward timer) c) :
    ((timer = false ∧ c.pc worker = .asleep) ∨ c.pc worker = .done) ∧
      ∀ i, i ≠ worker → c.pc i = .idle ∨ (c.pc i = .stopJoin ∧ c.sh.finished = false) := by
  obtain ⟨-, hrest⟩ := Prog.stuck_rests (Pc.rests timer c.sh) (locked T worker)
    (fun p hin => by cases p <;> simp [Pc.inside, Pc.rests] at hin ⊢) (goes_on) h hstuck
  constructor
  · have hworker := (isWorker_iff h worker).2 rfl
    have hr := hrest worker
    generalize c.pc worker = p at hworker hr
    cases p with
    | asleep => exact .inl ⟨by simpa [Pc.rests] using hr, rfl⟩
    | done => exact .inr rfl
    | _ => simp [Pc.rests, Pc.isWorker] at hworker hr
  · intro i hi
    have hout := mt (isWorker_iff h i).1 hi
    have hr := hrest i
    generalize c.pc i = p at hout hr
    cases p with
    | idle => exact .inl rfl
    | stopJoin => exact .inr ⟨rfl, by simpa [Pc.rests] using hr⟩
    | _ => simp [Pc.rests, Pc.isWorker] at hout hr

/-- Once the worker has returned, so does everybody. -/
theorem all_returned (h : (prog T worker).lts.ReachIf ok c) (hdone : c.pc worker = .done)
    (hothers : ∀ i, i ≠ worker → c.pc i = .idle ∨ (c.pc i = .stopJoin ∧ c.sh.finished = false)) :
    (∀ i, i ≠ worker → c.pc i = .idle) ∧ c.sh.stopReturned = true := by
  have htold := told h worker
  have hknows := htold.knows
  rw [hdone] at hknows
  have hidle : ∀ i, i ≠ worker → c.pc i = .idle := by
    intro i hi
    refine (hothers i hi).resolve_right ?_
    rintro ⟨-, hnot⟩
    rw [hknows.2] at hnot
    simp at hnot
  refine ⟨hidle, (called_inStop h (htold.called hknows.1)).resolve_right ?_⟩
  rintro ⟨i, hi⟩
  by_cases hw : i = worker
  · rw [hw, hdone] at hi
    simp [Pc.inStop] at hi
  · rw [hidle i hw] at hi
    simp [Pc.inStop] at hi

/-- The steps of a run. -/
abbrev Trace (ι T : Type*) := List (Edge (State ι T) (ι × Choice ι T))

variable {tr : Trace ι T}

/-- **Each `send` that is not refused pushes its record**, or has not got that far. -/
theorem sends_pushed [DecidableEq T] (h : (prog T worker).lts.Traced ok tr c) (payload : T) :
    (c.sh.accepted.map Message.payload).count payload + total (Pc.sending payload) c.pc +
        times (fun e => (e.before.pc e.label.1).refuses payload e.before.sh) tr =
      times (fun e => e.label.2.isSend payload) tr := by
  have hinit : total (Pc.sending payload) (prog T worker).start = 0 := by
    rw [total_eq_self worker fun i hi => by simp [prog, hi, Pc.sending]]
    simp [prog, Pc.sending]
  have hbalance := Prog.balanced (M := prog T worker)
    (fun s => (s.accepted.map Message.payload).count payload) (Pc.sending payload)
    (fun s p _ => (p.refuses payload s).toNat) (fun _ _ x => (x.isSend payload).toNat)
    (fun hw => by obtain ⟨rfl, rfl⟩ := wake_inv hw; rfl)
    (fun _ _ hs => (step_move hs).sending payload) h
  rw [hinit] at hbalance
  exact hbalance.trans (Nat.zero_add _)

/-- **The producer gets its calls done.** Whatever the schedule, a run takes at most twenty-four steps
for each `send` and `stop` called, ten for each wakeup before `stop_` is set, by the timer or
spurious, and four. In a state in which no thread can go on, with a timer that wakes up the worker,
every `send` and the `stop` have returned, and the worker too. -/
theorem producer_completes (h : (prog T worker).lts.Traced ok tr c) :
    tr.length ≤ 24 * times (fun e => e.label.2.isCall) tr +
      10 * times (fun e => e.label.2.isWakeUp && !e.before.sh.stop) tr + 4 ∧
    ((prog T worker).Stuck (Choice.onward true) c →
      c.pc worker = .done ∧ (∀ i, i ≠ worker → c.pc i = .idle) ∧ c.sh.stopReturned = true) := by
  constructor
  · have hcost := h.amortized (fun _ => 1)
      (fun e => 24 * e.label.2.isCall.toNat + 10 * (e.label.2.isWakeUp && !e.before.sh.stop).toNat)
      (potential worker) fun _ _ _ hc _ hs => potential_step hc hs
    have hinit : potential worker (prog T worker).lts.init = 4 := by
      have hzero : total Pc.left (prog T worker).start = 0 := by
        rw [total_eq_self worker fun i hi => by simp [prog, hi, Pc.left]]
        simp [prog, Pc.left]
      simp [potential, Prog.lts, hzero]
      simp [prog, construct, Pc.ahead]
    rw [spent_one, hinit, spent_add, spent_mul, spent_mul] at hcost
    dsimp only [times]
    omega
  · intro hstuck
    obtain ⟨hworker, hothers⟩ := stuck_rests h.reach hstuck
    have hdone : c.pc worker = .done := by simpa using hworker
    exact ⟨hdone, all_returned h.reach hdone hothers⟩

/-- Thread `t` sends a record, and the worker `w` handles it; `stop_` is set while that goes to sleep. -/
def sendThenStop (w t : ι) : List (ι × Choice ι ℕ) :=
  sendAlone t 7 ++ go w 11 ++ (t, .stop) :: (t, .go) :: (t, .notify none) :: go w 1

/-- The timer wakes up the worker, and all is done in twenty-nine steps. -/
theorem producer_completes_two : ∃ (tr : Trace (Fin 2) ℕ) (c : State (Fin 2) ℕ),
    (prog ℕ (0 : Fin 2)).lts.Traced (fun _ _ => True) tr c ∧ tr.length = 29 ∧
    tr.length ≤ 24 * 2 + 4 ∧ c.pc 0 = .done ∧ c.sh.stopReturned = true := by
  obtain ⟨tr, c, htr, hend⟩ := Lts.exists_traced (prog ℕ (0 : Fin 2)).lts (fun _ _ => True)
    (sendThenStop 0 1 ++ (0, .wakeUp) :: go 0 5 ++ go 1 1)
    (fun tr c => tr.length == 29 && times (fun e => e.label.2.isCall) tr == 2 &&
      times (fun e => e.label.2.isWakeUp && !e.before.sh.stop) tr == 0 &&
        decide (∀ i, (c.pc i).rests true c.sh = true)) (by decide)
  simp only [Bool.and_eq_true, beq_iff_eq, decide_eq_true_eq] at hend
  obtain ⟨⟨⟨hlen, hcalls⟩, hwakes⟩, hrest⟩ := hend
  obtain ⟨hle, hall⟩ := producer_completes htr
  rw [hcalls, hwakes] at hle
  obtain ⟨hdone, -, hreturned⟩ := hall (stuck_of_rests 0 hrest)
  exact ⟨tr, c, htr, hlen, hle, hdone, hreturned⟩

/-- While the worker sleeps and nobody else is in a `send`, all records are handled. -/
theorem asleep_handled (h : (prog T worker).lts.ReachIf ok c) (hasleep : c.pc worker = .asleep)
    (hothers : ∀ i, i ≠ worker → c.pc i = .idle ∨ (c.pc i = .stopJoin ∧ c.sh.finished = false)) :
    c.sh.handled = c.sh.accepted := by
  have hzero : total Pc.cover c.pc = 0 := by
    rw [total_eq_self worker fun i hi => ?_, hasleep]
    · rfl
    · rcases hothers i hi with hp | ⟨hp, -⟩ <;> rw [hp] <;> rfl
  have hcover := covered h ⟨worker, hasleep⟩
  rw [hzero] at hcover
  have hempty : c.sh.queue = [] := List.length_eq_zero_iff.1 (by omega)
  have hcons : c.sh.handled ++ c.sh.queue = c.sh.accepted := (fifo_run h).conserved
  rwa [hempty, List.append_nil] at hcons

/-- **A record does not wait for the timer.** In a state in which no thread can go on unless the timer
wakes up the worker, either the worker is asleep, every record pushed has been handled, and what has
not returned is at most the `stop`, or the worker and all calls have returned. And as many records of
a payload are pushed as `send` was called with it, but for those calls that found `stop_` set and
threw. -/
theorem no_timer_needed [DecidableEq T] (h : (prog T worker).lts.ReachIf ok c)
    (hstuck : (prog T worker).Stuck (Choice.onward false) c) :
    ((c.pc worker = .asleep ∧ c.sh.handled = c.sh.accepted ∧
      ∀ i, i ≠ worker → c.pc i = .idle ∨ (c.pc i = .stopJoin ∧ c.sh.stopCalled = true)) ∨
    (c.pc worker = .done ∧ (∀ i, i ≠ worker → c.pc i = .idle) ∧ c.sh.stopReturned = true)) ∧
    ∀ tr, (prog T worker).lts.Traced ok tr c → ∀ payload,
      (c.sh.accepted.map Message.payload).count payload +
          times (fun e => (e.before.pc e.label.1).refuses payload e.before.sh) tr =
        times (fun e => e.label.2.isSend payload) tr := by
  obtain ⟨hworker, hothers⟩ := stuck_rests h hstuck
  refine ⟨?_, fun tr htr payload => ?_⟩
  · rcases hworker with ⟨-, hasleep⟩ | hdone
    · refine .inl ⟨hasleep, asleep_handled h hasleep hothers, fun i hi => (hothers i hi).imp_right ?_⟩
      rintro ⟨hp, -⟩
      have hknows := (told h i).knows
      rw [hp] at hknows
      exact ⟨hp, hknows⟩
    · exact .inr ⟨hdone, all_returned h hdone hothers⟩
  · -- nobody is in a `send`
    have hzero : total (Pc.sending payload) c.pc = 0 := by
      rw [total_eq_self worker fun i hi => ?_]
      · rcases hworker with ⟨-, hp⟩ | hp <;> rw [hp] <;> rfl
      · rcases hothers i hi with hp | ⟨hp, -⟩ <;> rw [hp] <;> rfl
    have hsends := sends_pushed htr payload
    rw [hzero, Nat.add_zero] at hsends
    exact hsends

/-- The record is handled, and the `stop` waits for the timer. -/
theorem no_timer_needed_stop : ∃ (tr : Trace (Fin 2) ℕ) (c : State (Fin 2) ℕ),
    (prog ℕ (0 : Fin 2)).lts.Traced (fun _ _ => True) tr c ∧
    times (fun e => e.label.2.isSend 7) tr = 1 ∧
    (c.sh.accepted.map Message.payload).count 7 +
      times (fun e => (e.before.pc e.label.1).refuses 7 e.before.sh) tr = 1 ∧
    c.sh.stop = true ∧ c.pc 0 = .asleep ∧ c.sh.handled = c.sh.accepted := by
  obtain ⟨tr, c, htr, hend⟩ := Lts.exists_traced (prog ℕ (0 : Fin 2)).lts (fun _ _ => True)
    (sendThenStop 0 1)
    (fun tr c => times (fun e => e.label.2.isSend 7) tr == 1 && c.sh.stop && !c.sh.finished &&
      decide (∀ i, (c.pc i).rests false c.sh = true)) (by decide)
  simp only [Bool.and_eq_true, beq_iff_eq, decide_eq_true_eq, Bool.not_eq_true'] at hend
  obtain ⟨⟨⟨hsent, hstop⟩, hfinished⟩, hrest⟩ := hend
  obtain ⟨hends, hsends⟩ := no_timer_needed htr.reach (stuck_of_rests 0 hrest)
  rcases hends with ⟨hasleep, hhandled, -⟩ | ⟨hdone, -, -⟩
  · exact ⟨tr, c, htr, hsent, (hsends tr htr 7).trans hsent, hstop, hasleep, hhandled⟩
  · have hknows := (told htr.reach 0).knows
    rw [hdone] at hknows
    rw [hknows.2] at hfinished
    simp at hfinished

end Runs

end BackendTasks.AsyncKafkaProducer
