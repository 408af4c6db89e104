import BackendTasks.Proof.KafkaConsumer
import BackendTasks.Sched.Progress

/-!
# The consumer gets its calls done

The worker pushes what `consume` gives, with one notification for each message, and a
`poll_message` that sleeps is woken up by one, by the `stop`, or by its timer. `Act` lists the
steps of a thread in full.

* `consumer_completes`: the calls, the outcomes of `consume` and the wakeups bound the steps of a
  run; and when nobody can go on any more, every call and the worker have returned.
* `no_message_waits`: no notification is lost: when nothing more is consumed and nobody can go on but
  by the timer, a `poll_message` sleeps only if all messages have been taken out.
-/

namespace BackendTasks.AsyncKafkaConsumer

open Net Sched

variable {ι : Type*} {worker : ι} {s s' : Shared} {p p' q : Pc} {x : Choice ι} {e : Effect ι Unit}

namespace Choice

/-- A `poll_message` is called. -/
def isPoll : Choice ι → Bool
  | .poll => true
  | _ => false

/-- A `stop` is called. -/
def isStop : Choice ι → Bool
  | .stop => true
  | _ => false

/-- `consume` returns. -/
def isConsume : Choice ι → Bool
  | .consume _ => true
  | _ => false

/-- A wakeup without notification, by the timer or spurious. -/
def isWakeUp : Choice ι → Bool
  | .wakeUp => true
  | _ => false

/-- What a step is paid. -/
def pay (x : Choice ι) : ℕ :=
  6 * x.isPoll.toNat + 8 * x.isStop.toNat + 10 * x.isConsume.toNat + 5 * x.isWakeUp.toNat

/-- The thread goes on with what it is doing; `fed` says whether `consume` returns, and
whether one that sleeps may be woken up without notification. -/
def onward (fed : Bool) : Choice ι → Bool
  | .poll | .stop => false
  | .consume _ | .wakeUp => fed
  | _ => true

end Choice

theorem ready_iff : s.ready = true ↔ s.queue ≠ [] ∨ s.stop = true := by
  simp [Shared.ready]

/-- The steps of a thread. -/
inductive Act (s : Shared) : Pc → Choice ι → Shared → Pc → Effect ι Unit → Prop
  | callPoll : Act s .idle .poll s .pollTest .tau
  | pollRefuse : s.stop = true → Act s .pollTest .go s .idle .tau
  | pollGo : s.stop = false → Act s .pollTest .go s .pollLock .tau
  | pollLock : Act s .pollLock .go s .pollPred .acquire
  | pollReady : s.queue ≠ [] ∨ s.stop = true → Act s .pollPred .go s .pollTake .tau
  | pollUnready : s.queue = [] → Act s .pollPred .go s .pollWait .tau
  | pollSleep : Act s .pollWait .go s .pollAsleep .release
  | pollWake : Act s .pollAsleep .wakeUp s (.pollWoken false) .tau
  | pollRelock {b} : Act s (.pollWoken b) .go s .pollPred .acquire
  | pollExpire {b} : Act s (.pollWoken b) .expire s .pollLast .acquire
  | pollLast : s.queue ≠ [] ∨ s.stop = true → Act s .pollLast .go s .pollTake .tau
  | pollLate : s.queue = [] → Act s .pollLast .go s (.pollExit none) .tau
  | pollTake {msg rest} : s.queue = msg :: rest →
      Act s .pollTake .go { s with queue := rest, taken := s.taken ++ [msg] } (.pollExit (some msg)) .tau
  | pollEmpty : s.queue = [] → Act s .pollTake .go s (.pollExit none) .tau
  | pollExit {r} : Act s (.pollExit r) .go s .idle .release
  | stopped : s.stop = true → Act s .test .go { s with finished := true } .done .tau
  | running : s.stop = false → Act s .test .go s .consume .tau
  | message {outcome payload} : outcome.payload = some payload →
      Act s .consume (.consume outcome) { s with outcomes := s.outcomes ++ [outcome] } (.lock payload) .tau
  | noMessage {outcome} : outcome.payload = none →
      Act s .consume (.consume outcome) { s with outcomes := s.outcomes ++ [outcome] } .test .tau
  | lock {payload} : Act s (.lock payload) .go s (.push payload) .acquire
  | push {payload} : Act s (.push payload) .go
      { s with queue := s.queue ++ [payload], accepted := s.accepted ++ [payload] } .unlock .tau
  | unlock : Act s .unlock .go s .notify .release
  | notify {j} : Act s .notify (.notify j) s .test (.notifyOne () j)
  | stopAgain : s.stopReturned = true → Act s .idle .stop s .idle .tau
  | callStop : s.stopCalled = false → Act s .idle .stop { s with stopCalled := true } .stopSet .tau
  | stopSet : Act s .stopSet .go { s with stop := true } .stopNotify .tau
  | stopNotify {j} : Act s .stopNotify (.notify j) s .stopJoin (.notifyOne () j)
  | stopReturn : s.finished = true → Act s .stopJoin .go { s with stopReturned := true } .idle .tau

theorem step_act (h : step s p x = some (s', p', e)) : Act s p x s' p' e := by
  cases p <;> cases x <;> simp only [step, reduceCtorEq] at h
  case pollTest.go =>
    split at h
    · rename_i hs; cases h; exact .pollRefuse hs
    · rename_i hs; cases h; exact .pollGo (by simpa using hs)
  case pollPred.go =>
    split at h
    · rename_i hr; cases h; exact .pollReady (ready_iff.1 hr)
    · rename_i hr; cases h
      rw [ready_iff, not_or, not_not] at hr
      exact .pollUnready hr.1
  case pollLast.go =>
    split at h
    · rename_i hr; cases h; exact .pollLast (ready_iff.1 hr)
    · rename_i hr; cases h
      rw [ready_iff, not_or, not_not] at hr
      exact .pollLate hr.1
  case pollTake.go =>
    split at h
    · rename_i hq; cases h; exact .pollTake hq
    · rename_i hq; cases h; exact .pollEmpty hq
  case test.go =>
    split at h
    · rename_i hs; cases h; exact .stopped hs
    · rename_i hs; cases h; exact .running (by simpa using hs)
  case consume.consume =>
    split at h
    · rename_i hp; cases h; exact .message hp
    · rename_i hp; cases h; exact .noMessage hp
  case idle.stop =>
    split at h
    · rename_i hr; cases h; exact .stopAgain hr
    · split at h
      · simp at h
      · rename_i hc; cases h; exact .callStop (by simpa using hc)
  case stopJoin.go =>
    split at h
    · rename_i hf; cases h; exact .stopReturn hf
    · simp at h
  all_goals cases h; constructor

/-! ## What a step takes -/

/-- The steps that a thread still takes, together with those of the threads that it wakes up, until
`consume` is called again, and its call returns or sleeps. -/
def Pc.left : Pc → ℕ
  | .pollTest => 5
  | .pollLock | .pollWoken _ => 4
  | .pollPred | .pollLast => 3
  | .pollTake => 2
  | .pollWait | .pollExit _ => 1
  | .lock _ => 9
  | .push _ => 8
  | .unlock => 7
  | .notify => 6
  | .test => 1
  | .stopSet => 7
  | .stopNotify => 6
  | .stopJoin => 1
  | _ => 0

theorem left_act [Fintype ι] (ha : Act s p x s' p' e) : 1 + p'.left + 0 + 4 * e.reach ≤ p.left + 0 + x.pay := by
  cases ha with
  | notify | stopNotify =>
    rename_i j
    cases j <;> simp only [Pc.left, Effect.reach] <;> omega
  | _ =>
    simp only [Pc.left, Effect.reach, Choice.pay, Choice.isPoll, Choice.isStop, Choice.isConsume,
      Choice.isWakeUp, Bool.toNat_true, Bool.toNat_false]
    omega

/-! ## At rest -/

/-- The control points at which a thread holds the mutex. -/
def Pc.inside : Pc → Bool
  | .pollPred | .pollWait | .pollLast | .pollTake | .pollExit _ => true
  | .push _ | .unlock => true
  | _ => false

/-- A thread that cannot go on: it is in no call, waits for the worker or has returned, or it sleeps or
waits for a message and neither comes. -/
def Pc.rests (fed : Bool) (s : Shared) : Pc → Bool
  | .idle | .done => true
  | .pollAsleep | .consume => !fed
  | .stopJoin => !s.finished
  | _ => false

/-- Outside the critical sections a step leaves the queue alone. -/
theorem Act.frame (ha : Act s p x s' p' e) (h : p.inside = false) : s'.queue = s.queue := by
  cases ha with
  | push | pollTake => simp [Pc.inside] at h
  | _ => rfl

/-- What once holds of the flags stays true. -/
theorem Act.mono (ha : Act s p x s' p' e) :
    (s.stop = true → s'.stop = true) ∧ (s.stopCalled = true → s'.stopCalled = true) ∧
      (s.finished = true → s'.finished = true) := by
  cases ha with
  | stopped => exact ⟨id, id, fun _ => rfl⟩
  | callStop => exact ⟨id, fun _ => rfl, id⟩
  | stopSet => exact ⟨fun _ => rfl, id, id⟩
  | _ => exact ⟨id, id, id⟩

section

variable [DecidableEq ι]

theorem locked (worker : ι) : (prog worker).Locked Pc.inside where
  start i := by simp only [prog]; split <;> rfl
  step h := by
    cases step_act h with
    | _ => first | rfl | exact ⟨rfl, rfl⟩
  wake h := by
    obtain ⟨rfl, rfl⟩ := wake_inv h
    rfl

variable [Fintype ι] {c : State ι} {fed : Bool}

omit [Fintype ι] in
/-- A thread that is not at rest goes on, if it holds the mutex or the mutex is free. -/
theorem goes_on (t : ι) (hrest : (c.pc t).rests fed c.sh = false)
    (hmutex : (c.pc t).inside = true ∨ c.owner = none) :
    ∃ x s p e, Choice.onward fed x = true ∧ step c.sh (c.pc t) x = some (s, p, e) ∧
      (prog worker).Enabled c t e := by
  generalize c.pc t = p at hrest hmutex
  have hfree : p.inside = false → c.owner = none := by
    intro hout
    exact hmutex.resolve_left (by rw [hout]; decide)
  cases p with
  | idle | done => simp [Pc.rests] at hrest
  | pollAsleep =>
    have hfed : fed = true := by simpa [Pc.rests] using hrest
    exact ⟨.wakeUp, _, _, _, hfed, rfl, trivial⟩
  | consume =>
    have hfed : fed = true := by simpa [Pc.rests] using hrest
    exact ⟨.consume .timedOut, _, _, _, hfed, rfl, trivial⟩
  | pollLock => exact ⟨.go, _, _, _, rfl, rfl, hfree rfl⟩
  | pollWoken b => exact ⟨.go, _, _, _, rfl, rfl, hfree rfl⟩
  | lock payload => exact ⟨.go, _, _, _, rfl, rfl, hfree rfl⟩
  | notify =>
    obtain ⟨pick, hpick⟩ := Prog.exists_pick (prog worker) c t ()
    exact ⟨.notify pick, _, _, _, rfl, rfl, hpick⟩
  | stopNotify =>
    obtain ⟨pick, hpick⟩ := Prog.exists_pick (prog worker) c t ()
    exact ⟨.notify pick, _, _, _, rfl, rfl, hpick⟩
  | stopJoin =>
    have hfin : c.sh.finished = true := by simpa [Pc.rests] using hrest
    exact ⟨.go, _, _, .tau, rfl, by rw [step, if_pos hfin], trivial⟩
  | pollTest | pollPred | pollLast | pollTake | test =>
    refine ⟨.go, ?_⟩
    simp only [step]
    split <;> exact ⟨_, _, _, rfl, rfl, trivial⟩
  | _ => exact ⟨.go, _, _, _, rfl, rfl, trivial⟩

/-- Of threads at rest none goes on. -/
theorem stuck_of_rests (worker : ι) (hrest : ∀ i, (c.pc i).rests fed c.sh = true) :
    (prog worker).Stuck (Choice.onward fed) c := by
  intro t x hx
  have ht := hrest t
  have hs : step c.sh (c.pc t) x = none := by
    generalize c.pc t = p at ht
    cases p with
    | idle | done => cases x <;> first | rfl | simp [Choice.onward] at hx
    | pollAsleep | consume =>
      have hnone : fed = false := by simpa [Pc.rests] using ht
      rw [hnone] at hx
      cases x <;> first | rfl | simp [Choice.onward] at hx
    | stopJoin =>
      have hnot : c.sh.finished = false := by simpa [Pc.rests] using ht
      cases x <;> simp [step, hnot]
    | _ => simp [Pc.rests] at ht
  show (prog worker).next c (t, x) = none
  unfold Prog.next
  rw [show (prog worker).step t c.sh (c.pc t) x = none from hs]
  rfl

end

/-! ## How far a `stop` is -/

/-- In `stop`. -/
def Pc.inStop : Pc → Bool
  | .stopSet | .stopNotify | .stopJoin => true
  | _ => false

/-- A `stop` that was called is being worked on until it has returned. -/
theorem inStop_act (ha : Act s p x s' p' e) :
    (s'.stopReturned = true ∨ (p.inStop = true → p'.inStop = true)) ∧
      (s.stopReturned = true → s'.stopReturned = true) ∧
      (s'.stopCalled = true → s.stopCalled = true ∨ p'.inStop = true) := by
  cases ha with
  | callStop => exact ⟨.inr nofun, id, fun _ => .inr rfl⟩
  | stopReturn => exact ⟨.inl rfl, fun _ => rfl, .inl⟩
  | stopSet | stopNotify => exact ⟨.inr fun _ => rfl, id, .inl⟩
  | _ => exact ⟨.inr nofun, id, .inl⟩

/-- What a thread knows of `stop_` and of the queue. -/
def Knows (s : Shared) : Pc → Prop
  | .pollWait => s.queue = []
  | .done => s.stop = true ∧ s.finished = true
  | .stopSet | .stopNotify | .stopJoin => s.stopCalled = true
  | _ => True

/-- `stop_` is set by a `stop` only, and what a thread knows holds. -/
structure Told (s : Shared) (p : Pc) : Prop where
  called : s.stop = true → s.stopCalled = true
  knows : Knows s p

theorem Told.own (h : Told s p) (ha : Act s p x s' p' e) : Told s' p' := by
  obtain ⟨hcalled, hknows⟩ := h
  cases ha with
  | pollUnready hq => exact ⟨hcalled, hq⟩
  | stopped hstop => exact ⟨hcalled, hstop, rfl⟩
  | callStop => exact ⟨fun _ => rfl, rfl⟩
  | stopSet => exact ⟨fun _ => hknows, hknows⟩
  | stopNotify => exact ⟨hcalled, hknows⟩
  | _ => exact ⟨hcalled, trivial⟩

/-- A step of another thread. -/
theorem Told.other (hp : Told s p) (h : Told s q) (ha : Act s p x s' p' e)
    (hexcl : q.inside = true → p.inside = false) : Told s' q := by
  obtain ⟨hstop, hcalled, hfinished⟩ := ha.mono
  refine ⟨(hp.own ha).called, ?_⟩
  have hknows := h.knows
  cases q with
  | pollWait =>
    rw [Knows, ha.frame (hexcl rfl)]
    exact hknows
  | done => exact ⟨hstop hknows.1, hfinished hknows.2⟩
  | stopSet | stopNotify | stopJoin => exact hcalled hknows
  | _ => trivial

/-! ## One notification for each message -/

/-- A message in the queue is covered by the worker, when it has still to notify, and by a
`poll_message` that is going to look into the queue. -/
def Pc.cover : Pc → ℕ
  | .unlock | .notify => 1
  | .pollWoken _ | .pollPred | .pollLast | .pollTake => 1
  | _ => 0

theorem cover_act (ha : Act s p x s' p' e) (h : Told s p) :
    s'.queue.length = 0 ∨ (wake () p' = none ∧
      s'.queue.length + p.cover ≤ s.queue.length + p'.cover + Prog.charge () e) := by
  cases ha with
  | push =>
    refine .inr ⟨rfl, ?_⟩
    simp only [Pc.cover, Prog.charge, List.length_append, List.length_singleton]
    omega
  | pollTake hq =>
    refine .inr ⟨rfl, ?_⟩
    simp only [hq, Pc.cover, Prog.charge, List.length_cons]
    omega
  | pollSleep =>
    have hempty : s.queue = [] := h.knows
    exact .inl (by rw [hempty]; rfl)
  | pollUnready hq | pollLate hq | pollEmpty hq => exact .inl (by rw [hq]; rfl)
  | _ => exact .inr ⟨rfl, by simp only [Pc.cover, Prog.charge, if_true]; omega⟩

/-! ## Every run -/

/-- `k` steps of thread `t` in a row. -/
def go (t : ι) (k : ℕ) : List (ι × Choice ι) := List.replicate k (t, .go)

/-- The steps of a run. -/
abbrev Trace (ι : Type*) := List (Edge (State ι) (ι × Choice ι))

section Runs

variable [DecidableEq ι] [Fintype ι] {c : State ι} {fed : Bool} {tr : Trace ι}

theorem told (h : (prog worker).lts.Reach c) : ∀ i, Told c.sh (c.pc i) := by
  refine Prog.local_invariant (locked worker) Told (fun i => ⟨nofun, ?_⟩) ?_ ?_ h
  · simp only [prog]
    split <;> trivial
  · intro c t x s p e _ _ hs hL
    exact hL.own (step_act hs)
  · intro c t x s p e i _ _ hs hp _ hexcl hL
    have hother := hp.other hL (step_act hs) hexcl
    rcases (prog worker).woken_cases e i (c.pc i) with hsame | ⟨v, hv⟩
    · rw [hsame]
      exact hother
    · obtain ⟨-, hv⟩ := wake_inv hv
      rw [hv]
      exact ⟨hother.called, trivial⟩

/-- A `stop` that was called has returned, or some thread is in it. -/
theorem called_inStop (h : (prog worker).lts.Reach c) (hcalled : c.sh.stopCalled = true) :
    c.sh.stopReturned = true ∨ ∃ i, (c.pc i).inStop = true :=
  Prog.begun_ends (M := prog worker) Shared.stopCalled Shared.stopReturned Pc.inStop rfl
    (fun hw => by obtain ⟨rfl, rfl⟩ := wake_inv hw; rfl) (fun hs => inStop_act (step_act hs)) h hcalled

/-- While some `poll_message` is asleep, the messages in the queue are covered. -/
theorem covered (h : (prog worker).lts.Reach c) (hi : ∃ i, c.pc i = .pollAsleep) :
    c.sh.queue.length ≤ total Pc.cover c.pc := by
  obtain ⟨i, hi⟩ := hi
  refine Prog.notify_one_suffices (M := prog worker) () (fun s => s.queue.length) Pc.cover
    (fun i => ?_) ?_ ?_ ?_ h ⟨i, by rw [hi]; rfl⟩
  · simp only [prog]
    split <;> rfl
  · intro u q q' hq
    obtain ⟨rfl, rfl⟩ := wake_inv hq
    exact ⟨Nat.zero_le _, rfl⟩
  · intro q q' hq
    obtain ⟨rfl, rfl⟩ := wake_inv hq
    exact Nat.one_pos
  · intro c t x s p e hc _ hs
    exact cover_act (step_act hs) (told hc t)

/-- **Where everybody is when nobody can go on.** -/
theorem stuck_rests (h : (prog worker).lts.Reach c)
    (hstuck : (prog worker).Stuck (Choice.onward fed) c) :
    ((fed = false ∧ c.pc worker = .consume) ∨ c.pc worker = .done) ∧
      ∀ i, i ≠ worker → c.pc i = .idle ∨ (fed = false ∧ c.pc i = .pollAsleep) ∨
        (c.pc i = .stopJoin ∧ c.sh.finished = false) := by
  obtain ⟨-, hrest⟩ := Prog.stuck_rests (Pc.rests fed c.sh) (locked worker)
    (fun p hin => by cases p <;> simp [Pc.inside, Pc.rests] at hin ⊢) goes_on h hstuck
  constructor
  · have hworker := (isWorker_iff h worker).2 rfl
    have hr := hrest worker
    generalize c.pc worker = p at hworker hr
    cases p with
    | consume => exact .inl ⟨by simpa [Pc.rests] using hr, rfl⟩
    | done => exact .inr rfl
    | _ => simp [Pc.rests, Pc.isWorker] at hworker hr
  · intro i hi
    have hout := mt (isWorker_iff h i).1 hi
    have hr := hrest i
    generalize c.pc i = p at hout hr
    cases p with
    | idle => exact .inl rfl
    | pollAsleep => exact .inr (.inl ⟨by simpa [Pc.rests] using hr, rfl⟩)
    | stopJoin => exact .inr (.inr ⟨rfl, by simpa [Pc.rests] using hr⟩)
    | _ => simp [Pc.rests, Pc.isWorker] at hout hr

/-- Once the worker has returned, so has the `stop`. -/
theorem stop_returned (h : (prog worker).lts.Reach c) (hdone : c.pc worker = .done)
    (hothers : ∀ i, i ≠ worker → (c.pc i).inStop = true → c.sh.finished = false) :
    (∀ i, (c.pc i).inStop = false) ∧ c.sh.stopReturned = true := by
  have htold := told h worker
  have hknows := htold.knows
  rw [hdone] at hknows
  have hnone : ∀ i, (c.pc i).inStop = false := by
    intro i
    by_cases hi : i = worker
    · rw [hi, hdone]
      rfl
    · by_contra hin
      rw [Bool.not_eq_false] at hin
      have hnot := hothers i hi hin
      rw [hknows.2] at hnot
      simp at hnot
  refine ⟨hnone, (called_inStop h (htold.called hknows.1)).resolve_right ?_⟩
  rintro ⟨i, hi⟩
  rw [hnone i] at hi
  simp at hi

/-- **The consumer gets its calls done.** Whatever the schedule, a run takes at most six steps for each
`poll_message`, eight for each `stop`, ten for each outcome of `consume`, five for each wakeup by the
timer or spurious, and one. In a state in which no thread can go on, with a timer that wakes up who
sleeps and a `consume` that returns, every `poll_message` and the `stop` have returned, and the worker
too. -/
theorem consumer_completes (h : (prog worker).lts.Traced (fun _ _ => True) tr c) :
    tr.length ≤ 6 * times (fun e => e.label.2.isPoll) tr + 8 * times (fun e => e.label.2.isStop) tr +
      10 * times (fun e => e.label.2.isConsume) tr + 5 * times (fun e => e.label.2.isWakeUp) tr + 1 ∧
    ((prog worker).Stuck (Choice.onward true) c →
      c.pc worker = .done ∧ (∀ i, i ≠ worker → c.pc i = .idle) ∧ c.sh.stopReturned = true) := by
  constructor
  · have hpaid : tr.length ≤ total Pc.left (prog worker).start + 0 +
        spent (fun e => e.label.2.pay) tr :=
      Prog.steps_le Pc.left (fun _ => 0) 4 Choice.pay
        (fun hq => by obtain ⟨rfl, rfl⟩ := wake_inv hq; exact Nat.le_refl 4)
        (fun _ _ hs => left_act (step_act hs)) h
    have hinit : total Pc.left (prog worker).start = 1 := by
      rw [total_eq_self worker fun i hi => by simp [prog, hi, Pc.left]]
      simp [prog, Pc.left]
    simp only [Choice.pay, spent_add, spent_mul, hinit] at hpaid
    dsimp only [times]
    omega
  · intro hstuck
    obtain ⟨hworker, hothers⟩ := stuck_rests h.reach hstuck
    have hdone : c.pc worker = .done := by simpa using hworker
    obtain ⟨hnone, hreturned⟩ := stop_returned h.reach hdone fun i hi hin => by
      rcases hothers i hi with hp | ⟨-, hp⟩ | ⟨-, hnot⟩
      · rw [hp] at hin
        simp [Pc.inStop] at hin
      · rw [hp] at hin
        simp [Pc.inStop] at hin
      · exact hnot
    refine ⟨hdone, fun i hi => ?_, hreturned⟩
    rcases hothers i hi with hp | ⟨hnot, -⟩ | ⟨hp, -⟩
    · exact hp
    · simp at hnot
    · have hin := hnone i
      rw [hp] at hin
      simp [Pc.inStop] at hin

/-- Thread `t` sleeps in `poll_message` until the worker `w` has pushed a message, and takes it. -/
def pollOne (w t : ι) : List (ι × Choice ι) :=
  (t, .poll) :: go t 4 ++ go w 1 ++ (w, .consume (.message (some [5]))) :: go w 3 ++
    (w, .notify (some t)) :: go t 4

/-- A `poll_message` and a `stop` take twenty steps. -/
theorem consumer_completes_two : ∃ (tr : Trace (Fin 2)) (c : State (Fin 2)),
    (prog (0 : Fin 2)).lts.Traced (fun _ _ => True) tr c ∧ c.sh.taken = [[5]] ∧ tr.length = 20 ∧
    tr.length ≤ 6 + 8 + 10 + 1 ∧ c.pc 0 = .done ∧ c.sh.stopReturned = true := by
  obtain ⟨tr, c, htr, hend⟩ := Lts.exists_traced (prog (0 : Fin 2)).lts (fun _ _ => True)
    (pollOne 0 1 ++ (1, .stop) :: go 1 1 ++ (1, .notify none) :: go 0 1 ++ go 1 1)
    (fun tr c => c.sh.taken == [[5]] && tr.length == 20 && times (fun e => e.label.2.isPoll) tr == 1 &&
      times (fun e => e.label.2.isStop) tr == 1 && times (fun e => e.label.2.isConsume) tr == 1 &&
        times (fun e => e.label.2.isWakeUp) tr == 0 && decide (∀ i, (c.pc i).rests true c.sh = true))
    (by decide)
  simp only [Bool.and_eq_true, beq_iff_eq, decide_eq_true_eq] at hend
  obtain ⟨⟨⟨⟨⟨⟨htaken, hlen⟩, hpolls⟩, hstops⟩, hconsumed⟩, hwakes⟩, hrest⟩ := hend
  obtain ⟨hle, hall⟩ := consumer_completes htr
  rw [hpolls, hstops, hconsumed, hwakes] at hle
  obtain ⟨hdone, -, hreturned⟩ := hall (stuck_of_rests 0 hrest)
  exact ⟨tr, c, htr, htaken, hlen, hle, hdone, hreturned⟩

/-- **No message waits while a `poll_message` sleeps.** In a state in which no thread can go on unless
`consume` or the timer lets it, each call that has not returned is a `poll_message` that sleeps, or
the `stop`, which waits for the worker in `consume`; and if one sleeps, the messages taken out are
all that were consumed. -/
theorem no_message_waits (h : (prog worker).lts.Reach c)
    (hstuck : (prog worker).Stuck (Choice.onward false) c) :
    (∀ i, i ≠ worker → c.pc i = .idle ∨ c.pc i = .pollAsleep ∨
      (c.pc i = .stopJoin ∧ c.pc worker = .consume)) ∧
    ((∃ i, c.pc i = .pollAsleep) → c.sh.taken = c.sh.outcomes.filterMap Outcome.payload) := by
  obtain ⟨hworker, hothers⟩ := stuck_rests h hstuck
  constructor
  · intro i hi
    rcases hothers i hi with hp | ⟨-, hp⟩ | ⟨hp, hnot⟩
    · exact .inl hp
    · exact .inr (.inl hp)
    · refine .inr (.inr ⟨hp, ?_⟩)
      rcases hworker with ⟨-, hw⟩ | hw
      · exact hw
      · have hknows := (told h worker).knows
        rw [hw] at hknows
        rw [hknows.2] at hnot
        simp at hnot
  · intro hasleep
    have hzero : total Pc.cover c.pc = 0 := by
      rw [total_eq_self worker fun i hi => ?_]
      · rcases hworker with ⟨-, hp⟩ | hp <;> rw [hp] <;> rfl
      · rcases hothers i hi with hp | ⟨-, hp⟩ | ⟨hp, -⟩ <;> rw [hp] <;> rfl
    have hcover := covered h hasleep
    rw [hzero] at hcover
    have hempty : c.sh.queue = [] := List.length_eq_zero_iff.1 (Nat.le_zero.1 hcover)
    have hcons : c.sh.taken ++ c.sh.queue = c.sh.accepted := (fifo_run h).conserved
    have hacc : c.sh.accepted ++ (c.pc worker).held = _ := accounted h
    have hheld : (c.pc worker).held = [] := by
      rcases hworker with ⟨-, hp⟩ | hp <;> rw [hp] <;> rfl
    rw [hempty, List.append_nil] at hcons
    rw [hheld, List.append_nil, ← hcons] at hacc
    exact hacc

/-- The second `poll_message` sleeps, and the message was taken by the first. -/
theorem no_message_waits_one : ∃ c : State (Fin 2), (prog (0 : Fin 2)).lts.Reach c ∧
    c.pc 1 = .pollAsleep ∧ c.sh.taken = [[5]] ∧
    c.sh.taken = c.sh.outcomes.filterMap Outcome.payload := by
  obtain ⟨c, hc, hend⟩ := Lts.exists_reachIf (prog (0 : Fin 2)).lts (fun _ _ => True)
    (pollOne 0 1 ++ (1, .poll) :: go 1 4 ++ go 0 1)
    (fun c => c.pc 1 == .pollAsleep && c.sh.taken == [[5]] &&
      decide (∀ i, (c.pc i).rests false c.sh = true)) (by decide)
  simp only [Bool.and_eq_true, beq_iff_eq, decide_eq_true_eq] at hend
  obtain ⟨⟨hasleep, htaken⟩, hrest⟩ := hend
  obtain ⟨-, hall⟩ := no_message_waits hc (stuck_of_rests 0 hrest)
  exact ⟨c, hc, hasleep, htaken, hall ⟨1, hasleep⟩⟩

end Runs

end BackendTasks.AsyncKafkaConsumer
