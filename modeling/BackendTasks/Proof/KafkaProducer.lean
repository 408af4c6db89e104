import BackendTasks.Spec.AsyncKafkaProducer
import BackendTasks.Sched.Fifo

/-!
# Stopping the producer

The worker drains the queue when it is behind `wait_for`, and looks at `stop_` there and, with the
mutex free, at its loop test. So what is pushed between a drain and a loop test that finds `stop_`
set stays in the queue.

* `stop_handles`: along runs in which `stop` sets `stop_` while the worker is between a drain and
  its loop test only if every record of a completed `send` is handled, they all are when `stop`
  returns; from any step that does otherwise, `stop` can return with one of them in the queue.
* `record_left`: such a run.
-/

namespace BackendTasks.AsyncKafkaProducer

open Sched

variable {ι T : Type*} {worker : ι} {s s' : Shared T} {p p' q : Pc T} {x : Choice ι T}
  {e : Effect ι Unit}

/-- Every record of a `send` that returned before `stop` was called is handled. -/
def Covered (s : Shared T) : Prop := ∀ k ∈ s.due, k < s.handled.length

instance (s : Shared T) : Decidable (Covered s) :=
  inferInstanceAs (Decidable (∀ k ∈ s.due, k < s.handled.length))

/-- At `stop_ = true`. -/
def Pc.stops : Pc T → Bool
  | .stopSet => true
  | _ => false

/-- Between a drain and the next loop test. -/
def Pc.past : Pc T → Bool
  | .poll | .test => true
  | _ => false

/-- The step is not a `stop_ = true` while the worker is past its drain and a record waits. -/
def Timely (c : State ι T) (act : ι × Choice ι T) : Prop :=
  (c.pc act.1).stops = true → ∀ i, (c.pc i).past = true → Covered c.sh

instance [Fintype ι] (c : State ι T) (act : ι × Choice ι T) : Decidable (Timely c act) :=
  inferInstanceAs
    (Decidable ((c.pc act.1).stops = true → ∀ i, (c.pc i).past = true → Covered c.sh))

theorem ready_iff : s.ready = true ↔ s.queue ≠ [] ∨ s.stop = true := by
  simp [Shared.ready]

/-- The steps of a thread. -/
inductive Move (s : Shared T) :
    Pc T → Choice ι T → Shared T → Pc T → Effect ι Unit → Prop
  | callSend {v} : Move s .idle (.send v) s (.sendTest v) .tau
  | sendRefuse {v} : s.stop = true → Move s (.sendTest v) .go s .idle .tau
  | sendGo {v} : s.stop = false → Move s (.sendTest v) .go s (.sendProduce v) .tau
  | produce {v err} : Move s (.sendProduce v) (.produce err) s (.sendLock ⟨v, err⟩) .tau
  | sendLock {msg} : Move s (.sendLock msg) .go s (.sendPush msg) .acquire
  | sendPush {msg} : Move s (.sendPush msg) .go (s.push msg) (.sendUnlock s.accepted.length) .tau
  | sendUnlock {k} : Move s (.sendUnlock k) .go s (.sendNotify k) .release
  | sendNotify {k j} : Move s (.sendNotify k) (.notify j) (s.complete k) .idle (.notifyOne () j)
  | stopped : s.stop = true → Move s .test .go s .flush .tau
  | running : s.stop = false → Move s .test .go s .lock .tau
  | lock : Move s .lock .go s .pred .acquire
  | ready : s.queue ≠ [] ∨ s.stop = true → Move s .pred .go s .check .tau
  | unready : s.queue = [] → s.stop = false → Move s .pred .go s .wait .tau
  | sleep : Move s .wait .go s .asleep .release
  | wake : Move s .asleep .wakeUp s (.woken false) .tau
  | relock {b} : Move s (.woken b) .go s .pred .acquire
  | expire {b} : Move s (.woken b) .expire s .check .acquire
  | drained : s.stop = true → s.queue = [] → Move s .check .go s .leave .tau
  | work : s.stop = false ∨ s.queue ≠ [] → Move s .check .go s .drain .tau
  | leave : Move s .leave .go s .flush .release
  | take {msg rest} : s.queue = msg :: rest →
      Move s .drain .go { s with queue := rest, handled := s.handled ++ [msg] } .drain .tau
  | empty : s.queue = [] → Move s .drain .go s .unlock .tau
  | unlock : Move s .unlock .go s .poll .release
  | poll : Move s .poll .go s .test .tau
  | finish : Move s .flush .go { s with finished := true } .done .tau
  | stopAgain : s.stopReturned = true → Move s .idle .stop s .idle .tau
  | callStop : s.stopCalled = false →
      Move s .idle .stop { s with stopCalled := true } .stopSet .tau
  | stopSet : Move s .stopSet .go { s with stop := true } .stopNotify .tau
  | stopNotify {j} : Move s .stopNotify (.notify j) s .stopJoin (.notifyOne () j)
  | stopReturn : s.finished = true →
      Move s .stopJoin .go { s with stopReturned := true } .idle .tau

theorem step_move (h : step s p x = some (s', p', e)) : Move s p x s' p' e := by
  cases p <;> cases x <;> simp only [step, reduceCtorEq] at h
  case sendTest.go =>
    split at h
    · rename_i hs; cases h; exact .sendRefuse hs
    · rename_i hs; cases h; exact .sendGo (by simpa using hs)
  case test.go =>
    split at h
    · rename_i hs; cases h; exact .stopped hs
    · rename_i hs; cases h; exact .running (by simpa using hs)
  case pred.go =>
    split at h
    · rename_i hr; cases h; exact .ready (ready_iff.1 hr)
    · rename_i hr; cases h
      rw [ready_iff, not_or, not_not, Bool.not_eq_true] at hr
      exact .unready hr.1 hr.2
  case check.go =>
    split at h
    · rename_i hd; cases h
      rw [Bool.and_eq_true, List.isEmpty_iff] at hd
      exact .drained hd.1 hd.2
    · rename_i hd; cases h
      rw [Bool.and_eq_true, List.isEmpty_iff, not_and_or, Bool.not_eq_true] at hd
      exact .work hd
  case drain.go =>
    split at h
    · rename_i hq; cases h; exact .take hq
    · rename_i hq; cases h; exact .empty hq
  case idle.stop =>
    split at h
    · rename_i hr; cases h; exact .stopAgain hr
    · split at h
      · simp at h
      · rename_i hc; cases h; exact .callStop (by simpa using hc)
  case stopJoin.go =>
    split at h
    · rename_i hf; cases h; exact .stopReturn hf
    · simp at h
  all_goals cases h; constructor

/-! ## What a step keeps -/

/-- The control points at which a thread holds the mutex. -/
def Pc.inside : Pc T → Bool
  | .sendPush _ | .sendUnlock _ => true
  | .pred | .wait | .check | .leave | .drain | .unlock => true
  | _ => false

/-- What a notification does to a thread. -/
theorem wake_inv {v : Unit} {q' : Pc T} (h : wake v q = some q') :
    q = .asleep ∧ q' = .woken true := by
  cases q <;> simp only [wake, reduceCtorEq, Option.some.injEq] at h
  exact ⟨rfl, h.symm⟩

/-- Outside the critical sections a step leaves the queue alone. -/
theorem Move.frame (hm : Move s p x s' p' e) (h : p.inside = false) : s'.queue = s.queue := by
  cases hm with
  | sendPush | take => simp [Pc.inside] at h
  | sendNotify => rw [Shared.complete]; split <;> rfl
  | _ => rfl

/-- What once holds of the flags stays true, and records are never forgotten. -/
theorem Move.mono (hm : Move s p x s' p' e) :
    (s.stop = true → s'.stop = true) ∧ (s.stopCalled = true → s'.stopCalled = true) ∧
      s.accepted.length ≤ s'.accepted.length ∧ s.handled.length ≤ s'.handled.length := by
  cases hm with
  | sendPush => exact ⟨id, id, by simp [Shared.push], Nat.le_refl _⟩
  | sendNotify =>
    rw [Shared.complete]
    split <;> exact ⟨id, id, Nat.le_refl _, Nat.le_refl _⟩
  | take => exact ⟨id, id, Nat.le_refl _, by simp⟩
  | callStop => exact ⟨id, fun _ => rfl, Nat.le_refl _, Nat.le_refl _⟩
  | stopSet => exact ⟨fun _ => rfl, id, Nat.le_refl _, Nat.le_refl _⟩
  | _ => exact ⟨id, id, Nat.le_refl _, Nat.le_refl _⟩

/-- A record is due from the return of its `send` on, if `stop` has not been called. -/
theorem Move.due (hm : Move s p x s' p' e) :
    s'.due = s.due ∨ ∃ k, p = .sendNotify k ∧ s.stopCalled = false ∧ s'.due = s.due ++ [k] := by
  cases hm with
  | sendNotify =>
    rw [Shared.complete]
    split
    · exact .inl rfl
    · rename_i hc
      exact .inr ⟨_, rfl, by simpa using hc, rfl⟩
  | _ => exact .inl rfl

/-- Only `stop_ = true` sets `stop_`, and it does nothing else. -/
theorem Move.flag (hm : Move s p x s' p' e) (h : s.stop = false) (h' : s'.stop = true) :
    p.stops = true ∧ s'.due = s.due ∧ s'.handled = s.handled := by
  cases hm with
  | stopSet => exact ⟨rfl, rfl, rfl⟩
  | sendNotify =>
    rw [Shared.complete] at h'
    split at h' <;> exact absurd (h.symm.trans h') (by decide)
  | _ => exact absurd (h.symm.trans h') (by decide)

/-- Once `stop` is called no record becomes due. -/
theorem Covered.move (h : Covered s) (hcalled : s.stopCalled = true) (hm : Move s p x s' p' e) :
    Covered s' := by
  intro k hk
  rcases hm.due with hdue | ⟨-, -, hc, -⟩
  · rw [hdue] at hk
    exact (h k hk).trans_le hm.mono.2.2.2
  · rw [hcalled] at hc
    simp at hc

/-! ## The queue -/

/-- The queue as an abstract one. -/
def fifo (s : Shared T) : Fifo (Message T) := ⟨s.queue, s.accepted, s.handled⟩

/-- A step of a thread is a step of the abstract queue, or leaves it alone. -/
theorem Move.fifo (hm : Move s p x s' p' e) :
    fifo s' = fifo s ∨ Fifo.Step (fun _ => True) (fifo s) (fifo s') := by
  cases hm with
  | sendPush => exact .inr (.enq _ _ trivial)
  | sendNotify =>
    left
    rw [Shared.complete]
    split <;> rfl
  | take hq =>
    right
    rw [AsyncKafkaProducer.fifo, hq]
    exact .deq ..
  | _ => exact .inl rfl

/-! ## What holds of the producer -/

/-- How far the records and the `stop` have got. -/
structure ProducerOK (s : Shared T) : Prop where
  pushed : ∀ k ∈ s.due, k < s.accepted.length
  called : s.stop = true → s.stopCalled = true
  finished : s.finished = true → s.stop = true ∧ Covered s
  returned : s.stopReturned = true → s.finished = true

/-- What a thread knows. -/
def ThreadOK (s : Shared T) : Pc T → Prop
  | .sendUnlock k | .sendNotify k => k < s.accepted.length
  | .unlock => s.queue = []
  | .poll | .test => s.stop = true → Covered s
  | .leave | .flush | .done => s.stop = true ∧ Covered s
  | .stopSet => s.stopCalled = true
  | _ => True

/-- With the queue empty every record is handled. -/
theorem ProducerOK.covered (hP : ProducerOK s) (hcons : (fifo s).Conserved) (h : s.queue = []) :
    Covered s := by
  have hall : s.handled ++ s.queue = s.accepted := hcons
  rw [h, List.append_nil] at hall
  intro k hk
  rw [hall]
  exact hP.pushed k hk

theorem ProducerOK.move (hP : ProducerOK s) (hT : ThreadOK s p) (hm : Move s p x s' p' e) :
    ProducerOK s' := by
  have hfinished : s.finished = true → s'.stop = true ∧ Covered s' := by
    intro hf
    obtain ⟨hstop, hcov⟩ := hP.finished hf
    exact ⟨hm.mono.1 hstop, hcov.move (hP.called hstop) hm⟩
  have hpushed : ∀ k ∈ s'.due, k < s'.accepted.length := by
    intro k hk
    refine Nat.lt_of_lt_of_le ?_ hm.mono.2.2.1
    rcases hm.due with hdue | ⟨k', rfl, -, hdue⟩
    · rw [hdue] at hk
      exact hP.pushed k hk
    · rw [hdue, List.mem_append, List.mem_singleton] at hk
      rcases hk with hk | rfl
      · exact hP.pushed k hk
      · exact hT
  cases hm with
  | sendNotify =>
    rw [Shared.complete] at hpushed hfinished ⊢
    split at hpushed
    · rename_i hc
      rw [if_pos hc]
      exact hP
    · rename_i hc
      rw [if_neg hc] at hfinished ⊢
      exact ⟨hpushed, hP.called, hfinished, hP.returned⟩
  | finish => exact ⟨hpushed, hP.called, fun _ => hT, fun _ => rfl⟩
  | callStop => exact ⟨hpushed, fun _ => rfl, hfinished, hP.returned⟩
  | stopSet => exact ⟨hpushed, fun _ => hT, hfinished, hP.returned⟩
  | stopReturn hf => exact ⟨hpushed, hP.called, hfinished, fun _ => hf⟩
  | _ => exact ⟨hpushed, hP.called, hfinished, hP.returned⟩

/-- A thread's own step. -/
theorem ThreadOK.own (hP : ProducerOK s) (hcons : (fifo s).Conserved) (hT : ThreadOK s p)
    (hm : Move s p x s' p' e) : ThreadOK s' p' := by
  cases hm with
  | sendPush => simp [ThreadOK, Shared.push]
  | sendUnlock => exact hT
  | stopped hs => exact ⟨hs, hT hs⟩
  | drained hs hq => exact ⟨hs, hP.covered hcons hq⟩
  | leave => exact hT
  | empty hq => exact hq
  | unlock => exact fun _ => hP.covered hcons hT
  | poll => exact hT
  | finish => exact hT
  | callStop => rfl
  | _ => trivial

/-- A step of another thread. -/
theorem ThreadOK.other (hP : ProducerOK s) (hT : ThreadOK s q) (hm : Move s p x s' p' e)
    (hexcl : q.inside = true → p.inside = false)
    (htimely : p.stops = true → q.past = true → Covered s) : ThreadOK s' q := by
  obtain ⟨hstop, hcalled, haccepted, -⟩ := hm.mono
  -- past its drain the worker keeps what it knows, and learns it when `stop_` is set
  have hpast : q.past = true → (s.stop = true → Covered s) → s'.stop = true → Covered s' := by
    intro hq hcov hstop'
    by_cases hs : s.stop = true
    · exact (hcov hs).move (hP.called hs) hm
    · obtain ⟨hsets, hdue, hhandled⟩ := hm.flag (by simpa using hs) hstop'
      rw [Covered, hdue, hhandled]
      exact htimely hsets hq
  cases q with
  | sendUnlock | sendNotify => exact Nat.lt_of_lt_of_le hT haccepted
  | unlock =>
    rw [ThreadOK, hm.frame (hexcl rfl)]
    exact hT
  | poll | test => exact hpast rfl hT
  | leave | flush | done => exact ⟨hstop hT.1, hT.2.move (hP.called hT.1) hm⟩
  | stopSet => exact hcalled hT
  | _ => trivial

variable [DecidableEq ι]

theorem locked (T : Type*) (worker : ι) : (prog T worker).Locked Pc.inside where
  start i := by simp only [prog]; split <;> rfl
  step h := by
    cases step_move h with
    | _ => first | rfl | exact ⟨rfl, rfl⟩
  wake h := by
    obtain ⟨rfl, rfl⟩ := wake_inv h
    rfl

/-- A thread that has just been woken knows nothing. -/
theorem ThreadOK.woken (i : ι) (h : ThreadOK s q) : ThreadOK s ((prog T worker).woken e i q) := by
  rcases (prog T worker).woken_cases e i q with heq | ⟨v, hv⟩
  · rw [heq]; exact h
  · obtain ⟨-, hv⟩ := wake_inv hv
    rw [hv]; trivial

variable [Fintype ι] {c c' : State ι T}

theorem fifo_run {ok : State ι T → ι × Choice ι T → Prop} (h : (prog T worker).lts.ReachIf ok c) :
    Fifo.Run (fun _ => True) Fifo.empty (fifo c.sh) :=
  Prog.simulate fifo (fun _ hs => (step_move hs).fifo) h

theorem producer_ok (h : (prog T worker).lts.ReachIf Timely c) :
    ∀ i, ProducerOK c.sh ∧ ThreadOK c.sh (c.pc i) := by
  refine Prog.local_invariant (locked T worker) (fun s p => ProducerOK s ∧ ThreadOK s p)
    (fun i => ?_) ?_ ?_ h
  · refine ⟨⟨nofun, nofun, nofun, nofun⟩, ?_⟩
    simp only [prog]
    split
    · exact nofun
    · trivial
  · intro c t x s p e hc _ hs hL
    have hm := step_move hs
    have hcons := (fifo_run hc).conserved
    exact ⟨hL.1.move hL.2 hm, hL.2.own hL.1 hcons hm⟩
  · intro c t x s p e i _ htimely hs hLt _ hexcl hL
    refine ⟨hLt.1.move hLt.2 (step_move hs), ThreadOK.woken i ?_⟩
    exact hL.2.other hL.1 (step_move hs) hexcl fun hsets => htimely hsets i

/-! ## A `stop_ = true` behind a drain -/

/-- At its loop test the worker finds `stop_` set and returns. -/
theorem returns_of_test (worker : ι) {i : ι} (hstop : c.sh.stop = true) (hi : c.pc i = .test) :
    ∃ c', (prog T worker).lts.Leads c c' ∧ c'.sh = { c.sh with finished := true } ∧
      ∀ j, j ≠ i → c'.pc j = c.pc j := by
  have htest : step c.sh (c.pc i) (.go : Choice ι T) = some (c.sh, .flush, .tau) := by
    rw [hi, step, if_pos hstop]
  refine ⟨_, .head ⟨_, Prog.next_tau (M := prog T worker) htest⟩
    (.single ⟨(i, .go), Prog.next_tau (p := .done) (s := { c.sh with finished := true }) ?_⟩), rfl,
    fun j hj => ?_⟩
  · simp only [Function.update_self]
    rfl
  · simp only [Function.update_of_ne hj]

/-- Past its drain the worker returns without another one. -/
theorem returns (worker : ι) {i : ι} (hstop : c.sh.stop = true) (hi : (c.pc i).past = true) :
    ∃ c', (prog T worker).lts.Leads c c' ∧ c'.sh = { c.sh with finished := true } ∧
      ∀ j, j ≠ i → c'.pc j = c.pc j := by
  generalize hp : c.pc i = p at hi
  cases p with
  | test => exact returns_of_test worker hstop hp
  | poll =>
    have hpoll : step c.sh (c.pc i) (.go : Choice ι T) = some (c.sh, .test, .tau) := by rw [hp]; rfl
    obtain ⟨c', hleads, hsh, hpc⟩ := returns_of_test worker (i := i)
      (c := ⟨c.owner, c.sh, Function.update c.pc i .test⟩) hstop (Function.update_self ..)
    refine ⟨c', .head ⟨_, Prog.next_tau (M := prog T worker) hpoll⟩ hleads, hsh, fun j hj => ?_⟩
    rw [hpc j hj]
    exact Function.update_of_ne hj ..
  | _ => simp [Pc.past] at hi

/-- With the worker gone, `stop` returns. -/
theorem joins (worker : ι) {t : ι} (hfin : c.sh.finished = true) (ht : c.pc t = .stopNotify) :
    ∃ c', (prog T worker).lts.Leads c c' ∧ c'.sh = { c.sh with stopReturned := true } := by
  obtain ⟨pick, hen⟩ := Prog.exists_pick (prog T worker) c t ()
  have hnotify : step c.sh (c.pc t) (.notify pick : Choice ι T) =
      some (c.sh, .stopJoin, .notifyOne () pick) := by rw [ht]; rfl
  refine ⟨_, .head ⟨_, Prog.next_of (M := prog T worker) hnotify hen⟩
    (.single ⟨(t, .go), Prog.next_tau (p := .idle) (s := { c.sh with stopReturned := true }) ?_⟩),
    rfl⟩
  simp only [if_true]
  change (if c.sh.finished then _ else none) = _
  rw [if_pos hfin]

theorem untimely_left {act : ι × Choice ι T} (hs : (prog T worker).lts.step c act = some c')
    (h : ¬ Timely c act) : ∃ c'', (prog T worker).lts.Leads c' c'' ∧ c''.sh.stopReturned = true ∧
      ¬ Covered c''.sh := by
  obtain ⟨t, x⟩ := act
  simp only [Timely, Classical.not_imp, not_forall] at h
  obtain ⟨hsets, i, hi, hnot⟩ := h
  obtain ⟨s, p, e, hstep, -, rfl⟩ := Prog.next_inv hs
  have hm := step_move hstep
  have hit : i ≠ t := by
    rintro rfl
    generalize c.pc i = q at hi hsets
    cases q <;> simp [Pc.past, Pc.stops] at hi hsets
  generalize hp : c.pc t = p₀ at hm hsets
  cases hm with
  | stopSet =>
    -- the worker returns, then the `stop`
    obtain ⟨c₁, h₁, hsh₁, hpc₁⟩ := returns worker (i := i)
      (c := ⟨c.owner, { c.sh with stop := true }, fun j => if j = t then .stopNotify else c.pc j⟩)
      rfl (by simpa only [if_neg hit] using hi)
    obtain ⟨c₂, h₂, hsh₂⟩ := joins worker (c := c₁) (t := t) (by rw [hsh₁])
      (by rw [hpc₁ t hit.symm]; simp)
    refine ⟨c₂, h₁.trans h₂, by rw [hsh₂], ?_⟩
    rw [hsh₂, hsh₁]
    exact hnot
  | _ => simp [Pc.stops] at hsets

/-- **When a stopped producer has handled everything.** The records handled, followed by those in
the queue, are those pushed. Along runs in which `stop` sets `stop_` while the worker is between
a drain and its loop test only if no record of a completed `send` waits, every such record is
handled when `stop` has returned; and a step that breaks the condition leads to a state in which
`stop` has returned and one is not. -/
theorem stop_handles (h : (prog T worker).lts.ReachIf Timely c) :
    c.sh.handled ++ c.sh.queue = c.sh.accepted ∧ (∀ k ∈ c.sh.due, k < c.sh.accepted.length) ∧
    (c.sh.stopReturned = true → Covered c.sh) ∧
    ∀ act c', (prog T worker).lts.step c act = some c' → ¬ Timely c act →
      ∃ c'', (prog T worker).lts.Leads c' c'' ∧ c''.sh.stopReturned = true ∧ ¬ Covered c''.sh := by
  obtain ⟨hP, -⟩ := producer_ok h worker
  have hcons := (fifo_run h).conserved
  exact ⟨hcons, hP.pushed, fun hret => (hP.finished (hP.returned hret)).2,
    fun act c' hs hlate => untimely_left hs hlate⟩

/-- `stop` is called while the worker waits for the mutex, with a record in the queue. -/
theorem stop_handles_one : ∃ c : State (Fin 2) ℕ, (prog (ι := Fin 2) ℕ 0).lts.ReachIf Timely c ∧
    c.sh.stopReturned = true ∧ c.sh.due = [0] ∧ c.sh.handled = [⟨7, 0⟩] ∧ Covered c.sh := by
  obtain ⟨c, hc, hres⟩ := Lts.exists_reachIf (prog (ι := Fin 2) ℕ 0).lts Timely
    ((0, .go) :: sendAlone 1 7 ++ (1, .stop) :: go 1 1 ++ go 0 9 ++ [(1, .notify none), (1, .go)])
    (fun c => c.sh.stopReturned && c.sh.due == [0] && c.sh.handled == [⟨7, 0⟩]) (by decide)
  simp only [Bool.and_eq_true, beq_iff_eq] at hres
  exact ⟨c, hc, hres.1.1, hres.1.2, hres.2, (stop_handles hc).2.2.1 hres.1.1⟩

/-- **A record left behind.** Before the worker gets to its loop test, thread 1 sends a record and
thread 2 then stops the producer. -/
theorem record_left : ∃ c : State (Fin 3) ℕ, (prog (ι := Fin 3) ℕ 0).lts.Reach c ∧
    c.sh.stopReturned = true ∧ c.sh.due = [0] ∧ c.sh.handled = [] ∧ ¬ Covered c.sh := by
  obtain ⟨c, hc, hres⟩ := Lts.exists_reachIf (prog (ι := Fin 3) ℕ 0).lts (fun _ _ => True)
    (sendAlone 1 7 ++ (2, .stop) :: go 2 1 ++ go 0 2 ++ [(2, .notify none), (2, .go)])
    (fun c => c.sh.stopReturned && c.sh.due == [0] && c.sh.handled == [] && decide (¬ Covered c.sh))
    (by decide)
  simp only [Bool.and_eq_true, beq_iff_eq, decide_eq_true_eq] at hres
  exact ⟨c, hc, hres.1.1.1, hres.1.1.2, hres.1.2, hres.2⟩

end BackendTasks.AsyncKafkaProducer
