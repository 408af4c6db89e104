import BackendTasks.Proof.BlockingStep

/-!
# Stopping the blocking queue

A waiter evaluates its predicate and goes to sleep holding the mutex in between. `stop`
does not lock the mutex, so all of it may happen in that window.

* `sleeps_through_stop`: a consumer that has found the queue empty and running goes to
  sleep after a whole `stop`, which notified nobody.
* `no_lost_wakeup`: along runs in which no `notify_all` of `stop` falls into the window of
  a `wait` on its condition variable, no thread is asleep in `wait` once `stop` has returned;
  and from any `notify_all` that does, such a state is reached.
-/

namespace BackendTasks.BlockingQueue

open Sched

variable {ι T : Type*} {capacity : ℕ} {s s' : Shared T} {p p' q : Pc T} {x : Choice ι T}
  {e : Effect ι Cv}

/-- Asleep in `cv_not_empty.wait` or `cv_not_full.wait`. -/
def Pc.asleepInWait : Pc T → Bool
  | .pushAsleep _ => true
  | .popAsleep waitForever => waitForever
  | _ => false

/-- Between a false predicate of a `wait` on the condition variable and the sleep. -/
def Pc.goingToSleep : Cv → Pc T → Bool
  | .notFull, .pushWait _ => true
  | .notEmpty, .popWait waitForever => waitForever
  | _, _ => false

/-- The condition variable that a `stop` is about to notify. -/
def Pc.stopNotifies : Pc T → Option Cv
  | .stopEmpty => some .notEmpty
  | .stopFull => some .notFull
  | _ => none

/-- A `stop` has returned and a thread is asleep in a `wait`. -/
def LostWakeup (c : State ι T) : Prop :=
  c.sh.stopReturned = true ∧ ∃ i, (c.pc i).asleepInWait = true

/-- The step is not a `notify_all` of `stop` that falls into a waiter's window. -/
def Timely (c : State ι T) (act : ι × Choice ι T) : Prop :=
  ∀ v ∈ (c.pc act.1).stopNotifies, ∀ i, (c.pc i).goingToSleep v = false

instance [Fintype ι] (c : State ι T) (act : ι × Choice ι T) : Decidable (Timely c act) :=
  inferInstanceAs
    (Decidable (∀ v ∈ (c.pc act.1).stopNotifies, ∀ i, (c.pc i).goingToSleep v = false))

/-! ## Who can be asleep -/

/-- How far the `stop`s have got. -/
structure StopOK (s : Shared T) : Prop where
  notified : s.stopNotified = true → s.running = false
  returned : s.stopReturned = true → s.stopNotified = true

/-- What a thread knows about them. -/
def StopThread (s : Shared T) : Pc T → Prop
  | .pushWait _ | .pushAsleep _ => s.stopReturned = false
  | .popWait true | .popAsleep true => s.stopNotified = false
  | .stopEmpty => s.running = false
  | .stopFull => s.running = false ∧ s.stopNotified = true
  | _ => True

theorem StopOK.move (hS : StopOK s) (hT : StopThread s p) (hm : Move capacity s p x s' p' e) :
    StopOK s' := by
  cases hm with
  | stopFlag => exact ⟨fun _ => rfl, hS.returned⟩
  | stopEmpty => exact ⟨fun _ => hT, fun _ => rfl⟩
  | stopFull => exact ⟨hS.notified, fun _ => hT.2⟩
  | _ => exact ⟨hS.notified, hS.returned⟩

/-- A thread's own step: one that finds the queue running is ahead of every `notify_all`. -/
theorem StopThread.own (hS : StopOK s) (hT : StopThread s p) (hm : Move capacity s p x s' p' e) :
    StopThread s' p' := by
  have hnot : s.running = true → s.stopNotified = false := by
    intro hr
    by_contra h
    rw [Bool.not_eq_false] at h
    rw [hS.notified h] at hr
    simp at hr
  cases hm with
  | pushFail _ hr =>
    show s.stopReturned = false
    by_contra h
    rw [Bool.not_eq_false] at h
    have := hS.returned h
    rw [hnot hr] at this
    simp at this
  | pushSleep => exact hT
  | popPass => rename_i w _; cases w <;> trivial
  | popFail hnil hr =>
    rename_i w
    cases w with
    | true => exact hnot hr
    | false => trivial
  | popSleep => rename_i w; cases w <;> exact hT
  | stopFlag => rfl
  | stopEmpty => exact ⟨hT, rfl⟩
  | _ => trivial

/-- A step of another thread: a timely `notify_all` finds nobody in the window, and wakes the
threads that are asleep. -/
theorem StopThread.other [DecidableEq ι] {i : ι} (hT : StopThread s q)
    (hm : Move capacity s p x s' p' e) (htimely : ∀ v ∈ p.stopNotifies, q.goingToSleep v = false) :
    StopThread s' ((prog ι T capacity).woken e i q) := by
  have hkeep : ∀ {s : Shared T} {e}, StopThread s q →
      StopThread s ((prog ι T capacity).woken e i q) := by
    intro s e h
    rcases woken_eq capacity e i q with heq | ⟨v, heq⟩ | ⟨w, heq⟩
    · rw [heq]; exact h
    · rw [heq]; trivial
    · rw [heq]; trivial
  cases hm with
  | stopFlag =>
    refine hkeep ?_
    cases q with
    | stopEmpty => rfl
    | stopFull => exact ⟨rfl, hT.2⟩
    | popWait w | popAsleep w => cases w <;> exact hT
    | _ => exact hT
  | stopEmpty =>
    have hwin := htimely .notEmpty rfl
    cases q with
    | popAsleep w => trivial
    | popWait w => rw [show w = false from hwin]; trivial
    | stopFull => exact ⟨hT.1, rfl⟩
    | _ => exact hT
  | stopFull =>
    have hwin := htimely .notFull rfl
    cases q with
    | pushAsleep v => trivial
    | pushWait v => exact absurd hwin (by simp [Pc.goingToSleep])
    | popWait w | popAsleep w => cases w <;> exact hT
    | _ => exact hT
  | _ => exact hkeep hT

variable [DecidableEq ι] [Fintype ι] {c c' : State ι T}

theorem stop_ok (h : (prog ι T capacity).lts.ReachIf Timely c) :
    StopOK c.sh ∧ ∀ i, StopThread c.sh (c.pc i) := by
  refine h.invariant (I := fun c : State ι T => StopOK c.sh ∧ ∀ i, StopThread c.sh (c.pc i)) ?_ ?_
  · exact ⟨⟨nofun, nofun⟩, fun _ => trivial⟩
  intro c a c' _ ih hok hs
  obtain ⟨s, p, e, hstep, -, rfl⟩ := Prog.next_inv hs
  have hm := step_move hstep
  refine ⟨ih.1.move (ih.2 a.1) hm, fun i => ?_⟩
  by_cases hia : i = a.1
  · simpa [hia] using (ih.2 a.1).own ih.1 hm
  · simp only [hia, if_false]
    exact (ih.2 i).other hm fun v hv => hok v hv i

/-! ## A `notify_all` in the window -/

omit [Fintype ι] in
/-- A thread in its window is not woken. -/
theorem goingToSleep_woken {i : ι} {v : Cv} (h : q.goingToSleep v = true) (e : Effect ι Cv) :
    (prog ι T capacity).woken e i q = q := by
  rcases (prog ι T capacity).woken_cases e i q with heq | ⟨u, hu⟩
  · exact heq
  · cases v <;> cases q <;> cases u <;> simp_all [Pc.goingToSleep, prog, wake]

/-- A thread in its window goes to sleep next. -/
theorem sleeps (capacity : ℕ) {i : ι} {v : Cv} (h : (c.pc i).goingToSleep v = true) :
    ∃ c', (prog ι T capacity).lts.step c (i, .go) = some c' ∧ c'.sh = c.sh ∧
      (c'.pc i).asleepInWait = true ∧ (v = .notEmpty → c'.pc i = .popAsleep true) ∧
      ∀ j, j ≠ i → c'.pc j = c.pc j := by
  generalize hp : c.pc i = p at h
  cases v <;> cases p <;> simp only [Pc.goingToSleep, Bool.false_eq_true] at h
  case notEmpty.popWait w =>
    subst h
    have hs : step capacity c.sh (c.pc i) (.go : Choice ι T) =
        some (c.sh, .popAsleep true, .release) := by rw [hp]; rfl
    refine ⟨_, Prog.next_of (M := prog ι T capacity) hs trivial, rfl, ?_, ?_, fun j hj => if_neg hj⟩
    · simp only [if_true]; rfl
    · simp only [if_true, implies_true]
  case notFull.pushWait v =>
    have hs : step capacity c.sh (c.pc i) (.go : Choice ι T) =
        some (c.sh, .pushAsleep v, .release) := by rw [hp]; rfl
    refine ⟨_, Prog.next_of (M := prog ι T capacity) hs trivial, rfl, ?_, fun hv => ?_,
      fun j hj => if_neg hj⟩
    · simp only [if_true]; rfl
    · simp at hv

/-- The last step of a `stop` does not wake consumers. -/
theorem stops (capacity : ℕ) {t : ι} (ht : c.pc t = .stopFull) :
    ∃ c', (prog ι T capacity).lts.step c (t, .go) = some c' ∧ c'.sh.stopReturned = true ∧
      ∀ i, c.pc i = .popAsleep true → c'.pc i = .popAsleep true := by
  have hs : step capacity c.sh (c.pc t) (.go : Choice ι T) =
      some ({ c.sh with stopReturned := true }, .idle, .notifyAll .notFull) := by rw [ht]; rfl
  refine ⟨_, Prog.next_of (M := prog ι T capacity) hs trivial, rfl, fun i hi => ?_⟩
  have hit : i ≠ t := by rintro rfl; rw [ht] at hi; simp at hi
  simp only [if_neg hit, hi]
  rfl

/-- **A `notify_all` that falls into a waiter's window is lost on it.** -/
theorem untimely_lost {act : ι × Choice ι T} (hs : (prog ι T capacity).lts.step c act = some c')
    (h : ¬ Timely c act) : ∃ c'', (prog ι T capacity).lts.Leads c' c'' ∧ LostWakeup c'' := by
  obtain ⟨t, x⟩ := act
  simp only [Timely, not_forall, Bool.not_eq_false] at h
  obtain ⟨v, hv, i, hi⟩ := h
  obtain ⟨s, p, e, hstep, -, rfl⟩ := Prog.next_inv hs
  have hm := step_move hstep
  have hit : i ≠ t := by
    intro heq
    rw [heq] at hi
    generalize c.pc t = p at hi hv
    cases p <;> simp_all [Pc.goingToSleep, Pc.stopNotifies]
  generalize hp : c.pc t = p₀ at hm hv
  cases hm with
  | stopEmpty =>
    cases hv
    -- the consumer sleeps, then the `stop` finishes
    obtain ⟨c₁, h₁, -, -, hc₁, hkeep⟩ := sleeps capacity (i := i) (v := .notEmpty)
      (c := ⟨_, { c.sh with stopNotified := true }, fun j => if j = t then .stopFull
        else (prog ι T capacity).woken (.notifyAll .notEmpty) j (c.pc j)⟩)
      (by simp only [if_neg hit, goingToSleep_woken hi]; exact hi)
    obtain ⟨c₂, h₂, hret, hasleep⟩ := stops capacity (c := c₁) (t := t)
      (by rw [hkeep _ hit.symm]; simp)
    refine ⟨c₂, .head ⟨_, h₁⟩ (.single ⟨_, h₂⟩), hret, i, ?_⟩
    rw [hasleep i (hc₁ rfl)]
    rfl
  | stopFull =>
    cases hv
    obtain ⟨c₁, h₁, hsh, hasleep, -⟩ := sleeps capacity (i := i) (v := .notFull)
      (c := ⟨_, { c.sh with stopReturned := true }, fun j => if j = t then .idle
        else (prog ι T capacity).woken (.notifyAll .notFull) j (c.pc j)⟩)
      (by simp only [if_neg hit, goingToSleep_woken hi]; exact hi)
    exact ⟨c₁, .single ⟨_, h₁⟩, by rw [hsh], i, hasleep⟩
  | _ => simp [Pc.stopNotifies] at hv

/-- **When `stop` loses no wakeup.** Along runs in which no `notify_all` of `stop` falls between
a waiter's false predicate and its going to sleep on that condition variable, no thread is
asleep in `wait` after a `stop` has returned; and a step that breaks the condition leads to a
state in which one is. -/
theorem no_lost_wakeup (h : (prog ι T capacity).lts.ReachIf Timely c) :
    ¬ LostWakeup c ∧ ∀ act c', (prog ι T capacity).lts.step c act = some c' → ¬ Timely c act →
      ∃ c'', (prog ι T capacity).lts.Leads c' c'' ∧ LostWakeup c'' := by
  refine ⟨?_, fun act c' hs hlate => untimely_lost hs hlate⟩
  rintro ⟨hret, i, hi⟩
  obtain ⟨hS, hT⟩ := stop_ok h
  have hTi := hT i
  generalize c.pc i = p at hi hTi
  cases p with
  | pushAsleep v => rw [StopThread, hret] at hTi; simp at hTi
  | popAsleep w =>
    obtain rfl : w = true := hi
    rw [StopThread, hS.returned hret] at hTi
    simp at hTi
  | _ => simp [Pc.asleepInWait] at hi

/-- A consumer that was asleep when `stop` was called is woken. -/
theorem no_lost_wakeup_asleep : ∃ c : State (Fin 2) ℕ, (prog (Fin 2) ℕ 1).lts.ReachIf Timely c ∧
    c.sh.stopReturned = true ∧ c.pc 0 = .popWoken true true ∧ ¬ LostWakeup c := by
  obtain ⟨c, hc, hres⟩ := Lts.exists_reachIf (prog (Fin 2) ℕ 1).lts Timely
    ((0, .pop) :: go 0 3 ++ (1, .stop) :: go 1 3)
    (fun c => c.sh.stopReturned && c.pc 0 == .popWoken true true) (by decide)
  rw [Bool.and_eq_true, beq_iff_eq] at hres
  exact ⟨c, hc, hres.1, hres.2, (no_lost_wakeup hc).1⟩

/-- **A lost wakeup.** Thread 0 finds the queue empty and running; thread 1 runs the whole of
`stop`; thread 0 goes to sleep. -/
theorem sleeps_through_stop : ∃ c : State (Fin 2) ℕ,
    (prog (Fin 2) ℕ 1).lts.Reach c ∧ LostWakeup c := by
  obtain ⟨c, hc, hres⟩ := Lts.exists_reachIf (prog (Fin 2) ℕ 1).lts (fun _ _ => True)
    ((0, .pop) :: go 0 2 ++ (1, .stop) :: go 1 3 ++ go 0 1)
    (fun c => c.sh.stopReturned && (c.pc 0).asleepInWait) (by decide)
  rw [Bool.and_eq_true] at hres
  exact ⟨c, hc, hres.1, 0, hres.2⟩

end BackendTasks.BlockingQueue
