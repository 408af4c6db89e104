import BackendTasks.Spec.ThreadPool
import BackendTasks.Sched.Fifo
import Mathlib.Data.List.Basic

/-!
# What a step of the thread pool can do

`Move` lists the steps of `worker`, `enqueue` and `stop` with the tests they have passed
(`step_move`). `Pc.inside` are the control points at which a thread holds the mutex
(`locked`), `Pc.worker` those of a worker, which the threads of `threads_` never leave
(`worker_iff`). `PoolOK` and `ThreadOK` are what holds of the pool and what each thread
knows (`pool_ok`).
-/

namespace BackendTasks.ThreadPool

open Sched

variable {ι Task : Type*} {threads : List ι} {i : ι} {s s' : Shared ι Task}
  {p p' q : Pc ι Task} {x : Choice ι Task} {e : Effect ι Unit}

theorem ready_iff : s.ready = true ↔ s.stop = true ∨ s.tasks ≠ [] := by
  simp [Shared.ready]

/-- What a notification does to a thread. -/
theorem wake_inv {v : Unit} {q' : Pc ι Task} (h : wake v q = some q') :
    q = .asleep ∧ q' = .woken true := by
  cases q <;> simp only [wake, reduceCtorEq, Option.some.injEq] at h
  exact ⟨rfl, h.symm⟩

variable [DecidableEq ι]

/-- The steps of a thread. -/
inductive Move (threads : List ι) (i : ι) (s : Shared ι Task) :
    Pc ι Task → Choice ι Task → Shared ι Task → Pc ι Task → Effect ι Unit → Prop
  | lock : Move threads i s .lock .go s .pred .acquire
  | ready : s.stop = true ∨ s.tasks ≠ [] → Move threads i s .pred .go s .test .tau
  | unready : s.stop = false → s.tasks = [] → Move threads i s .pred .go s .wait .tau
  | sleep : Move threads i s .wait .go s .asleep .release
  | wake : Move threads i s .asleep .wakeUp s (.woken false) .tau
  | relock {b} : Move threads i s (.woken b) .go s .pred .acquire
  | drained : s.stop = true → s.tasks = [] → Move threads i s .test .go s .leave .tau
  | work : s.stop = false ∨ s.tasks ≠ [] → Move threads i s .test .go s .take .tau
  | take {k rest} : s.tasks = k :: rest →
      Move threads i s .take .go { s with tasks := rest, taken := s.taken ++ [k] } (.unlock k) .tau
  | unlock {k} : Move threads i s (.unlock k) .go s (.run k) .release
  | nested {k new} : Move threads i s (.run k) (.enqueue new) s (.enqLock (some k) new) .tau
  | executed {k} : Move threads i s (.run k) .go (s.execute k) .lock .tau
  | leave : Move threads i s .leave .go (s.finish i) .done .release
  | callEnqueue {new} : Move threads i s .idle (.enqueue new) s (.enqLock none new) .tau
  | enqLock {k new} : Move threads i s (.enqLock k new) .go s (.enqPush k new) .acquire
  | enqPush {k new} : Move threads i s (.enqPush k new) .go (s.push new) (.enqUnlock k) .tau
  | enqUnlock {k} : Move threads i s (.enqUnlock k) .go s (.enqNotify k) .release
  | enqNotify {k j} : Move threads i s (.enqNotify k) (.notify j) s (resume k) (.notifyOne () j)
  | callStop : Move threads i s .idle .stop { s with stopCalled := true } .stopLock .tau
  | stopLock : Move threads i s .stopLock .go s .stopSet .acquire
  | stopSet : Move threads i s .stopSet .go { s with stop := true } .stopUnlock .tau
  | stopUnlock : Move threads i s .stopUnlock .go s .stopNotify .release
  | stopNotify : Move threads i s .stopNotify .go { s with allNotified := true }
      (.stopJoin threads) (.notifyAll ())
  | join {j rest} : s.finished j = true →
      Move threads i s (.stopJoin (j :: rest)) .go s (.stopJoin rest) .tau
  | stopReturn : Move threads i s (.stopJoin []) .go { s with stopReturned := true } .idle .tau

theorem step_move (h : step threads i s p x = some (s', p', e)) : Move threads i s p x s' p' e := by
  cases p <;> cases x <;> simp only [step, reduceCtorEq] at h
  case pred.go =>
    split at h
    · rename_i hr; cases h; exact .ready (ready_iff.1 hr)
    · rename_i hr; cases h
      rw [ready_iff, not_or, not_not, Bool.not_eq_true] at hr
      exact .unready hr.1 hr.2
  case test.go =>
    split at h
    · rename_i hd; cases h
      rw [Bool.and_eq_true, List.isEmpty_iff] at hd
      exact .drained hd.1 hd.2
    · rename_i hd; cases h
      rw [Bool.and_eq_true, List.isEmpty_iff, not_and_or, Bool.not_eq_true] at hd
      exact .work hd
  case take.go =>
    split at h
    · rename_i hk; cases h; exact .take hk
    · simp at h
  case stopJoin.go l =>
    cases l with
    | nil => cases h; exact .stopReturn
    | cons j rest =>
      simp only at h
      split at h
      · rename_i hj; cases h; exact .join hj
      · simp at h
  all_goals cases h; constructor

/-! ## Critical sections and workers -/

/-- The control points at which a thread holds the mutex. -/
def Pc.inside : Pc ι Task → Bool
  | .pred | .wait | .test | .take | .unlock _ | .leave => true
  | .enqPush _ _ | .enqUnlock _ => true
  | .stopSet | .stopUnlock => true
  | _ => false

/-- The control points of a worker, those of an `enqueue` that a task has called included. -/
def Pc.worker : Pc ι Task → Bool
  | .idle | .stopLock | .stopSet | .stopUnlock | .stopNotify | .stopJoin _ => false
  | .enqLock k _ | .enqPush k _ | .enqUnlock k | .enqNotify k => k.isSome
  | _ => true

theorem locked (threads : List ι) : (prog Task threads).Locked Pc.inside where
  start i := by simp only [prog]; split <;> rfl
  step h := by
    cases step_move h with
    | enqNotify => rename_i k j; cases k <;> rfl
    | _ => first | rfl | exact ⟨rfl, rfl⟩
  wake h := by
    obtain ⟨rfl, rfl⟩ := wake_inv h
    rfl

/-- Another thread's step leaves a thread where it is or wakes it up. -/
theorem woken_eq (threads : List ι) (e : Effect ι Unit) (i : ι) (q : Pc ι Task) :
    (prog Task threads).woken e i q = q ∨
      (q = .asleep ∧ (prog Task threads).woken e i q = .woken true) := by
  rcases (prog Task threads).woken_cases e i q with heq | ⟨v, hv⟩
  · exact .inl heq
  · exact .inr (wake_inv hv)

/-! ## What holds of the pool -/

/-- How far the `stop`s have got. -/
structure PoolOK (threads : List ι) (s : Shared ι Task) : Prop where
  called : s.stop = true → s.stopCalled = true
  notified : s.allNotified = true → s.stop = true
  returned : s.stopReturned = true → ∀ j ∈ threads, s.finished j = true

/-- What a thread knows. -/
def ThreadOK (threads : List ι) (s : Shared ι Task) : Pc ι Task → Prop
  | .wait => s.stop = false ∧ s.tasks = []
  | .asleep => s.allNotified = false
  | .test => s.stop = true ∨ s.tasks ≠ []
  | .take => s.tasks ≠ []
  | .leave => s.stop = true ∧ s.tasks = []
  | .done | .stopUnlock | .stopNotify => s.stop = true
  | .stopLock | .stopSet => s.stopCalled = true
  | .stopJoin l => s.stop = true ∧ ∀ j ∈ threads, j ∈ l ∨ s.finished j = true
  | _ => True

theorem PoolOK.move (hP : PoolOK threads s) (hT : ThreadOK threads s p)
    (hm : Move threads i s p x s' p' e) : PoolOK threads s' := by
  cases hm with
  | leave =>
    refine ⟨hP.called, hP.notified, fun hr j hj => ?_⟩
    by_cases hji : j = i
    · rw [hji]; exact Function.update_self ..
    · exact (Function.update_of_ne hji ..).trans (hP.returned hr j hj)
  | callStop => exact ⟨fun _ => rfl, hP.notified, hP.returned⟩
  | stopSet => exact ⟨fun _ => hT, fun _ => rfl, hP.returned⟩
  | stopNotify => exact ⟨hP.called, fun _ => hT, hP.returned⟩
  | stopReturn => exact ⟨hP.called, hP.notified, fun _ j hj => (hT.2 j hj).resolve_left nofun⟩
  | _ => exact ⟨hP.called, hP.notified, hP.returned⟩

/-- A thread's own step. -/
theorem ThreadOK.own (hP : PoolOK threads s) (hT : ThreadOK threads s p)
    (hm : Move threads i s p x s' p' e) : ThreadOK threads s' p' := by
  cases hm with
  | ready hr => exact hr
  | unready hs ht => exact ⟨hs, ht⟩
  | sleep =>
    show s.allNotified = false
    by_contra h
    rw [Bool.not_eq_false] at h
    have := hP.notified h
    rw [hT.1] at this
    simp at this
  | drained hs ht => exact ⟨hs, ht⟩
  | work hw =>
    intro hnil
    rcases hT with hs | hne
    · exact hw.elim (fun h => by rw [hs] at h; simp at h) fun h => h hnil
    · exact hne hnil
  | leave => exact hT.1
  | callStop => rfl
  | stopLock => exact hT
  | stopSet => rfl
  | stopUnlock => exact hT
  | stopNotify => exact ⟨hT, fun j hj => .inl hj⟩
  | join hfin =>
    refine ⟨hT.1, fun j hj => ?_⟩
    rcases hT.2 j hj with hmem | h
    · rcases List.mem_cons.1 hmem with rfl | hmem
      · exact .inr hfin
      · exact .inl hmem
    · exact .inr h
  | enqNotify => rename_i k j; cases k <;> trivial
  | _ => trivial

/-- Outside the critical sections a step leaves the tasks and the flag `stop_` alone. -/
theorem Move.frame (hm : Move threads i s p x s' p' e) (h : p.inside = false) :
    s'.tasks = s.tasks ∧ s'.stop = s.stop := by
  cases hm with
  | take _ | enqPush | stopSet => simp [Pc.inside] at h
  | _ => exact ⟨rfl, rfl⟩

/-- What once holds of the flags stays true; only `notify_all` sets `allNotified`. -/
theorem Move.flags (hm : Move threads i s p x s' p' e) :
    (s.stop = true → s'.stop = true) ∧ (s.stopCalled = true → s'.stopCalled = true) ∧
      (∀ j, s.finished j = true → s'.finished j = true) ∧
      (s'.allNotified = s.allNotified ∨ e = .notifyAll ()) := by
  cases hm with
  | leave =>
    refine ⟨id, id, fun j hj => ?_, .inl rfl⟩
    by_cases hji : j = i
    · rw [hji]; exact Function.update_self ..
    · exact (Function.update_of_ne hji ..).trans hj
  | callStop => exact ⟨id, fun _ => rfl, fun _ => id, .inl rfl⟩
  | stopSet => exact ⟨fun _ => rfl, id, fun _ => id, .inl rfl⟩
  | stopNotify => exact ⟨id, id, fun _ => id, .inr rfl⟩
  | _ => exact ⟨id, id, fun _ => id, .inl rfl⟩

/-- A step of another thread. -/
theorem ThreadOK.other {j : ι} (hT : ThreadOK threads s q) (hm : Move threads i s p x s' p' e)
    (hexcl : q.inside = true → p.inside = false) :
    ThreadOK threads s' ((prog Task threads).woken e j q) := by
  obtain ⟨hstop, hcalled, hfin, hall⟩ := hm.flags
  have hsame : q.inside = true → s'.tasks = s.tasks ∧ s'.stop = s.stop :=
    fun hin => hm.frame (hexcl hin)
  rcases woken_eq threads e j q with heq | ⟨rfl, heq⟩
  · cases q with
    | wait => rw [heq, ThreadOK, (hsame rfl).1, (hsame rfl).2]; exact hT
    | test => rw [heq, ThreadOK, (hsame rfl).1, (hsame rfl).2]; exact hT
    | take => rw [heq, ThreadOK, (hsame rfl).1]; exact hT
    | leave => rw [heq, ThreadOK, (hsame rfl).1, (hsame rfl).2]; exact hT
    | done | stopUnlock | stopNotify => rw [heq]; exact hstop hT
    | stopLock | stopSet => rw [heq]; exact hcalled hT
    | stopJoin l => rw [heq]; exact ⟨hstop hT.1, fun j hj => (hT.2 j hj).imp_right (hfin j)⟩
    | asleep =>
      rcases hall with hall | rfl
      · rw [heq, ThreadOK, hall]; exact hT
      · simp [Prog.woken, prog, wake] at heq
    | _ => rw [heq]; trivial
  · rw [heq]; trivial

/-! ## Every run -/

variable [Fintype ι] {c : State ι Task} {ok : State ι Task → ι × Choice ι Task → Prop}

/-- The workers are the threads of `threads_`. -/
theorem worker_iff (h : (prog Task threads).lts.ReachIf ok c) (i : ι) :
    (c.pc i).worker = true ↔ i ∈ threads := by
  have hstep : ∀ {t : ι} {s : Shared ι Task} {p x s' p' e},
      (prog Task threads).step t s p x = some (s', p', e) → p'.worker = p.worker := by
    intro t s p x s' p' e hs
    cases step_move hs with
    | enqNotify => rename_i k j; cases k <;> rfl
    | _ => rfl
  have hwake : ∀ {v} {q q' : Pc ι Task}, (prog Task threads).wake v q = some q' →
      q'.worker = q.worker := by
    intro v q q' hw
    obtain ⟨rfl, rfl⟩ := wake_inv hw
    rfl
  rw [Prog.feature_const Pc.worker hstep hwake h i]
  simp only [prog]
  split
  · rename_i hi; exact ⟨fun _ => hi, fun _ => rfl⟩
  · rename_i hi; simp [Pc.worker, hi]

theorem pool_ok (h : (prog Task threads).lts.ReachIf ok c) :
    ∀ i, PoolOK threads c.sh ∧ ThreadOK threads c.sh (c.pc i) := by
  refine Prog.local_invariant (locked threads) (fun s p => PoolOK threads s ∧ ThreadOK threads s p)
    (fun i => ?_) ?_ ?_ h
  · refine ⟨⟨nofun, nofun, nofun⟩, ?_⟩
    simp only [prog]
    split <;> trivial
  · intro c t x s p e _ _ hs hL
    exact ⟨hL.1.move hL.2 (step_move hs), hL.2.own hL.1 (step_move hs)⟩
  · intro c t x s p e i _ _ hs hLt _ hexcl hL
    exact ⟨hLt.1.move hLt.2 (step_move hs), hL.2.other (step_move hs) hexcl⟩

end BackendTasks.ThreadPool
