import BackendTasks.Spec.BlockingQueue
import Mathlib.Data.List.Basic

/-!
# What a step of the blocking queue can do

`Move` lists the steps of `push`, `pop_impl` and `stop` with the tests they have passed
(`step_move`). `Pc.inside` are the control points at which a thread holds the mutex
(`locked`); outside, a step leaves the queue's contents alone (`Move.frame`), and no step
sets `running_` again.
-/

namespace BackendTasks.BlockingQueue

open Sched

variable {ι T : Type*} {capacity : ℕ} {s s' : Shared T} {p p' q : Pc T} {x : Choice ι T}
  {e : Effect ι Cv}

/-- The steps of a thread. -/
inductive Move (capacity : ℕ) (s : Shared T) :
    Pc T → Choice ι T → Shared T → Pc T → Effect ι Cv → Prop
  | callPush {v} : Move capacity s .idle (.push v) s (.pushLock v) .tau
  | callPop : Move capacity s .idle .pop s (.popLock true) .tau
  | callPopFor : Move capacity s .idle .popFor s (.popLock false) .tau
  | callStop : Move capacity s .idle .stop s .stopFlag .tau
  | pushLock {v} : Move capacity s (.pushLock v) .go s (.pushPred v) .acquire
  | pushPass {v} : s.dataQueue.length < capacity ∨ s.running = false →
      Move capacity s (.pushPred v) .go s (.pushGate v) .tau
  | pushFail {v} : capacity ≤ s.dataQueue.length → s.running = true →
      Move capacity s (.pushPred v) .go s (.pushWait v) .tau
  | pushSleep {v} : Move capacity s (.pushWait v) .go s (.pushAsleep v) .release
  | pushWake {v} : Move capacity s (.pushAsleep v) .wakeUp s (.pushWoken v false) .tau
  | pushRelock {v b} : Move capacity s (.pushWoken v b) .go s (.pushPred v) .acquire
  | pushRefuse {v} : s.running = false →
      Move capacity s (.pushGate v) .go s (.pushExit v false) .tau
  | pushGo {v} : s.running = true → Move capacity s (.pushGate v) .go s (.pushStore v) .tau
  | pushStore {v} : Move capacity s (.pushStore v) .go (s.store v) (.pushNotify v) .tau
  | pushNotify {v j} :
      Move capacity s (.pushNotify v) (.notify j) s (.pushExit v true) (.notifyOne .notEmpty j)
  | pushExit {v b} : Move capacity s (.pushExit v b) .go s .idle .release
  | popLock {w} : Move capacity s (.popLock w) .go s (.popPred w) .acquire
  | popPass {w} : s.dataQueue ≠ [] ∨ s.running = false →
      Move capacity s (.popPred w) .go s (if w then .popReady else .popGate w) .tau
  | popFail {w} : s.dataQueue = [] → s.running = true →
      Move capacity s (.popPred w) .go s (.popWait w) .tau
  | popSleep {w} : Move capacity s (.popWait w) .go s (.popAsleep w) .release
  | popWake {w} : Move capacity s (.popAsleep w) .wakeUp s (.popWoken w false) .tau
  | popRelock {w b} : Move capacity s (.popWoken w b) .go s (.popPred w) .acquire
  | popExpire {b} : Move capacity s (.popWoken false b) .expire s .popLast .acquire
  | popLastPass : s.dataQueue ≠ [] ∨ s.running = false →
      Move capacity s .popLast .go s (.popGate false) .tau
  | popTimeout : s.dataQueue = [] → s.running = true →
      Move capacity s .popLast .go s (.popExit false none) .tau
  | popUnready : s.dataQueue = [] → Move capacity s .popReady .go s (.popExit true none) .tau
  | popReady : s.dataQueue ≠ [] → Move capacity s .popReady .go s (.popGate true) .tau
  | popRefuse {w} : s.running = false ∨ s.dataQueue = [] →
      Move capacity s (.popGate w) .go s (.popExit w none) .tau
  | popGo {w} : s.running = true → s.dataQueue ≠ [] →
      Move capacity s (.popGate w) .go s (.popTake w) .tau
  | popTake {w v rest} : s.dataQueue = v :: rest →
      Move capacity s (.popTake w) .go
        { s with dataQueue := rest, delivered := s.delivered ++ [v] } (.popNotify w v) .tau
  | popNotify {w v j} :
      Move capacity s (.popNotify w v) (.notify j) s (.popExit w (some v)) (.notifyOne .notFull j)
  | popExit {w r} : Move capacity s (.popExit w r) .go s .idle .release
  | stopFlag : Move capacity s .stopFlag .go { s with running := false } .stopEmpty .tau
  | stopEmpty :
      Move capacity s .stopEmpty .go { s with stopNotified := true } .stopFull (.notifyAll .notEmpty)
  | stopFull :
      Move capacity s .stopFull .go { s with stopReturned := true } .idle (.notifyAll .notFull)

theorem pushable_iff :
    s.pushable capacity = true ↔ s.dataQueue.length < capacity ∨ s.running = false := by
  simp [Shared.pushable]

theorem poppable_iff : s.poppable = true ↔ s.dataQueue ≠ [] ∨ s.running = false := by
  simp [Shared.poppable]

theorem step_move (h : step capacity s p x = some (s', p', e)) : Move capacity s p x s' p' e := by
  cases p <;> cases x <;> simp only [step, reduceCtorEq] at h
  case pushPred.go v =>
    split at h
    · rename_i hp; cases h; exact .pushPass (pushable_iff.1 hp)
    · rename_i hp; cases h
      rw [pushable_iff, not_or, not_lt, Bool.not_eq_false] at hp
      exact .pushFail hp.1 hp.2
  case pushGate.go v =>
    split at h
    · rename_i hr; cases h; exact .pushRefuse (by simpa using hr)
    · rename_i hr; cases h; exact .pushGo (by simpa using hr)
  case popPred.go w =>
    split at h
    · rename_i hp; cases h; exact .popPass (poppable_iff.1 hp)
    · rename_i hp; cases h
      rw [poppable_iff, not_or, not_not, Bool.not_eq_false] at hp
      exact .popFail hp.1 hp.2
  case popWoken.expire w b =>
    cases w <;> simp only [reduceCtorEq] at h
    cases h; exact .popExpire
  case popLast.go =>
    split at h
    · rename_i hp; cases h; exact .popLastPass (poppable_iff.1 hp)
    · rename_i hp; cases h
      rw [poppable_iff, not_or, not_not, Bool.not_eq_false] at hp
      exact .popTimeout hp.1 hp.2
  case popReady.go =>
    split at h
    · rename_i he; cases h; exact .popUnready (List.isEmpty_iff.1 he)
    · rename_i he; cases h; exact .popReady fun hnil => he (List.isEmpty_iff.2 hnil)
  case popGate.go w =>
    split at h
    · rename_i hg; cases h; exact .popRefuse (by simpa using hg)
    · rename_i hg; cases h
      rw [Bool.or_eq_true, not_or, Bool.not_eq_true', Bool.not_eq_false, List.isEmpty_iff] at hg
      exact .popGo hg.1 hg.2
  case popTake.go w =>
    split at h
    · rename_i hq; cases h; exact .popTake hq
    · simp at h
  all_goals cases h; constructor

/-! ## The critical sections -/

/-- The control points at which a thread holds the mutex. -/
def Pc.inside : Pc T → Bool
  | .pushPred _ | .pushWait _ | .pushGate _ | .pushStore _ | .pushNotify _ | .pushExit _ _ => true
  | .popPred _ | .popWait _ | .popLast | .popReady | .popGate _ | .popTake _ => true
  | .popNotify _ _ | .popExit _ _ => true
  | _ => false

/-- What a notification does to a thread. -/
theorem wake_inv {v : Cv} {q' : Pc T} (h : wake v q = some q') :
    (∃ x, v = .notFull ∧ q = .pushAsleep x ∧ q' = .pushWoken x true) ∨
      ∃ w, v = .notEmpty ∧ q = .popAsleep w ∧ q' = .popWoken w true := by
  cases v <;> cases q <;> simp only [wake, reduceCtorEq, Option.some.injEq] at h
  · exact .inr ⟨_, rfl, rfl, h.symm⟩
  · exact .inl ⟨_, rfl, rfl, h.symm⟩

theorem locked (capacity : ℕ) : (prog ι T capacity).Locked Pc.inside where
  start _ := rfl
  step h := by
    cases step_move h with
    | popPass => rename_i w _; cases w <;> rfl
    | _ => first | rfl | exact ⟨rfl, rfl⟩
  wake := by
    intro v q q' h
    rcases wake_inv h with ⟨x, -, rfl, rfl⟩ | ⟨w, -, rfl, rfl⟩
    · rfl
    · rfl

/-- Another thread's step leaves a thread where it is or wakes it up. -/
theorem woken_eq [DecidableEq ι] (capacity : ℕ) (e : Effect ι Cv) (i : ι) (q : Pc T) :
    (prog ι T capacity).woken e i q = q ∨
      (∃ v, (prog ι T capacity).woken e i q = .pushWoken v true) ∨
      ∃ w, (prog ι T capacity).woken e i q = .popWoken w true := by
  rcases (prog ι T capacity).woken_cases e i q with heq | ⟨v, hv⟩
  · exact .inl heq
  · rcases wake_inv hv with ⟨x, -, -, hx⟩ | ⟨w, -, -, hw⟩
    · exact .inr (.inl ⟨x, hx⟩)
    · exact .inr (.inr ⟨w, hw⟩)

/-- Outside the critical sections the contents are not touched. -/
theorem Move.frame (hm : Move capacity s p x s' p' e) (h : p.inside = false) :
    s'.dataQueue = s.dataQueue ∧ s'.accepted = s.accepted ∧ s'.delivered = s.delivered := by
  cases hm with
  | pushStore | popTake _ => simp [Pc.inside] at h
  | _ => exact ⟨rfl, rfl, rfl⟩

/-- Once stopped, a queue stays stopped. -/
theorem Move.stopped (hm : Move capacity s p x s' p' e) (h : s.running = false) :
    s'.running = false := by
  cases hm with
  | stopFlag => rfl
  | _ => exact h

end BackendTasks.BlockingQueue
