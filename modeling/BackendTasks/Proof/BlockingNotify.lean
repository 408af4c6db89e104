import BackendTasks.Proof.BlockingFifo
import BackendTasks.Sched.Potential

/-!
# One notification per element is enough

Each `push` notifies one consumer and each `pop` one producer. While nobody stops the
queue, the elements in it are covered by threads on their way to one: consumers that were
notified or are past the sleep, and a producer that has stored its value and not notified yet
(`toPop`). Likewise for the free places and `toPush`.

* `one_notification_suffices`: with the mutex free, if a consumer is asleep there are at
  least as many notified consumers as elements, and if a producer is asleep at least as
  many notified producers as free places.
-/

namespace BackendTasks.BlockingQueue

open Sched

variable {ι T : Type*} {capacity : ℕ} {s s' : Shared T} {p p' q : Pc T} {x : Choice ι T}
  {e : Effect ι Cv}

/-! ## Runs without `stop` -/

/-- The call is not a `stop`. -/
def Choice.keepsRunning : Choice ι T → Bool
  | .stop => false
  | _ => true

/-- No `stop` is called. -/
def NoStop (_ : State ι T) (act : ι × Choice ι T) : Prop := act.2.keepsRunning = true

instance (c : State ι T) (act : ι × Choice ι T) : Decidable (NoStop c act) :=
  inferInstanceAs (Decidable (act.2.keepsRunning = true))

/-- The control points outside `stop`. -/
def Pc.outsideStop : Pc T → Bool
  | .stopFlag | .stopEmpty | .stopFull => false
  | _ => true

/-- Nobody is in `stop`, and the queue is running. -/
def Running (s : Shared T) (p : Pc T) : Prop := s.running = true ∧ p.outsideStop = true

theorem Running.own (h : Running s p) (hm : Move capacity s p x s' p' e)
    (hx : x.keepsRunning = true) : Running s' p' := by
  obtain ⟨hrun, hout⟩ := h
  cases hm with
  | callStop => simp [Choice.keepsRunning] at hx
  | stopFlag | stopEmpty | stopFull => simp [Pc.outsideStop] at hout
  | popPass => rename_i w _; cases w <;> exact ⟨hrun, rfl⟩
  | _ => exact ⟨hrun, rfl⟩

/-! ## The two balances -/

/-- A thread on its way to take an element, or to notify one that will. -/
def Pc.toPop : Pc T → ℕ
  | .popWoken _ true | .popPred _ | .popLast | .popReady | .popGate _ | .popTake _ => 1
  | .pushNotify _ => 1
  | _ => 0

/-- A thread on its way to fill a free place, or to notify one that will. -/
def Pc.toPush : Pc T → ℕ
  | .pushWoken _ true | .pushPred _ | .pushGate _ | .pushStore _ => 1
  | .popNotify _ _ => 1
  | _ => 0

/-- A step adds an element only with a thread on its way to it. -/
theorem pop_balance (hm : Move capacity s p x s' p' e) (hT : ThreadOK capacity s p)
    (hrun : s.running = true) : s'.dataQueue.length = 0 ∨ (wake .notEmpty p' = none ∧
      s'.dataQueue.length + p.toPop ≤ s.dataQueue.length + p'.toPop + Prog.charge .notEmpty e) := by
  cases hm with
  | pushStore =>
    refine .inr ⟨rfl, ?_⟩
    simp only [Shared.store, List.length_append, List.length_singleton, Pc.toPop, Prog.charge]
    omega
  | popPass =>
    rename_i w _
    cases w <;> exact .inr ⟨rfl, by simp [Pc.toPop, Prog.charge]⟩
  | popFail hnil _ => exact .inl (by rw [hnil]; rfl)
  | popSleep => exact .inl (by rw [show s.dataQueue = [] from hT]; rfl)
  | popRelock | popExpire =>
    rename_i b
    cases b <;> exact .inr ⟨rfl, by simp [Pc.toPop, Prog.charge]⟩
  | popTimeout hnil _ => exact .inl (by rw [hnil]; rfl)
  | popUnready hnil => exact .inl (by rw [hnil]; rfl)
  | popRefuse hg =>
    have hnil := hg.resolve_left (by rw [hrun]; decide)
    exact .inl (by rw [hnil]; rfl)
  | popTake hq =>
    refine .inr ⟨rfl, ?_⟩
    rw [hq]
    simp [Pc.toPop, Prog.charge]
  | pushRelock => rename_i v b; cases b <;> exact .inr ⟨rfl, by simp [Pc.toPop, Prog.charge]⟩
  | _ => exact .inr ⟨rfl, by simp [Pc.toPop, Prog.charge]⟩

/-- A step frees a place only with a thread on its way to it. -/
theorem push_balance (hm : Move capacity s p x s' p' e) (hT : ThreadOK capacity s p)
    (hrun : s.running = true) : capacity - s'.dataQueue.length = 0 ∨ (wake .notFull p' = none ∧
      capacity - s'.dataQueue.length + p.toPush ≤
        capacity - s.dataQueue.length + p'.toPush + Prog.charge .notFull e) := by
  cases hm with
  | pushFail hfull _ => exact .inl (by omega)
  | pushSleep =>
    have hfull : capacity ≤ s.dataQueue.length := hT
    exact .inl (by omega)
  | pushRelock => rename_i v b; cases b <;> exact .inr ⟨rfl, by simp [Pc.toPush, Prog.charge]⟩
  | pushRefuse hr => rw [hrun] at hr; simp at hr
  | pushStore =>
    have hroom : s.dataQueue.length < capacity := hT
    refine .inr ⟨rfl, ?_⟩
    simp only [Shared.store, List.length_append, List.length_singleton, Pc.toPush, Prog.charge]
    omega
  | popPass =>
    rename_i w _
    cases w <;> exact .inr ⟨rfl, by simp [Pc.toPush, Prog.charge]⟩
  | popTake hq =>
    refine .inr ⟨rfl, ?_⟩
    rw [hq]
    simp only [List.length_cons, Pc.toPush, Prog.charge]
    omega
  | _ => exact .inr ⟨rfl, by simp [Pc.toPush, Prog.charge]⟩

/-! ## Every run -/

variable [DecidableEq ι] [Fintype ι] {c : State ι T}

theorem running_of_noStop (h : (prog ι T capacity).lts.ReachIf NoStop c) :
    ∀ i, Running c.sh (c.pc i) := by
  refine Prog.local_invariant (locked capacity) Running (fun _ => ⟨rfl, rfl⟩) ?_ ?_ h
  · intro c t x s p e _ hok hs hL
    exact hL.own (step_move hs) hok
  · intro c t x s p e i _ hok hs hLt _ _ hL
    have hrun := (hLt.own (step_move hs) hok).1
    rcases woken_eq capacity e i (c.pc i) with heq | ⟨v, heq⟩ | ⟨w, heq⟩
    · rw [heq]; exact ⟨hrun, hL.2⟩
    · rw [heq]; exact ⟨hrun, rfl⟩
    · rw [heq]; exact ⟨hrun, rfl⟩

/-- While a consumer is asleep, the elements are covered. -/
theorem elements_covered (h : (prog ι T capacity).lts.ReachIf NoStop c)
    (hi : ∃ i, (wake .notEmpty (c.pc i)).isSome = true) :
    c.sh.dataQueue.length ≤ total Pc.toPop c.pc := by
  refine Prog.notify_one_suffices (M := prog ι T capacity) .notEmpty
    (fun s => s.dataQueue.length) Pc.toPop (fun _ => rfl) ?_ ?_ ?_ h hi
  · intro u q q' hq
    rcases wake_inv hq with ⟨v, -, rfl, rfl⟩ | ⟨w, -, rfl, rfl⟩
    · exact ⟨Nat.zero_le _, rfl⟩
    · exact ⟨Nat.zero_le _, rfl⟩
  · intro q q' hq
    rcases wake_inv hq with ⟨v, hv, rfl, rfl⟩ | ⟨w, hw, rfl, rfl⟩
    · simp at hv
    · exact Nat.one_pos
  · intro c t x s p e hc _ hs
    exact pop_balance (step_move hs) (thread_ok hc t) (running_of_noStop hc t).1

/-- While a producer is asleep, the free places are covered. -/
theorem places_covered (h : (prog ι T capacity).lts.ReachIf NoStop c)
    (hi : ∃ i, (wake .notFull (c.pc i)).isSome = true) :
    capacity - c.sh.dataQueue.length ≤ total Pc.toPush c.pc := by
  refine Prog.notify_one_suffices (M := prog ι T capacity) .notFull
    (fun s => capacity - s.dataQueue.length) Pc.toPush (fun _ => rfl) ?_ ?_ ?_ h hi
  · intro u q q' hq
    rcases wake_inv hq with ⟨v, -, rfl, rfl⟩ | ⟨w, -, rfl, rfl⟩
    · exact ⟨Nat.zero_le _, rfl⟩
    · exact ⟨Nat.zero_le _, rfl⟩
  · intro q q' hq
    rcases wake_inv hq with ⟨v, hv, rfl, rfl⟩ | ⟨w, hw, rfl, rfl⟩
    · exact Nat.one_pos
    · simp at hw
  · intro c t x s p e hc _ hs
    exact push_balance (step_move hs) (thread_ok hc t) (running_of_noStop hc t).1

/-! ## With the mutex free -/

/-- A consumer that was notified and has not locked the mutex again. -/
def Pc.notifiedConsumer : Pc T → Bool
  | .popWoken _ notified => notified
  | _ => false

/-- A producer that was notified and has not locked the mutex again. -/
def Pc.notifiedProducer : Pc T → Bool
  | .pushWoken _ notified => notified
  | _ => false

/-- With the mutex free, all threads are outside the critical sections, where a weight that
counts only `φ` there counts the threads in `φ`. -/
theorem total_free {ok : State ι T → ι × Choice ι T → Prop}
    (h : (prog ι T capacity).lts.ReachIf ok c) (hfree : c.owner = none) (w : Pc T → ℕ)
    (φ : Pc T → Bool) (hw : ∀ p, p.inside = false → w p = (φ p).toNat) : total w c.pc = count φ c.pc := by
  rw [count_eq_total]
  refine Finset.sum_congr rfl fun i _ => hw _ ?_
  by_contra hin
  rw [Bool.not_eq_false, (locked capacity).excl h i, hfree] at hin
  simp at hin

theorem toPop_outside (p : Pc T) (h : p.inside = false) : p.toPop = p.notifiedConsumer.toNat := by
  cases p with
  | popWoken w b => cases b <;> rfl
  | _ => first | rfl | simp [Pc.inside] at h

theorem toPush_outside (p : Pc T) (h : p.inside = false) : p.toPush = p.notifiedProducer.toNat := by
  cases p with
  | pushWoken v b => cases b <;> rfl
  | _ => first | rfl | simp [Pc.inside] at h

/-- **One notification is enough.** Along runs without `stop`, in a state with the mutex free: if
a consumer is asleep, there are at most as many elements as consumers that were notified and
have not locked the mutex again; if a producer is asleep, there are at most as many free
places as such producers. So if one of each is asleep and no thread is notified, some thread
holds the mutex. -/
theorem one_notification_suffices (hcap : 1 ≤ capacity)
    (h : (prog ι T capacity).lts.ReachIf NoStop c) :
    (c.owner = none →
      ((∃ i w, c.pc i = .popAsleep w) → c.sh.dataQueue.length ≤ count Pc.notifiedConsumer c.pc) ∧
      ((∃ i v, c.pc i = .pushAsleep v) →
        capacity - c.sh.dataQueue.length ≤ count Pc.notifiedProducer c.pc)) ∧
    ((∃ i w, c.pc i = .popAsleep w) → (∃ i v, c.pc i = .pushAsleep v) →
      count Pc.notifiedConsumer c.pc = 0 → count Pc.notifiedProducer c.pc = 0 → c.owner ≠ none) := by
  have hconsumers : c.owner = none → (∃ i w, c.pc i = .popAsleep w) →
      c.sh.dataQueue.length ≤ count Pc.notifiedConsumer c.pc := by
    rintro hfree ⟨i, w, hi⟩
    rw [← total_free h hfree Pc.toPop _ toPop_outside]
    exact elements_covered h ⟨i, by rw [hi]; rfl⟩
  have hproducers : c.owner = none → (∃ i v, c.pc i = .pushAsleep v) →
      capacity - c.sh.dataQueue.length ≤ count Pc.notifiedProducer c.pc := by
    rintro hfree ⟨i, v, hi⟩
    rw [← total_free h hfree Pc.toPush _ toPush_outside]
    exact places_covered h ⟨i, by rw [hi]; rfl⟩
  refine ⟨fun hfree => ⟨hconsumers hfree, hproducers hfree⟩, fun hpop hpush hno hno' hfree => ?_⟩
  have h₁ := hconsumers hfree hpop
  have h₂ := hproducers hfree hpush
  omega

/-- Two consumers asleep and one element pushed: one consumer is notified. -/
theorem one_notification_suffices_two : ∃ c : State (Fin 3) ℕ,
    (prog (Fin 3) ℕ 1).lts.ReachIf NoStop c ∧ c.sh.dataQueue.length = 1 ∧
    c.pc 1 = .popAsleep true ∧ c.sh.dataQueue.length ≤ count Pc.notifiedConsumer c.pc := by
  obtain ⟨c, hc, hres⟩ := Lts.exists_reachIf (prog (Fin 3) ℕ 1).lts NoStop
    ((0, .pop) :: go 0 3 ++ (1, .pop) :: go 1 3 ++
      (2, .push 7) :: go 2 4 ++ (2, .notify (some 0)) :: go 2 1)
    (fun c => c.sh.dataQueue.length == 1 && c.pc 1 == .popAsleep true && c.owner.isNone) (by decide)
  simp only [Bool.and_eq_true, beq_iff_eq, Option.isNone_iff_eq_none] at hres
  obtain ⟨⟨hlen, hasleep⟩, hfree⟩ := hres
  exact ⟨c, hc, hlen, hasleep, ((one_notification_suffices le_rfl hc).1 hfree).1 ⟨1, true, hasleep⟩⟩

end BackendTasks.BlockingQueue
