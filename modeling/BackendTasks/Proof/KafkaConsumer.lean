import BackendTasks.Spec.AsyncKafkaConsumer
import BackendTasks.Sched.Fifo

/-!
# The consumer hands over every message once

`Move` says what a step can do to the queue and its history (`step_move`): only the worker puts
something in, and only a `poll_message` takes something out, which it then returns.

* `delivers_once`: what was returned, what is in the queue and what the worker holds are
  the payloads consumed, in order, and none of them is empty.
-/

namespace BackendTasks.AsyncKafkaConsumer

open Net Sched

variable {ι : Type*} {s s' : Shared} {p p' q : Pc} {x : Choice ι} {e : Effect ι Unit}

/-- The payload the worker holds. -/
def Pc.held : Pc → List Bytes
  | .lock payload | .push payload => [payload]
  | _ => []

/-- The control points of the worker. -/
def Pc.isWorker : Pc → Bool
  | .test | .consume | .lock _ | .push _ | .unlock | .notify | .done => true
  | _ => false

/-- What a step does to the queue and its history. -/
inductive Move (s : Shared) : Pc → Shared → Pc → Prop
  | consume {outcome : Outcome} {p' : Pc} : p'.held = outcome.payload.toList → p'.isWorker = true →
      Move s .consume { s with outcomes := s.outcomes ++ [outcome] } p'
  | push {payload : Bytes} :
      Move s (.push payload)
        { s with queue := s.queue ++ [payload], accepted := s.accepted ++ [payload] } .unlock
  | take {msg : Bytes} {rest : List Bytes} : s.queue = msg :: rest →
      Move s .pollTake { s with queue := rest, taken := s.taken ++ [msg] } (.pollExit (some msg))
  | other {p : Pc} {s' : Shared} {p' : Pc} : s'.queue = s.queue → s'.accepted = s.accepted →
      s'.taken = s.taken → s'.outcomes = s.outcomes → p'.held = p.held → p'.isWorker = p.isWorker →
      (∀ msg, p' ≠ .pollExit (some msg)) → Move s p s' p'

theorem step_move (h : step s p x = some (s', p', e)) : Move s p s' p' := by
  cases p <;> cases x <;> simp only [step, reduceCtorEq] at h
  case consume.consume outcome =>
    split at h
    · rename_i payload hpayload
      cases h
      exact .consume (by rw [hpayload]; rfl) rfl
    · rename_i hpayload
      cases h
      exact .consume (by rw [hpayload]; rfl) rfl
  case push.go =>
    cases h
    exact .push
  case pollTake.go =>
    split at h
    · rename_i msg rest hqueue
      cases h
      exact .take hqueue
    · cases h
      exact .other rfl rfl rfl rfl rfl rfl nofun
  case idle.stop =>
    split at h
    · cases h
      exact .other rfl rfl rfl rfl rfl rfl nofun
    · split at h
      · simp at h
      · cases h
        exact .other rfl rfl rfl rfl rfl rfl nofun
  case stopJoin.go =>
    split at h
    · cases h
      exact .other rfl rfl rfl rfl rfl rfl nofun
    · simp at h
  case pollTest.go | pollPred.go | pollLast.go | test.go =>
    split at h
    all_goals
      cases h
      exact .other rfl rfl rfl rfl rfl rfl nofun
  all_goals
    cases h
    exact .other rfl rfl rfl rfl rfl rfl nofun

/-! ## The queue -/

/-- The queue as an abstract one. -/
def fifo (s : Shared) : Fifo Bytes := ⟨s.queue, s.accepted, s.taken⟩

theorem Move.fifo (hm : Move s p s' p') :
    fifo s' = fifo s ∨ Fifo.Step (fun _ => True) (fifo s) (fifo s') := by
  cases hm with
  | consume => exact .inl rfl
  | push => exact .inr (.enq _ _ trivial)
  | take hqueue =>
    right
    rw [AsyncKafkaConsumer.fifo, hqueue]
    exact .deq ..
  | other hqueue haccepted htaken =>
    left
    rw [AsyncKafkaConsumer.fifo, hqueue, haccepted, htaken]
    rfl

variable [DecidableEq ι] [Fintype ι] {worker : ι} {c c' : State ι}

theorem fifo_run (h : (prog worker).lts.Reach c) :
    Fifo.Run (fun _ => True) Fifo.empty (fifo c.sh) :=
  Prog.simulate fifo (fun _ hs => (step_move hs).fifo) h

/-! ## The worker -/

theorem wake_inv {v : Unit} {q' : Pc} (h : wake v q = some q') :
    q = .pollAsleep ∧ q' = .pollWoken true := by
  cases q <;> simp only [wake, reduceCtorEq, Option.some.injEq] at h
  exact ⟨rfl, h.symm⟩

omit [Fintype ι] in
theorem woken_held (e : Effect ι Unit) (i : ι) (q : Pc) :
    ((prog worker).woken e i q).held = q.held := by
  rcases (prog worker).woken_cases e i q with heq | ⟨v, hw⟩
  · rw [heq]
  · obtain ⟨rfl, hq⟩ := wake_inv hw
    rw [hq]; rfl

theorem Move.isWorker (hm : Move s p s' p') : p'.isWorker = p.isWorker := by
  cases hm with
  | consume _ hworker => exact hworker
  | push | take _ => rfl
  | other _ _ _ _ _ hworker => exact hworker

theorem isWorker_iff (h : (prog worker).lts.Reach c) (i : ι) :
    (c.pc i).isWorker = true ↔ i = worker := by
  have hconst := Prog.feature_const (M := prog worker) Pc.isWorker (fun hs => (step_move hs).isWorker)
    (fun hw => by obtain ⟨rfl, rfl⟩ := wake_inv hw; rfl) h i
  have hstart : ((prog worker).start i).isWorker = decide (i = worker) := by
    by_cases hi : i = worker
    · simp [prog, hi, Pc.isWorker]
    · simp [prog, hi, Pc.isWorker]
  rw [hconst, hstart, decide_eq_true_iff]

/-- What was pushed and what the worker holds, against what `consume` gave. -/
def Accounted (s : Shared) (p : Pc) : Prop := s.accepted ++ p.held = s.outcomes.filterMap Outcome.payload

/-- A step of the worker. -/
theorem Accounted.own (h : Accounted s p) (hm : Move s p s' p') : Accounted s' p' := by
  unfold Accounted at h ⊢
  cases hm with
  | consume hheld =>
    simp only [Pc.held, List.append_nil] at h
    rw [List.filterMap_append, ← h, hheld]
    cases hp : Outcome.payload _ <;> simp [hp]
  | push => simpa [Pc.held] using h
  | take _ => exact h
  | other _ haccepted _ houtcomes hheld => rw [haccepted, houtcomes, hheld]; exact h

/-- A step of another thread. -/
theorem Accounted.other (h : Accounted s q) (hm : Move s p s' p') (hp : p.isWorker = false) :
    Accounted s' q := by
  unfold Accounted at h ⊢
  cases hm with
  | consume _ _ => simp [Pc.isWorker] at hp
  | push => simp [Pc.isWorker] at hp
  | take _ => exact h
  | other _ haccepted _ houtcomes _ => rw [haccepted, houtcomes]; exact h

theorem accounted (h : (prog worker).lts.Reach c) : Accounted c.sh (c.pc worker) := by
  refine h.invariant (I := fun c => Accounted c.sh (c.pc worker)) ?_ ?_
  · simp [Accounted, Prog.lts, prog, construct, Pc.held]
  intro c a c' hc ih _ he
  obtain ⟨s, p, e, hs, -, rfl⟩ := Prog.next_inv he
  have hm := step_move hs
  by_cases ha : worker = a.1
  · subst ha
    simpa using ih.own hm
  · have hnot : (c.pc a.1).isWorker = false := by
      simpa only [Bool.not_eq_true] using mt (isWorker_iff hc a.1).1 (Ne.symm ha)
    simpa [Accounted, ha, woken_held] using ih.other hm hnot

theorem payload_ne_nil {outcome : Outcome} {msg : Bytes} (h : outcome.payload = some msg) :
    msg ≠ [] := by
  cases outcome with
  | message payload =>
    cases payload with
    | none => simp [Outcome.payload] at h
    | some payload =>
      simp only [Outcome.payload] at h
      split at h
      · simp at h
      · rename_i hne
        rwa [← Option.some.inj h]
  | timedOut | partitionEof | error => simp [Outcome.payload] at h

/-! ## The pollers -/

/-- What a step does to the queue when a `poll_message` leaves it, and when none does. -/
theorem Move.poll (hm : Move s p s' p') :
    (∀ r, p' = .pollExit r → s.queue = r.toList ++ s'.queue ∧ s'.taken = s.taken ++ r.toList) ∧
    ((∀ r, p' ≠ .pollExit r) → s'.taken = s.taken) := by
  cases hm with
  | consume _ hworker =>
    refine ⟨?_, fun _ => rfl⟩
    rintro r rfl
    simp [Pc.isWorker] at hworker
  | push => exact ⟨nofun, fun _ => rfl⟩
  | take hqueue =>
    refine ⟨?_, fun hno => absurd rfl (hno _)⟩
    rintro r hr
    cases hr
    exact ⟨hqueue, rfl⟩
  | other hqueue _ htaken _ _ _ hnone =>
    refine ⟨?_, fun _ => htaken⟩
    rintro r rfl
    cases r with
    | none => simp [hqueue, htaken]
    | some msg => exact absurd rfl (hnone msg)

/-- **Every message is handed over once.** What `poll_message` took out, what is in the queue and
what the worker holds are the payloads consumed, in order; a `poll_message` takes out what it
returns, and what it returns is empty only if that is nothing. -/
theorem delivers_once (h : (prog worker).lts.Reach c) :
    c.sh.taken.filter (· ≠ []) ++ c.sh.queue ++ (c.pc worker).held =
      c.sh.outcomes.filterMap Outcome.payload ∧
    ∀ act c', (prog worker).lts.step c act = some c' →
      (∀ r, c'.pc act.1 = .pollExit r →
        c.sh.queue = r.toList ++ c'.sh.queue ∧ c'.sh.taken = c.sh.taken ++ r.toList ∧
        (r.getD [] = [] → r = none)) ∧
      ((∀ r, c'.pc act.1 ≠ .pollExit r) → c'.sh.taken = c.sh.taken) := by
  have hcons : c.sh.taken ++ c.sh.queue = c.sh.accepted := (fifo_run h).conserved
  have hacc : c.sh.accepted ++ _ = _ := accounted h
  rw [← hcons] at hacc
  -- nothing empty is ever pushed
  have hne : ∀ msg ∈ c.sh.taken ++ c.sh.queue, msg ≠ [] := by
    intro msg hmsg
    have hmem : msg ∈ c.sh.outcomes.filterMap Outcome.payload := by
      rw [← hacc]; exact List.mem_append_left _ hmsg
    obtain ⟨outcome, -, hpay⟩ := List.mem_filterMap.1 hmem
    exact payload_ne_nil hpay
  refine ⟨?_, fun act c' hstep => ?_⟩
  · rw [List.filter_eq_self.2 fun msg hmsg => by simpa using hne msg (List.mem_append_left _ hmsg)]
    exact hacc
  obtain ⟨s, p, e, hs, -, rfl⟩ := Prog.next_inv hstep
  obtain ⟨hexit, hkeep⟩ := (step_move hs).poll
  simp only [if_true]
  refine ⟨fun r hr => ?_, hkeep⟩
  obtain ⟨hqueue, htaken⟩ := hexit r hr
  refine ⟨hqueue, htaken, fun hempty => ?_⟩
  cases r with
  | none => rfl
  | some msg =>
    refine absurd hempty (hne msg (List.mem_append_right _ ?_))
    rw [hqueue]
    exact List.mem_cons_self

/-- A message without payload, an empty one, a timeout and two payloads; one of these is polled after
a poll that found nothing, and the worker holds the other. -/
theorem delivers_once_two : ∃ c : State (Fin 2), (prog (ι := Fin 2) 0).lts.Reach c ∧
    c.sh.outcomes = [.message none, .message (some []), .timedOut, .message (some [1]),
      .message (some [2])] ∧
    c.pc 1 = .pollExit (some [1]) ∧ (c.pc 0).held = [[2]] ∧
    c.sh.taken.filter (· ≠ []) ++ c.sh.queue ++ (c.pc 0).held =
      c.sh.outcomes.filterMap Outcome.payload := by
  obtain ⟨c, hc, hres⟩ := Lts.exists_reachIf (prog (ι := Fin 2) 0).lts (fun _ _ => True)
    [(0, .go), (0, .consume (.message none)), (0, .go), (0, .consume (.message (some []))),
      (1, .poll), (1, .go), (1, .go), (1, .go), (1, .go), (1, .wakeUp), (1, .expire), (1, .go), (1, .go),
      (0, .go), (0, .consume .timedOut), (0, .go), (0, .consume (.message (some [1]))),
      (0, .go), (0, .go), (0, .go), (0, .notify none), (0, .go), (0, .consume (.message (some [2]))),
      (1, .poll), (1, .go), (1, .go), (1, .go), (1, .go)]
    (fun c => c.sh.outcomes == [.message none, .message (some []), .timedOut, .message (some [1]),
      .message (some [2])] && c.pc 1 == .pollExit (some [1]) && (c.pc 0).held == [[2]]) (by decide)
  simp only [Bool.and_eq_true, beq_iff_eq] at hres
  exact ⟨c, hc, hres.1.1, hres.1.2, hres.2, (delivers_once hc).1⟩

end BackendTasks.AsyncKafkaConsumer
