import BackendTasks.Sched.Lts
import Mathlib.Data.Fintype.Basic

/-!
# Threads that share a state, a mutex and condition variables

A program gives the next step of a thread from the shared state and the thread's
control point. A step may also lock or unlock the mutex or notify a condition
variable (`Effect`); which of the blocked threads `notify_one` reaches is part of
the step's label. Any number of threads run interleaved, one step at a time
(`Prog.lts`).

* `simulate`: the steps of the threads against an abstraction of the shared state.
* `plain_inv`, `plain_invariant`, `plain_settle`: the rules for programs that lock and notify
  nothing.
* `excl`: if the program's control points say correctly where the mutex is held
  (`Prog.Locked`), at most one thread is in its critical section.
* `local_invariant`: a property of the shared state and one control point holds
  for every thread if the thread's own steps keep it and the others' steps do
  not disturb it.
-/

namespace BackendTasks.Sched

/-- What a step does besides changing the shared state. -/
inductive Effect (ι V : Type*)
  | tau
  | acquire
  | release
  | notifyOne (v : V) (pick : Option ι)
  | notifyAll (v : V)

namespace Effect

variable {ι V : Type*}

/-- The owner of the mutex after a step of thread `t`. -/
def owner (t : ι) (o : Option ι) : Effect ι V → Option ι
  | .acquire => some t
  | .release => none
  | _ => o

/-- The control points before and after a step stand outside and inside the
critical section as its effect says. -/
def Brackets (before after : Bool) : Effect ι V → Prop
  | .acquire => after = true
  | .release => before = true ∧ after = false
  | _ => after = before

end Effect

/-- A program over shared states `S`, control points `P` and choices `C`. A thread
whose control point `p` has `wake v p = some q` is blocked on the condition variable
`v` and is at `q` once notified. -/
structure Prog (ι V S P C : Type*) where
  init : S
  start : ι → P
  step : ι → S → P → C → Option (S × P × Effect ι V)
  wake : V → P → Option P

/-- A state of the threads together. -/
structure Conf (ι S P : Type*) where
  owner : Option ι
  sh : S
  pc : ι → P

namespace Prog

variable {ι V S P C : Type*} [DecidableEq ι] [Fintype ι] (M : Prog ι V S P C)

/-- Where a thread `i` at `q` is after a step of another thread with effect `e`. -/
def woken (e : Effect ι V) (i : ι) (q : P) : P :=
  match e with
  | .notifyOne v (some j) => if i = j then (M.wake v q).getD q else q
  | .notifyAll v => (M.wake v q).getD q
  | _ => q

/-- Whether thread `t` can take a step with this effect now. The mutex is locked only
when it is free, and `notify_one` reaches a blocked thread unless there is none. -/
def Enabled (c : Conf ι S P) (t : ι) : Effect ι V → Prop
  | .acquire => c.owner = none
  | .notifyOne v (some j) => j ≠ t ∧ (M.wake v (c.pc j)).isSome = true
  | .notifyOne v none => ∀ i, i ≠ t → (M.wake v (c.pc i)).isSome = false
  | _ => True

instance (c : Conf ι S P) (t : ι) : (e : Effect ι V) → Decidable (M.Enabled c t e)
  | .acquire => decEq c.owner none
  | .notifyOne v (some j) => inferInstanceAs (Decidable (j ≠ t ∧ (M.wake v (c.pc j)).isSome = true))
  | .notifyOne v none =>
    inferInstanceAs (Decidable (∀ i, i ≠ t → (M.wake v (c.pc i)).isSome = false))
  | .tau | .release | .notifyAll _ => .isTrue trivial

/-- One step of thread `a.1` with choice `a.2`. -/
def next (c : Conf ι S P) (a : ι × C) : Option (Conf ι S P) :=
  (M.step a.1 c.sh (c.pc a.1) a.2).bind fun r =>
    if M.Enabled c a.1 r.2.2 then
      some ⟨r.2.2.owner a.1 c.owner, r.1,
        fun i => if i = a.1 then r.2.1 else M.woken r.2.2 i (c.pc i)⟩
    else none

/-- All threads at their start, the mutex free. -/
def lts : Lts (Conf ι S P) (ι × C) where
  init := ⟨none, M.init, M.start⟩
  step := M.next

variable {M} {c c' : Conf ι S P} {a : ι × C} {e : Effect ι V} {t i : ι} {p q : P} {s : S}

/-- **What a step of the threads together can do.** -/
theorem next_inv (h : M.lts.step c a = some c') :
    ∃ s p e, M.step a.1 c.sh (c.pc a.1) a.2 = some (s, p, e) ∧ M.Enabled c a.1 e ∧
      c' = ⟨e.owner a.1 c.owner, s, fun i => if i = a.1 then p else M.woken e i (c.pc i)⟩ := by
  change M.next c a = some c' at h
  obtain ⟨⟨s, p, e⟩, hs, h⟩ := Option.bind_eq_some_iff.1 h
  split at h
  · rename_i hen
    exact ⟨s, p, e, hs, hen, (Option.some.inj h).symm⟩
  · simp at h

/-- A step that the program offers and that is enabled is taken. -/
theorem next_of {x : C} (hs : M.step t c.sh (c.pc t) x = some (s, p, e)) (hen : M.Enabled c t e) :
    M.lts.step c (t, x) =
      some ⟨e.owner t c.owner, s, fun i => if i = t then p else M.woken e i (c.pc i)⟩ := by
  change M.next c (t, x) = _
  simp only [next, hs, Option.bind_some, hen, if_true]

/-- So is one without effect, and it moves that thread only. -/
theorem next_tau {x : C} (hs : M.step t c.sh (c.pc t) x = some (s, p, .tau)) :
    M.lts.step c (t, x) = some ⟨c.owner, s, Function.update c.pc t p⟩ := by
  rw [next_of hs trivial]
  congr 2
  funext i
  by_cases hi : i = t
  · subst hi; simp
  · simp [hi, Prog.woken]

omit [DecidableEq ι] [Fintype ι] in
/-- Some thread is notified, or there is none to notify. -/
theorem exists_pick (M : Prog ι V S P C) (c : Conf ι S P) (t : ι) (v : V) :
    ∃ pick, M.Enabled c t (.notifyOne v pick) := by
  by_cases h : ∃ j, j ≠ t ∧ (M.wake v (c.pc j)).isSome = true
  · obtain ⟨j, hj⟩ := h
    exact ⟨some j, hj⟩
  · refine ⟨none, fun i hi => ?_⟩
    by_contra hsome
    exact h ⟨i, hi, by simpa only [Bool.not_eq_false] using hsome⟩

omit [Fintype ι] in
/-- A step moves another thread only by waking it. -/
theorem woken_cases (M : Prog ι V S P C) (e : Effect ι V) (i : ι) (q : P) :
    M.woken e i q = q ∨ ∃ v, M.wake v q = some (M.woken e i q) := by
  have hget : ∀ v, (M.wake v q).getD q = q ∨ M.wake v q = some ((M.wake v q).getD q) := by
    intro v
    cases M.wake v q with
    | none => exact .inl rfl
    | some q' => exact .inr rfl
  unfold woken
  split
  · rename_i v j
    split
    · exact (hget v).imp id fun h => ⟨v, h⟩
    · exact .inl rfl
  · rename_i v
    exact (hget v).imp id fun h => ⟨v, h⟩
  · exact .inl rfl

/-- A feature of the control points that no step and no wakeup changes is each thread's own. -/
theorem feature_const {α : Type*} (φ : P → α) {ok : Conf ι S P → ι × C → Prop}
    (hstep : ∀ {t s p x s' p' e}, M.step t s p x = some (s', p', e) → φ p' = φ p)
    (hwake : ∀ {v q q'}, M.wake v q = some q' → φ q' = φ q) (h : M.lts.ReachIf ok c) :
    ∀ i, φ (c.pc i) = φ (M.start i) := by
  refine h.invariant (I := fun c => ∀ i, φ (c.pc i) = φ (M.start i)) (fun _ => rfl) ?_
  intro c a c' _ ih _ he i
  obtain ⟨s, p, e, hs, -, rfl⟩ := next_inv he
  by_cases hia : i = a.1
  · subst hia
    simp only [if_true, hstep hs, ih]
  · simp only [hia, if_false]
    rcases M.woken_cases e i (c.pc i) with h | ⟨v, h⟩
    · rw [h, ih]
    · rw [hwake h, ih]

/-- **Refinement.** If every step of a thread leaves the abstraction of the shared state alone
or is a step of `R` on it, the abstraction is reached by `R`. -/
theorem simulate {β : Type*} {R : β → β → Prop} {ok : Conf ι S P → ι × C → Prop} (abs : S → β)
    (hstep : ∀ {c t x s p e}, M.lts.ReachIf ok c → M.step t c.sh (c.pc t) x = some (s, p, e) →
      abs s = abs c.sh ∨ R (abs c.sh) (abs s))
    (h : M.lts.ReachIf ok c) : Relation.ReflTransGen R (abs M.init) (abs c.sh) := by
  refine h.simulate (fun c => abs c.sh) fun c a c' hc _ he => ?_
  obtain ⟨s, p, e, hs, -, rfl⟩ := next_inv he
  exact hstep hc hs

/-! ## Programs without mutex

Their steps have no effect besides the change of the shared state. -/

section Plain

variable {f : ι → S → P → C → Option (S × P)} {ok : Conf ι S P → ι × C → Prop}
  (hM : ∀ t s p x, M.step t s p x = (f t s p x).map fun r => (r.1, r.2, .tau))

include hM

theorem plain_inv (h : M.lts.step c a = some c') :
    ∃ s p, f a.1 c.sh (c.pc a.1) a.2 = some (s, p) ∧
      c' = ⟨c.owner, s, Function.update c.pc a.1 p⟩ := by
  obtain ⟨s, p, e, hs, -, rfl⟩ := next_inv h
  rw [hM] at hs
  obtain ⟨⟨s₁, p₁⟩, h₁, h₂⟩ := Option.map_eq_some_iff.1 hs
  cases h₂
  refine ⟨_, _, h₁, ?_⟩
  congr 1
  funext i
  by_cases hi : i = a.1
  · subst hi; simp
  · simp [hi, Prog.woken]

/-- A step that the program offers is taken. -/
theorem plain_of {x : C} (h : f t c.sh (c.pc t) x = some (s, p)) :
    M.lts.step c (t, x) = some ⟨c.owner, s, Function.update c.pc t p⟩ :=
  next_tau (by rw [hM, h]; rfl)

/-- **Non-interference.** A property `G` of the shared state and a property `L` of each thread hold
if a thread's own step keeps both and another thread's step does not disturb `L`. -/
theorem plain_invariant (G : S → Prop) (L : ι → S → P → Prop) (hinit : G M.init)
    (hstart : ∀ i, L i M.init (M.start i))
    (hown : ∀ {c t x s p}, M.lts.ReachIf ok c → ok c (t, x) → f t c.sh (c.pc t) x = some (s, p) →
      G c.sh → L t c.sh (c.pc t) → G s ∧ L t s p)
    (hother : ∀ {c t x s p i}, M.lts.ReachIf ok c → ok c (t, x) →
      f t c.sh (c.pc t) x = some (s, p) → G c.sh → L t c.sh (c.pc t) → i ≠ t → L i c.sh (c.pc i) →
      L i s (c.pc i))
    (h : M.lts.ReachIf ok c) : G c.sh ∧ ∀ i, L i c.sh (c.pc i) := by
  refine h.invariant (I := fun c => G c.sh ∧ ∀ i, L i c.sh (c.pc i)) ⟨hinit, hstart⟩ ?_
  intro c a c' hc ih hok hstep
  obtain ⟨s, p, hs, rfl⟩ := plain_inv hM hstep
  obtain ⟨hG, hL⟩ := hown hc hok hs ih.1 (ih.2 _)
  refine ⟨hG, fun i => ?_⟩
  by_cases hia : i = a.1
  · subst hia
    simpa using hL
  · simp only [Function.update_of_ne hia]
    exact hother hc hok hs ih.1 (ih.2 _) hia (ih.2 i)

/-- **Settling.** If a thread at a control point in `busy` can always go on to `next` by itself, all
such threads can, one after the other. -/
theorem plain_settle (busy : P → Bool) (next : P → P) (R : S → S → Prop) (hrefl : ∀ s, R s s)
    (htrans : ∀ {s₁ s₂ s₃}, R s₁ s₂ → R s₂ s₃ → R s₁ s₃)
    (hgo : ∀ t s p, busy p = true → ∃ x s', f t s p x = some (s', next p) ∧ R s s')
    (c : Conf ι S P) :
    ∃ c', M.lts.Leads c c' ∧ R c.sh c'.sh ∧
      ∀ i, c'.pc i = if busy (c.pc i) = true then next (c.pc i) else c.pc i := by
  have hsome : ∀ F : Finset ι, ∃ c', M.lts.Leads c c' ∧ R c.sh c'.sh ∧
      ∀ i, c'.pc i = if i ∈ F ∧ busy (c.pc i) = true then next (c.pc i) else c.pc i := by
    intro F
    induction F using Finset.induction_on with
    | empty => exact ⟨c, .refl, hrefl _, by simp⟩
    | insert t F ht ih =>
      obtain ⟨c₁, hleads, hR, hpc⟩ := ih
      have hpt : c₁.pc t = c.pc t := by rw [hpc, if_neg (fun h => ht h.1)]
      by_cases hbusy : busy (c.pc t) = true
      · obtain ⟨x, s, hs, hR'⟩ := hgo t c₁.sh (c₁.pc t) (by rw [hpt]; exact hbusy)
        refine ⟨_, hleads.tail ⟨(t, x), plain_of hM hs⟩, htrans hR hR', fun i => ?_⟩
        by_cases hi : i = t
        · subst hi
          simp [hpt, hbusy]
        · simp [hpc, hi]
      · refine ⟨c₁, hleads, hR, fun i => ?_⟩
        by_cases hi : i = t
        · subst hi
          simp [hpt, hbusy]
        · simp [hpc, hi]
  obtain ⟨c', hleads, hR, hpc⟩ := hsome Finset.univ
  exact ⟨c', hleads, hR, fun i => by simpa using hpc i⟩

end Plain

/-! ## Mutual exclusion -/

/-- The control points in `inside` are those at which a thread holds the mutex. -/
structure Locked (M : Prog ι V S P C) (inside : P → Bool) : Prop where
  start : ∀ i, inside (M.start i) = false
  step : ∀ {t s p x s' p' e}, M.step t s p x = some (s', p', e) → e.Brackets (inside p) (inside p')
  wake : ∀ {v q q'}, M.wake v q = some q' → inside q' = inside q

variable {inside : P → Bool} {ok : Conf ι S P → ι × C → Prop}

omit [Fintype ι] in
theorem Locked.woken (hL : M.Locked inside) (e : Effect ι V) (i : ι) (q : P) :
    inside (M.woken e i q) = inside q := by
  rcases M.woken_cases e i q with h | ⟨v, h⟩
  · rw [h]
  · exact hL.wake h

/-- **Mutual exclusion.** A thread is in its critical section exactly when it owns
the mutex. -/
theorem Locked.excl (hL : M.Locked inside) (h : M.lts.ReachIf ok c) :
    ∀ i, inside (c.pc i) = true ↔ c.owner = some i := by
  refine h.invariant (I := fun c => ∀ i, inside (c.pc i) = true ↔ c.owner = some i) ?_ ?_
  · intro i; simp [lts, hL.start i]
  intro c a c' _ ih _ hstep i
  obtain ⟨s, p, e, hs, hen, rfl⟩ := next_inv hstep
  have hb := hL.step hs
  have hi := ih i
  have ha := ih a.1
  by_cases hia : i = a.1
  · subst hia
    cases e <;> simp_all [Effect.Brackets, Effect.owner]
  · simp only [hia, if_false, hL.woken]
    cases e with
    | acquire =>
      have hfree : c.owner = none := hen
      rw [hi, hfree]; simp [Effect.owner, Ne.symm hia]
    | release => rw [hi, ha.1 hb.1]; simp [Effect.owner, Ne.symm hia]
    | tau => exact hi
    | notifyOne v j => exact hi
    | notifyAll v => exact hi

/-! ## Thread-local invariants -/

/-- **Non-interference.** A property `L` of a thread, the shared state and the thread's
control point holds for every thread if it holds at the start, a thread's own step keeps it,
and another thread's step does not disturb it. In the last case the two threads are not
both in their critical sections. -/
theorem thread_invariant (hL : M.Locked inside) (L : ι → S → P → Prop)
    (hstart : ∀ i, L i M.init (M.start i))
    (hown : ∀ {c t x s p e}, M.lts.ReachIf ok c → ok c (t, x) →
      M.step t c.sh (c.pc t) x = some (s, p, e) → L t c.sh (c.pc t) → L t s p)
    (hother : ∀ {c t x s p e i}, M.lts.ReachIf ok c → ok c (t, x) →
      M.step t c.sh (c.pc t) x = some (s, p, e) → L t c.sh (c.pc t) → i ≠ t →
      (inside (c.pc i) = true → inside (c.pc t) = false) → L i c.sh (c.pc i) →
      L i s (M.woken e i (c.pc i)))
    (h : M.lts.ReachIf ok c) : ∀ i, L i c.sh (c.pc i) := by
  refine h.invariant (I := fun c => ∀ i, L i c.sh (c.pc i)) hstart ?_
  intro c a c' hc ih hok hstep i
  obtain ⟨s, p, e, hs, -, rfl⟩ := next_inv hstep
  by_cases hia : i = a.1
  · subst hia
    simpa using hown hc hok hs (ih _)
  · simp only [hia, if_false]
    refine hother hc hok hs (ih _) hia ?_ (ih i)
    intro hin
    by_contra hin'
    have h1 := (hL.excl hc i).1 hin
    have h2 := (hL.excl hc a.1).1 (by simpa using hin')
    exact hia (Option.some.inj (h1.symm.trans h2))

/-- The same for a property that does not depend on which thread it is. -/
theorem local_invariant (hL : M.Locked inside) (L : S → P → Prop)
    (hstart : ∀ i, L M.init (M.start i))
    (hown : ∀ {c t x s p e}, M.lts.ReachIf ok c → ok c (t, x) →
      M.step t c.sh (c.pc t) x = some (s, p, e) → L c.sh (c.pc t) → L s p)
    (hother : ∀ {c t x s p e i}, M.lts.ReachIf ok c → ok c (t, x) →
      M.step t c.sh (c.pc t) x = some (s, p, e) → L c.sh (c.pc t) → i ≠ t →
      (inside (c.pc i) = true → inside (c.pc t) = false) → L c.sh (c.pc i) →
      L s (M.woken e i (c.pc i)))
    (h : M.lts.ReachIf ok c) : ∀ i, L c.sh (c.pc i) :=
  thread_invariant hL (fun _ => L) hstart hown hother h

end Prog

end BackendTasks.Sched
