import BackendTasks.Sched.Potential
import BackendTasks.Sched.Trace

/-!
# Progress of threads that share a mutex and condition variables

* `steps_le`: if the weight of a thread falls with each of its steps, except for what the step is
  paid and for what waking up other threads takes, a run has no more steps than it is paid for.
* `balanced`: what the calls of a run have done, what they have still to do and what has become of the
  others, added up; `counted` when there are no others.
* `begun_ends`: a call that was begun has ended, or some thread is in it.
* `stuck_rests`: if a thread that is not at rest can go on as soon as it holds the mutex or the
  mutex is free, then in a state in which no thread can go on, the mutex is free and all
  threads are at rest.
-/

namespace BackendTasks.Sched

open Finset

variable {ι V S P C : Type*} [DecidableEq ι] [Fintype ι]

/-- How many threads a step can wake up. -/
def Effect.reach : Effect ι V → ℕ
  | .notifyOne _ (some _) => 1
  | .notifyAll _ => Fintype.card ι
  | _ => 0

namespace Prog

variable {M : Prog ι V S P C} {ok : Conf ι S P → ι × C → Prop} {c : Conf ι S P} {w : P → ℕ} {k : ℕ}
  {tr : List (Edge (Conf ι S P) (ι × C))}

/-- Thread `t` moves to `p`, and those it wakes up gain `k` each. -/
theorem total_woken (hwake : ∀ {v q q'}, M.wake v q = some q' → w q' ≤ w q + k) (e : Effect ι V)
    (f : ι → P) (t : ι) (p : P) :
    total w (fun i => if i = t then p else M.woken e i (f i)) + w (f t) ≤
      total w f + w p + k * e.reach := by
  have hget : ∀ v q, w ((M.wake v q).getD q) ≤ w q + k := by
    intro v q
    cases h : M.wake v q with
    | none => exact Nat.le_add_right _ _
    | some q' => exact hwake h
  have hothers : ∑ i ∈ univ.erase t, w (M.woken e i (f i)) ≤
      ∑ i ∈ univ.erase t, w (f i) + k * e.reach := by
    cases e with
    | notifyOne v pick =>
      cases pick with
      | none => exact Nat.le_add_right _ _
      | some j =>
        have hone : ∀ i, w (M.woken (.notifyOne v (some j)) i (f i)) ≤
            w (f i) + if i = j then k else 0 := by
          intro i
          simp only [woken]
          split
          · exact hget v (f i)
          · exact Nat.le_refl _
        calc ∑ i ∈ univ.erase t, w (M.woken (.notifyOne v (some j)) i (f i))
            ≤ ∑ i ∈ univ.erase t, (w (f i) + if i = j then k else 0) := sum_le_sum fun i _ => hone i
          _ = ∑ i ∈ univ.erase t, w (f i) + ∑ i ∈ univ.erase t, (if i = j then k else 0) :=
            sum_add_distrib
          _ ≤ ∑ i ∈ univ.erase t, w (f i) + k * 1 := by
            have hle : ∑ i ∈ univ.erase t, (if i = j then k else 0) ≤ ∑ i, (if i = j then k else 0) :=
              sum_le_sum_of_subset (subset_univ _)
            rw [sum_ite_eq' univ j, if_pos (mem_univ j)] at hle
            omega
    | notifyAll v =>
      calc ∑ i ∈ univ.erase t, w (M.woken (.notifyAll v) i (f i))
          ≤ ∑ i ∈ univ.erase t, (w (f i) + k) := sum_le_sum fun i _ => hget v (f i)
        _ = ∑ i ∈ univ.erase t, w (f i) + (univ.erase t).card * k := by
          rw [sum_add_distrib, sum_const]
          rfl
        _ ≤ ∑ i ∈ univ.erase t, w (f i) + k * Fintype.card ι := by
          have hcard : (univ.erase t).card ≤ Fintype.card ι := card_le_card (subset_univ _)
          have hmul := Nat.mul_le_mul_right k hcard
          rw [Nat.mul_comm (Fintype.card ι)] at hmul
          omega
    | _ => exact Nat.le_add_right _ _
  have hsplit := total_split w f t
  rw [total_moved]
  omega

/-- **A bound on the steps of a run.** `B` is what the shared state holds for later steps. -/
theorem steps_le (w : P → ℕ) (B : S → ℕ) (k : ℕ) (pay : C → ℕ)
    (hwake : ∀ {v q q'}, M.wake v q = some q' → w q' ≤ w q + k)
    (hstep : ∀ {c t x s p e}, M.lts.ReachIf ok c → ok c (t, x) →
      M.step t c.sh (c.pc t) x = some (s, p, e) →
        1 + w p + B s + k * e.reach ≤ w (c.pc t) + B c.sh + pay x)
    (h : M.lts.Traced ok tr c) :
    tr.length ≤ total w M.start + B M.init + spent (fun e => pay e.label.2) tr := by
  have hcost := h.amortized (fun _ => 1) (fun e => pay e.label.2) (fun c => total w c.pc + B c.sh)
    fun c a c' hc hok he => by
      obtain ⟨s, p, e, hs, -, rfl⟩ := next_inv he
      have hown := hstep hc hok hs
      have hall := total_woken hwake e c.pc a.1 p
      dsimp only
      omega
  rw [spent_one] at hcost
  exact Nat.le_trans (Nat.le_add_right _ _) hcost

/-- **Calls balanced.** If each step changes `A` and the weight of its thread together by what it is
paid and what it costs, and wakeups keep weights, so do the steps of a run. -/
theorem balanced (A : S → ℕ) (w : P → ℕ) (cost pay : S → P → C → ℕ)
    (hwake : ∀ {v q q'}, M.wake v q = some q' → w q' = w q)
    (hstep : ∀ {c t x s p e}, M.lts.ReachIf ok c → ok c (t, x) →
      M.step t c.sh (c.pc t) x = some (s, p, e) →
        A s + w p + cost c.sh (c.pc t) x = A c.sh + w (c.pc t) + pay c.sh (c.pc t) x)
    (h : M.lts.Traced ok tr c) :
    A c.sh + total w c.pc + spent (fun e => cost e.before.sh (e.before.pc e.label.1) e.label.2) tr =
      A M.init + total w M.start +
        spent (fun e => pay e.before.sh (e.before.pc e.label.1) e.label.2) tr := by
  refine h.balanced _ _ (fun c => A c.sh + total w c.pc) fun c a c' hc hok he => ?_
  obtain ⟨s, p, e, hs, -, rfl⟩ := next_inv he
  have hown := hstep hc hok hs
  have hall := total_eq w (f := c.pc) (g := fun i => M.woken e i (c.pc i)) (t := a.1) p fun i _ => by
    rcases M.woken_cases e i (c.pc i) with hsame | ⟨v, hv⟩
    · rw [hsame]
    · exact hwake hv
  dsimp only at hall ⊢
  omega

/-- **Calls counted.** If each step changes `A` and the weight of its thread together by what it
costs, and wakeups keep weights, what the steps of a run cost shows in `A` and the weights. -/
theorem counted (A : S → ℕ) (w : P → ℕ) (cost : C → ℕ)
    (hwake : ∀ {v q q'}, M.wake v q = some q' → w q' = w q)
    (hstep : ∀ {c t x s p e}, M.lts.ReachIf ok c → ok c (t, x) →
      M.step t c.sh (c.pc t) x = some (s, p, e) → A s + w p = A c.sh + w (c.pc t) + cost x)
    (h : M.lts.Traced ok tr c) :
    A c.sh + total w c.pc = A M.init + total w M.start + spent (fun e => cost e.label.2) tr := by
  have hbalance := balanced A w (fun _ _ _ => 0) (fun _ _ x => cost x) hwake hstep h
  rw [spent_zero] at hbalance
  exact hbalance

/-- **A call that was begun has ended, or some thread is in it**: the first until it ends. -/
theorem begun_ends (begun ended : S → Bool) (inCall : P → Bool) (hinit : begun M.init = false)
    (hwake : ∀ {v q q'}, M.wake v q = some q' → inCall q' = inCall q)
    (hstep : ∀ {t s p x s' p' e}, M.step t s p x = some (s', p', e) →
      (ended s' = true ∨ (inCall p = true → inCall p' = true)) ∧
      (ended s = true → ended s' = true) ∧
      (begun s' = true → begun s = true ∨ inCall p' = true))
    (h : M.lts.ReachIf ok c) (hbegun : begun c.sh = true) :
    ended c.sh = true ∨ ∃ i, inCall (c.pc i) = true := by
  refine h.invariant
    (I := fun c => begun c.sh = true → ended c.sh = true ∨ ∃ i, inCall (c.pc i) = true) ?_ ?_ hbegun
  · intro hstart
    rw [show M.lts.init.sh = M.init from rfl, hinit] at hstart
    simp at hstart
  intro c a c' _ ih _ he hbegun
  obtain ⟨s, p, e, hs, -, rfl⟩ := next_inv he
  obtain ⟨hown, hended, hnew⟩ := hstep hs
  dsimp only at hbegun ⊢
  rcases hnew hbegun with hbefore | hin
  · rcases ih hbefore with hdone | ⟨i, hi⟩
    · exact .inl (hended hdone)
    · by_cases hia : i = a.1
      · subst hia
        refine hown.imp_right fun hkeep => ⟨a.1, ?_⟩
        rw [if_pos rfl]
        exact hkeep hi
      · refine .inr ⟨i, ?_⟩
        rw [if_neg hia]
        rcases M.woken_cases e i (c.pc i) with hsame | ⟨v, hv⟩
        · rw [hsame]
          exact hi
        · rw [hwake hv]
          exact hi
  · exact .inr ⟨a.1, by rw [if_pos rfl]; exact hin⟩

/-- No thread can go on with its call. -/
def Stuck (M : Prog ι V S P C) (onward : C → Bool) (c : Conf ι S P) : Prop :=
  ∀ t x, onward x = true → M.lts.step c (t, x) = none

/-- **What a state looks like in which no thread can go on.** -/
theorem stuck_rests {inside : P → Bool} (rests : P → Bool) {onward : C → Bool} (hL : M.Locked inside)
    (hout : ∀ p, inside p = true → rests p = false)
    (hgo : ∀ t, rests (c.pc t) = false → (inside (c.pc t) = true ∨ c.owner = none) →
      ∃ x s p e, onward x = true ∧ M.step t c.sh (c.pc t) x = some (s, p, e) ∧ M.Enabled c t e)
    (h : M.lts.ReachIf ok c) (hstuck : M.Stuck onward c) :
    c.owner = none ∧ ∀ i, rests (c.pc i) = true := by
  have hno : ∀ t, (inside (c.pc t) = true ∨ c.owner = none) → rests (c.pc t) = true := by
    intro t ht
    by_contra hrest
    rw [Bool.not_eq_true] at hrest
    obtain ⟨x, s, p, e, hx, hs, hen⟩ := hgo t hrest ht
    have hnone := hstuck t x hx
    rw [next_of hs hen] at hnone
    simp at hnone
  have hfree : c.owner = none := by
    cases howner : c.owner with
    | none => rfl
    | some t =>
      have hin := (hL.excl h t).2 howner
      have hrest := hno t (.inl hin)
      rw [hout _ hin] at hrest
      simp at hrest
  exact ⟨hfree, fun i => hno i (.inr hfree)⟩

end Prog

end BackendTasks.Sched
