import BackendTasks.Sched.Lts

/-!
# Loops left alone

When only one thread runs, its steps are given by the outcomes it meets, one after the
other. A step to the top of a loop begins a new round of it (`rounds`).

* `within_of_rank`: the loop rule. If a step outside the goal either begins a new round
  and uses up one of those allowed, or comes nearer to the end of the round it is in, the
  goal is reached within the rounds allowed.
-/

namespace BackendTasks.Sched.Lts

variable {σ α : Type*} {M : Lts σ α} {top : σ → Bool} {goal : σ → Prop} {as : ℕ → α} {n : ℕ} {s : σ}

/-- The state after `m` steps with the labels `as 0`, `as 1` and so on, and the number of
rounds they take, the one that the first state is in included. -/
def rounds (M : Lts σ α) (top : σ → Bool) : ℕ → (ℕ → α) → σ → Option (σ × ℕ)
  | 0, _, s => some (s, 1)
  | m + 1, as, s => (M.step s (as 0)).bind fun s' =>
      (M.rounds top m (fun i => as (i + 1)) s').map fun r => (r.1, if top s' then r.2 + 1 else r.2)

/-- The steps with these labels come to the goal within `n` rounds. -/
def Within (M : Lts σ α) (top : σ → Bool) (goal : σ → Prop) (as : ℕ → α) (n : ℕ) (s : σ) : Prop :=
  ∃ m s' k, M.rounds top m as s = some (s', k) ∧ goal s' ∧ k ≤ n

/-- At the goal the round it is in is enough. -/
theorem Within.here (h : goal s) : M.Within top goal as (n + 1) s :=
  ⟨0, s, 1, rfl, h, Nat.le_add_left 1 n⟩

theorem Within.mono {n' : ℕ} (h : M.Within top goal as n s) (hn : n ≤ n') :
    M.Within top goal as n' s := by
  obtain ⟨m, s', k, hrun, hgoal, hk⟩ := h
  exact ⟨m, s', k, hrun, hgoal, Nat.le_trans hk hn⟩

/-- One step first. -/
theorem Within.step {s' : σ} (hs : M.step s (as 0) = some s')
    (h : M.Within top goal (fun i => as (i + 1)) n s') :
    M.Within top goal as (if top s' then n + 1 else n) s := by
  obtain ⟨m, s'', k, hrun, hgoal, hk⟩ := h
  have hrounds : M.rounds top (m + 1) as s = some (s'', if top s' then k + 1 else k) := by
    simp only [rounds, hs, Option.bind_some, hrun, Option.map_some]
  refine ⟨m + 1, s'', _, hrounds, hgoal, ?_⟩
  by_cases htop : top s' = true
  · rw [if_pos htop, if_pos htop]
    omega
  · rw [if_neg htop, if_neg htop]
    exact hk

/-- **The loop rule.** `I n s` says that at `s` no more than `n` rounds are needed after the
one it is in, and `rank` how far the end of that one is. -/
theorem within_of_rank (ok : α → Prop) (I : ℕ → σ → Prop) (rank : σ → ℕ)
    (hstep : ∀ n s a, I n s → ¬ goal s → ok a → ∃ s', M.step s a = some s' ∧
      if top s' then ∃ n' < n, I n' s' else I n s' ∧ rank s' < rank s)
    (has : ∀ i, ok (as i)) (h : I n s) : M.Within top goal as (n + 1) s := by
  -- outer induction on the rounds, inner induction on the rank within one
  induction n using Nat.strongRecOn generalizing s as with
  | ind n ihRounds =>
    induction hr : rank s using Nat.strongRecOn generalizing s as with
    | ind r ihRank =>
      by_cases hgoal : goal s
      · exact .here hgoal
      obtain ⟨s', hs, hnext⟩ := hstep n s (as 0) h hgoal (has 0)
      by_cases htop : top s' = true
      · rw [if_pos htop] at hnext
        obtain ⟨n', hn', hI⟩ := hnext
        have hrest := ihRounds n' hn' (fun i => has (i + 1)) hI
        have hall := hrest.step hs
        rw [if_pos htop] at hall
        exact hall.mono (by omega)
      · rw [if_neg htop] at hnext
        obtain ⟨hI, hlt⟩ := hnext
        have hrest := ihRank (rank s') (hr ▸ hlt) (fun i => has (i + 1)) hI rfl
        have hall := hrest.step hs
        rw [if_neg htop] at hall
        exact hall

end BackendTasks.Sched.Lts
