import BackendTasks.Sched.Lts

/-!
# Runs with their steps

`Traced` is a run together with all its steps, so that what they cost can be added up
(`spent`).

* `Traced.amortized`: if what a step costs is covered by what it pays and by what it takes
  from a potential, the steps of a run together cost no more than they pay and the potential
  that there was at the beginning.
* `Traced.balanced`: if every step changes a balance by what it pays and what it costs, so does a run;
  a counter that every step raises by what it costs shows the costs (`Traced.counted`).
* `Traced.folded`: if every step does to what the states stand for what its `effect` says, so does a
  run.
* `Traced.recorded`: if every step adds what it records to what the states show, they show what the run
  has recorded.
-/

namespace BackendTasks.Sched

variable {σ α : Type*}

/-- A step: the states before and after it, and its label. -/
structure Edge (σ α : Type*) where
  before : σ
  label : α
  after : σ

/-- What the steps cost together. -/
def spent (cost : Edge σ α → ℕ) : List (Edge σ α) → ℕ
  | [] => 0
  | e :: tr => cost e + spent cost tr

/-- How many of the steps are of a kind. -/
abbrev times (kind : Edge σ α → Bool) : List (Edge σ α) → ℕ := spent fun e => (kind e).toNat

/-- What the steps record, the earliest first. -/
def recorded {β : Type*} (record : Edge σ α → List β) (tr : List (Edge σ α)) : List β :=
  tr.reverse.flatMap record

theorem recorded_cons {β : Type*} (record : Edge σ α → List β) (e : Edge σ α) (tr : List (Edge σ α)) :
    recorded record (e :: tr) = recorded record tr ++ record e := by
  rw [recorded, List.reverse_cons, List.flatMap_append, List.flatMap_singleton]
  rfl

section Spent

variable {cost cost' : Edge σ α → ℕ} {e : Edge σ α} {tr : List (Edge σ α)}

@[simp] theorem spent_nil (cost : Edge σ α → ℕ) : spent cost [] = 0 := rfl

@[simp] theorem spent_cons (cost : Edge σ α → ℕ) (e : Edge σ α) (tr : List (Edge σ α)) :
    spent cost (e :: tr) = cost e + spent cost tr := rfl

theorem spent_add (cost cost' : Edge σ α → ℕ) (tr : List (Edge σ α)) :
    spent (fun e => cost e + cost' e) tr = spent cost tr + spent cost' tr := by
  induction tr with
  | nil => rfl
  | cons e tr ih =>
    rw [spent_cons, spent_cons, spent_cons, ih]
    omega

theorem spent_mul (n : ℕ) (cost : Edge σ α → ℕ) (tr : List (Edge σ α)) :
    spent (fun e => n * cost e) tr = n * spent cost tr := by
  induction tr with
  | nil => rfl
  | cons e tr ih => rw [spent_cons, spent_cons, ih, Nat.mul_add]

theorem spent_zero (tr : List (Edge σ α)) : spent (fun _ => 0) tr = 0 := by
  induction tr with
  | nil => rfl
  | cons e tr ih => rw [spent_cons, ih]

/-- Each step costs one. -/
theorem spent_one (tr : List (Edge σ α)) : spent (fun _ => 1) tr = tr.length := by
  induction tr with
  | nil => rfl
  | cons e tr ih =>
    rw [spent_cons, ih, List.length_cons]
    omega

end Spent

namespace Lts

variable {M : Lts σ α} {ok : σ → α → Prop} {s : σ} {tr : List (Edge σ α)}

/-- A run whose steps all meet `ok`, with these steps, the latest first. -/
inductive Traced (M : Lts σ α) (ok : σ → α → Prop) : List (Edge σ α) → σ → Prop
  | init : Traced M ok [] M.init
  | step {tr : List (Edge σ α)} {s s' : σ} {a : α} : Traced M ok tr s → ok s a →
      M.step s a = some s' → Traced M ok (⟨s, a, s'⟩ :: tr) s'

theorem Traced.reach (h : M.Traced ok tr s) : M.ReachIf ok s := by
  induction h with
  | init => exact .init
  | step _ hok hs ih => exact .step ih hok hs

/-- **Amortized costs.** -/
theorem Traced.amortized (cost pay : Edge σ α → ℕ) (Φ : σ → ℕ)
    (hstep : ∀ s a s', M.ReachIf ok s → ok s a → M.step s a = some s' →
      cost ⟨s, a, s'⟩ + Φ s' ≤ Φ s + pay ⟨s, a, s'⟩)
    (h : M.Traced ok tr s) : spent cost tr + Φ s ≤ Φ M.init + spent pay tr := by
  induction h with
  | init => simp
  | @step tr s s' a htr hok hs ih =>
    have hnew := hstep s a s' htr.reach hok hs
    rw [spent_cons, spent_cons]
    omega

/-- **Balances.** -/
theorem Traced.balanced (cost pay : Edge σ α → ℕ) (A : σ → ℕ)
    (hstep : ∀ s a s', M.ReachIf ok s → ok s a → M.step s a = some s' →
      A s' + cost ⟨s, a, s'⟩ = A s + pay ⟨s, a, s'⟩)
    (h : M.Traced ok tr s) : A s + spent cost tr = A M.init + spent pay tr := by
  induction h with
  | init => rfl
  | @step tr s s' a htr hok hs ih =>
    have hnew := hstep s a s' htr.reach hok hs
    rw [spent_cons, spent_cons]
    omega

/-- **Counters.** -/
theorem Traced.counted {cost : Edge σ α → ℕ} {A : σ → ℕ}
    (hstep : ∀ s a s', M.ReachIf ok s → ok s a → M.step s a = some s' → A s' = A s + cost ⟨s, a, s'⟩)
    (h : M.Traced ok tr s) : A s = A M.init + spent cost tr := by
  have hbalance := h.balanced (fun _ => 0) cost A hstep
  rw [spent_zero] at hbalance
  exact hbalance

/-- **What a state stands for** is what its steps make of it, one after the other. -/
theorem Traced.folded {β : Type*} (view : σ → β) {effect : Edge σ α → β → β}
    (h : M.Traced ok tr s) (hstep : ∀ s a s', M.ReachIf ok s → ok s a → M.step s a = some s' →
      view s' = effect ⟨s, a, s'⟩ (view s)) : view s = tr.foldr effect (view M.init) := by
  induction h with
  | init => rfl
  | @step tr s s' a htr hok hs ih => rw [List.foldr_cons, ← ih, hstep s a s' htr.reach hok hs]

/-- **What the states show** is what the steps have recorded, and what the last state still holds
back. -/
theorem Traced.recorded {β : Type*} (record : Edge σ α → List β) (shown held : σ → List β)
    (h : M.Traced ok tr s) (hinit : shown M.init = held M.init)
    (hstep : ∀ s a s', M.ReachIf ok s → ok s a → M.step s a = some s' → ∀ past,
      shown s = past ++ held s → shown s' = past ++ record ⟨s, a, s'⟩ ++ held s') :
    shown s = Sched.recorded record tr ++ held s := by
  induction h with
  | init => exact hinit
  | @step tr s s' a htr hok hs ih => rw [recorded_cons, hstep s a s' htr.reach hok hs _ ih]

/-! ## Schedules -/

/-- Run a schedule with its steps, giving up at a step that is not possible or not permitted. -/
def traceIf (M : Lts σ α) (ok : σ → α → Prop) [∀ s a, Decidable (ok s a)] :
    List (Edge σ α) → σ → List α → Option (List (Edge σ α) × σ)
  | tr, s, [] => some (tr, s)
  | tr, s, a :: as =>
    if ok s a then (M.step s a).bind fun s' => M.traceIf ok (⟨s, a, s'⟩ :: tr) s' as else none

theorem Traced.traceIf [∀ s a, Decidable (ok s a)] {as : List α} {r : List (Edge σ α) × σ}
    (htr : M.Traced ok tr s) (h : M.traceIf ok tr s as = some r) : M.Traced ok r.1 r.2 := by
  induction as generalizing tr s with
  | nil =>
    obtain rfl := Option.some.inj h
    exact htr
  | cons a as ih =>
    simp only [Lts.traceIf] at h
    split at h
    · rename_i hok
      obtain ⟨s', hs, hrest⟩ := Option.bind_eq_some_iff.1 h
      exact ih (htr.step hok hs) hrest
    · simp at h

/-- A schedule whose steps and last state pass the test `p`. -/
theorem exists_traced (M : Lts σ α) (ok : σ → α → Prop) [∀ s a, Decidable (ok s a)] (as : List α)
    (p : List (Edge σ α) → σ → Bool)
    (h : (M.traceIf ok [] M.init as).any (fun r => p r.1 r.2) = true) :
    ∃ tr s, M.Traced ok tr s ∧ p tr s = true := by
  obtain ⟨r, hr, hp⟩ := (Option.any_eq_true _ _).1 h
  exact ⟨r.1, r.2, Traced.init.traceIf hr, hp⟩

end Lts

end BackendTasks.Sched
