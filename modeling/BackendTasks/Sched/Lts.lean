import Mathlib.Logic.Relation
import Mathlib.Data.Nat.Notation

/-!
# Transition systems with an executable step

The label of a step carries every choice the scheduler and the environment make,
so the step itself is a partial function and a schedule is a list of labels.

* `ReachIf`: the states reached by runs whose steps all meet a condition, with
  the invariant rule `ReachIf.invariant`.
* `runIf`: runs a schedule, checking the condition at every step.
* `ReachIf.simulate`: a system whose steps are matched, up to stuttering, by an
  abstract relation stays within what that relation reaches.
-/

namespace BackendTasks.Sched

/-- A transition system: an initial state and a partial step function. -/
structure Lts (σ α : Type*) where
  init : σ
  step : σ → α → Option σ

namespace Lts

variable {σ α β : Type*} {M : Lts σ α} {ok ok' : σ → α → Prop} {s s' : σ}

/-- The states reached by runs whose steps all meet `ok`. -/
inductive ReachIf (M : Lts σ α) (ok : σ → α → Prop) : σ → Prop
  | init : ReachIf M ok M.init
  | step {s s' : σ} {a : α} : ReachIf M ok s → ok s a → M.step s a = some s' → ReachIf M ok s'

/-- The states reached by any run. -/
abbrev Reach (M : Lts σ α) : σ → Prop := M.ReachIf fun _ _ => True

/-- Some steps lead from one state to the other. -/
abbrev Leads (M : Lts σ α) : σ → σ → Prop :=
  Relation.ReflTransGen fun s s' => ∃ a, M.step s a = some s'

/-- **The invariant rule.** What holds initially and is kept by every permitted
step of a reached state holds of every reached state. -/
theorem ReachIf.invariant {I : σ → Prop} (hinit : I M.init)
    (hstep : ∀ s a s', M.ReachIf ok s → I s → ok s a → M.step s a = some s' → I s')
    (h : M.ReachIf ok s) : I s := by
  induction h with
  | init => exact hinit
  | step hs hok he ih => exact hstep _ _ _ hs ih hok he

theorem ReachIf.mono (himp : ∀ s a, ok s a → ok' s a) (h : M.ReachIf ok s) : M.ReachIf ok' s := by
  induction h with
  | init => exact .init
  | step _ hok he ih => exact .step ih (himp _ _ hok) he

/-- A condition that holds along every run can be assumed of the runs considered. -/
theorem ReachIf.strengthen (h : M.ReachIf ok s)
    (himp : ∀ s a, M.ReachIf ok s → ok s a → ok' s a) : M.ReachIf ok' s := by
  induction h with
  | init => exact .init
  | step hs hok he ih => exact .step ih (himp _ _ hs hok) he

/-- **Refinement.** If every step either keeps the abstract state or is a step of
the abstract relation `R`, the abstract state is reached by `R`. -/
theorem ReachIf.simulate {R : β → β → Prop} (abs : σ → β)
    (hstep : ∀ s a s', M.ReachIf ok s → ok s a → M.step s a = some s' →
      abs s' = abs s ∨ R (abs s) (abs s'))
    (h : M.ReachIf ok s) : Relation.ReflTransGen R (abs M.init) (abs s) := by
  induction h with
  | init => exact .refl
  | step hs hok he ih =>
    rcases hstep _ _ _ hs hok he with heq | hR
    · rw [heq]; exact ih
    · exact ih.tail hR

/-! ## Schedules -/

/-- Run a schedule, giving up at a step that is not possible or not permitted. -/
def runIf (M : Lts σ α) (ok : σ → α → Prop) [∀ s a, Decidable (ok s a)] : σ → List α → Option σ
  | s, [] => some s
  | s, a :: as => if ok s a then (M.step s a).bind fun s' => M.runIf ok s' as else none

theorem ReachIf.runIf [∀ s a, Decidable (ok s a)] :
    ∀ {as : List α} {s : σ}, M.ReachIf ok s → M.runIf ok s as = some s' → M.ReachIf ok s' := by
  intro as
  induction as with
  | nil => intro s hs h; simp only [Lts.runIf, Option.some.injEq] at h; exact h ▸ hs
  | cons a as ih =>
    intro s hs h
    simp only [Lts.runIf] at h
    split at h
    · rename_i hok
      obtain ⟨s₁, h₁, h₂⟩ := Option.bind_eq_some_iff.1 h
      exact ih (.step hs hok h₁) h₂
    · simp at h

/-- A schedule whose last state passes the test `p` reaches a state where `p` holds. -/
theorem exists_reachIf (M : Lts σ α) (ok : σ → α → Prop) [∀ s a, Decidable (ok s a)] (as : List α)
    (p : σ → Bool) (h : (M.runIf ok M.init as).any p = true) : ∃ s, M.ReachIf ok s ∧ p s = true := by
  obtain ⟨s, hs, hp⟩ := (Option.any_eq_true _ _).1 h
  exact ⟨s, .runIf .init hs, hp⟩

end Lts

end BackendTasks.Sched
