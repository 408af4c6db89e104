import Mathlib.Data.Finset.Basic

/-!
# A shared mutex

One thread holds it exclusively, or any number of threads hold it shared.
-/

namespace BackendTasks.Sched

/-- How a thread holds a shared mutex. -/
inductive LockMode
  | exclusive
  | shared
  deriving DecidableEq

/-- Who holds the mutex. Held shared by nobody, it is free. -/
inductive SharedMutex (ι : Type*)
  | exclusive (t : ι)
  | shared (ts : Finset ι)

namespace SharedMutex

variable {ι : Type*} [DecidableEq ι] {m m' : SharedMutex ι} {t u : ι} {mode : LockMode}

def free : SharedMutex ι := .shared ∅

/-- How the thread holds the mutex. -/
def held : SharedMutex ι → ι → Option LockMode
  | .exclusive u, t => if t = u then some .exclusive else none
  | .shared ts, t => if t ∈ ts then some .shared else none

/-- Locking. A thread that cannot lock waits. -/
def acquire (t : ι) : LockMode → SharedMutex ι → Option (SharedMutex ι)
  | .exclusive, .shared ts => if ts = ∅ then some (.exclusive t) else none
  | .shared, .shared ts => some (.shared (insert t ts))
  | _, .exclusive _ => none

/-- Unlocking. -/
def release (t : ι) : SharedMutex ι → SharedMutex ι
  | .exclusive u => if u = t then free else .exclusive u
  | .shared ts => .shared (ts.erase t)

@[simp] theorem held_free : (free : SharedMutex ι).held t = none := by simp [free, held]

/-- **Exclusion.** -/
theorem held_exclusive (h : m.held t = some .exclusive) (hu : u ≠ t) : m.held u = none := by
  cases m with
  | exclusive v =>
    have hv : t = v := by
      by_contra hne
      simp [held, hne] at h
    simp [held, ← hv, hu]
  | shared ts =>
    by_cases hmem : t ∈ ts <;> simp [held, hmem] at h

theorem held_acquire (h : m.acquire t mode = some m') : m'.held t = some mode := by
  cases m with
  | exclusive v => cases mode <;> simp [acquire] at h
  | shared ts =>
    cases mode with
    | exclusive =>
      by_cases hts : ts = ∅
      · obtain rfl : .exclusive t = m' := by simpa [acquire, hts] using h
        simp [held]
      · simp [acquire, hts] at h
    | shared =>
      obtain rfl : .shared (insert t ts) = m' := by simpa [acquire] using h
      simp [held]

/-- A thread that locks exclusively finds the mutex free. -/
theorem held_of_acquire (h : m.acquire t .exclusive = some m') (u : ι) : m.held u = none := by
  cases m with
  | exclusive v => simp [acquire] at h
  | shared ts =>
    by_cases hts : ts = ∅
    · simp [held, hts]
    · simp [acquire, hts] at h

/-- Locking changes nothing for the other threads. -/
theorem held_acquire_of_ne (h : m.acquire t mode = some m') (hu : u ≠ t) : m'.held u = m.held u := by
  cases m with
  | exclusive v => cases mode <;> simp [acquire] at h
  | shared ts =>
    cases mode with
    | exclusive =>
      by_cases hts : ts = ∅
      · obtain rfl : .exclusive t = m' := by simpa [acquire, hts] using h
        simp [held, hu, hts]
      · simp [acquire, hts] at h
    | shared =>
      obtain rfl : .shared (insert t ts) = m' := by simpa [acquire] using h
      simp [held, hu]

theorem held_release : (m.release t).held t = none := by
  cases m with
  | exclusive v =>
    by_cases hv : v = t
    · simp [release, hv]
    · simp [release, held, hv, Ne.symm hv]
  | shared ts => simp [release, held]

theorem held_release_of_ne (hu : u ≠ t) : (m.release t).held u = m.held u := by
  cases m with
  | exclusive v =>
    by_cases hv : v = t
    · have hfree : (release t (.exclusive v)) = free := by simp [release, hv]
      rw [hfree, held_free]
      simp [held, hv, hu]
    · simp [release, hv]
  | shared ts => simp [release, held, hu]

/-- Readers do not wait for each other. -/
theorem acquire_shared (h : ∀ u, m.held u ≠ some .exclusive) : ∃ m', m.acquire t .shared = some m' := by
  cases m with
  | exclusive v => exact absurd (by simp [held]) (h v)
  | shared ts => exact ⟨_, rfl⟩

end SharedMutex

end BackendTasks.Sched
