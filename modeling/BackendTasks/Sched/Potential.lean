import BackendTasks.Sched.Monitor
import Mathlib.Algebra.BigOperators.Group.Finset.Piecewise
import Mathlib.Algebra.Order.BigOperators.Group.Finset

/-!
# Weights summed over the threads

A weight assigns a number to each control point; `total` sums it over the threads.

* `conserved`: a quantity of the shared state that every step changes by as much as
  the thread's weight equals the total weight.
* `notify_one_suffices`: a demand (work waiting behind a condition variable) is
  covered by the total weight (threads already on their way to it) as long as some
  thread is blocked on that condition variable, if every step keeps the balance and
  each wakeup adds a unit. This is what makes one `notify_one` per unit of work
  enough.
-/

namespace BackendTasks.Sched

open Finset

variable {ι V S P C : Type*} [DecidableEq ι] [Fintype ι]

/-- The weight of all threads together. -/
def total (w : P → ℕ) (pc : ι → P) : ℕ := ∑ i, w (pc i)

theorem total_split (w : P → ℕ) (pc : ι → P) (t : ι) :
    total w pc = w (pc t) + ∑ i ∈ univ.erase t, w (pc i) :=
  (add_sum_erase _ _ (mem_univ t)).symm

/-- Only thread `t` has any weight. -/
theorem total_eq_self {w : P → ℕ} {pc : ι → P} (t : ι) (h : ∀ i, i ≠ t → w (pc i) = 0) :
    total w pc = w (pc t) := by
  rw [total_split w pc t, sum_eq_zero fun i hi => h i (ne_of_mem_erase hi), Nat.add_zero]

theorem total_moved (w : P → ℕ) (g : ι → P) (t : ι) (p : P) :
    total w (fun i => if i = t then p else g i) = w p + ∑ i ∈ univ.erase t, w (g i) := by
  rw [total_split w _ t]
  congr 1
  · simp
  · exact sum_congr rfl fun i hi => by simp [ne_of_mem_erase hi]

/-- Thread `t` moves to `p`; the others keep their weight. -/
theorem total_eq (w : P → ℕ) {f g : ι → P} {t : ι} (p : P) (h : ∀ i, i ≠ t → w (g i) = w (f i)) :
    total w (fun i => if i = t then p else g i) + w (f t) = total w f + w p := by
  rw [total_moved, total_split w f t, sum_congr rfl fun i hi => h i (ne_of_mem_erase hi)]
  omega

theorem total_update (w : P → ℕ) (f : ι → P) (t : ι) (p : P) :
    total w (Function.update f t p) + w (f t) = total w f + w p := by
  rw [show Function.update f t p = fun i => if i = t then p else f i from
    funext fun i => Function.update_apply f t p i]
  exact total_eq w p fun _ _ => rfl

/-- Thread `t` moves to `p`; the others do not lose weight. -/
theorem total_le (w : P → ℕ) {f g : ι → P} {t : ι} (p : P) (h : ∀ i, i ≠ t → w (f i) ≤ w (g i)) :
    total w f + w p ≤ total w (fun i => if i = t then p else g i) + w (f t) := by
  have := sum_le_sum fun i (hi : i ∈ univ.erase t) => h i (ne_of_mem_erase hi)
  rw [total_moved, total_split w f t]
  omega

/-- Thread `t` moves to `p`; the others do not lose weight and one of them gains. -/
theorem total_lt (w : P → ℕ) {f g : ι → P} {t j : ι} (p : P) (h : ∀ i, i ≠ t → w (f i) ≤ w (g i))
    (hj : j ≠ t) (hlt : w (f j) < w (g j)) :
    total w f + w p < total w (fun i => if i = t then p else g i) + w (f t) := by
  have := sum_lt_sum (fun i (hi : i ∈ univ.erase t) => h i (ne_of_mem_erase hi))
    ⟨j, mem_erase.2 ⟨hj, mem_univ j⟩, hlt⟩
  rw [total_moved, total_split w f t]
  omega

/-- Thread `t` moves to `p`, and the weight changes to one that is not larger. -/
theorem total_reweigh {w w' : P → ℕ} (f : ι → P) (t : ι) (p : P) (h : ∀ q, w' q ≤ w q) :
    total w' (Function.update f t p) + w (f t) ≤ total w f + w' p := by
  have hothers : ∑ i ∈ univ.erase t, w' (Function.update f t p i) ≤ ∑ i ∈ univ.erase t, w (f i) := by
    refine sum_le_sum fun i hi => ?_
    rw [Function.update_of_ne (ne_of_mem_erase hi)]
    exact h (f i)
  rw [total_split w' _ t, total_split w f t, Function.update_self]
  omega

/-- No thread has more than one unit, and `t` has none. -/
theorem total_lt_card {w : P → ℕ} {f : ι → P} (t : ι) (h : ∀ q, w q ≤ 1) (ht : w (f t) = 0) :
    total w f < Fintype.card ι := by
  have hothers : ∑ i ∈ univ.erase t, w (f i) ≤ ∑ _i ∈ univ.erase t, 1 := sum_le_sum fun i _ => h (f i)
  have hcard : (univ.erase t).card + 1 = Fintype.card ι := card_erase_add_one (mem_univ t)
  rw [← card_eq_sum_ones] at hothers
  rw [total_split w f t, ht]
  omega

/-- The number of threads whose control point passes the test. -/
def count (φ : P → Bool) (pc : ι → P) : ℕ := (univ.filter fun i => φ (pc i) = true).card

omit [DecidableEq ι] in
theorem count_eq_total (φ : P → Bool) (pc : ι → P) : count φ pc = total (fun p => (φ p).toNat) pc := by
  rw [count, total, card_filter]
  exact sum_congr rfl fun i _ => by cases φ (pc i) <;> rfl

namespace Prog

variable {M : Prog ι V S P C} {ok : Conf ι S P → ι × C → Prop} {c : Conf ι S P}

/-- **Conservation.** If each step changes `A` by as much as `B` and the weight of the
stepping thread together, and wakeups keep weights, then `A` is always `B` plus the
total weight. -/
theorem conserved (A B : S → ℕ) (w : P → ℕ)
    (hinit : A M.init = B M.init + total w M.start)
    (hwake : ∀ {v q q'}, M.wake v q = some q' → w q' = w q)
    (hstep : ∀ {c t x s p e}, M.lts.ReachIf ok c → M.step t c.sh (c.pc t) x = some (s, p, e) →
      A s + B c.sh + w (c.pc t) = A c.sh + B s + w p)
    (h : M.lts.ReachIf ok c) : A c.sh = B c.sh + total w c.pc := by
  refine h.invariant (I := fun c => A c.sh = B c.sh + total w c.pc) hinit ?_
  intro c a c' hc ih _ he
  obtain ⟨s, p, e, hs, -, rfl⟩ := next_inv he
  have hbal := hstep hc hs
  have hsum := total_eq w (f := c.pc) (g := fun i => M.woken e i (c.pc i)) (t := a.1) p
    fun i _ => by
      rcases M.woken_cases e i (c.pc i) with h | ⟨v, h⟩
      · rw [h]
      · exact hwake h
  dsimp only at hsum ⊢
  omega

/-- At most one thread is at the control points of a critical section. -/
theorem Locked.count_le_one {inside : P → Bool} (hL : M.Locked inside) (h : M.lts.ReachIf ok c)
    {φ : P → Bool} (hφ : ∀ p, φ p = true → inside p = true) : count φ c.pc ≤ 1 := by
  refine card_le_one.2 fun i hi j hj => ?_
  have hi' := (hL.excl h i).1 (hφ _ (mem_filter.1 hi).2)
  have hj' := (hL.excl h j).1 (hφ _ (mem_filter.1 hj).2)
  exact Option.some.inj (hi'.symm.trans hj')

/-- A step is charged one unit if it notifies one thread blocked on `v`. -/
def charge [DecidableEq V] (v : V) : Effect ι V → ℕ
  | .notifyOne u _ => if u = v then 1 else 0
  | _ => 0

/-- **One notification per unit of work is enough.** Let a step never raise the demand
`D` by more than it raises the weight of its thread, a notification on `v` being worth
one unit, except that a step may leave no demand at all; and let a step that blocks on
`v` do the latter. If a wakeup on `v` adds a unit of weight and other wakeups remove
none, then as long as some thread is blocked on `v` the demand is at most the total
weight. -/
theorem notify_one_suffices [DecidableEq V] (v : V) (D : S → ℕ) (w : P → ℕ)
    (hstart : ∀ i, M.wake v (M.start i) = none)
    (hwake : ∀ {u q q'}, M.wake u q = some q' → w q ≤ w q' ∧ M.wake v q' = none)
    (hgain : ∀ {q q'}, M.wake v q = some q' → w q < w q')
    (hstep : ∀ {c t x s p e}, M.lts.ReachIf ok c → ok c (t, x) →
      M.step t c.sh (c.pc t) x = some (s, p, e) →
      D s = 0 ∨ (M.wake v p = none ∧ D s + w (c.pc t) ≤ D c.sh + w p + charge v e))
    (h : M.lts.ReachIf ok c) (hb : ∃ i, (M.wake v (c.pc i)).isSome = true) :
    D c.sh ≤ total w c.pc := by
  refine h.invariant
    (I := fun c => (∃ i, (M.wake v (c.pc i)).isSome = true) → D c.sh ≤ total w c.pc) ?_ ?_ hb
  · rintro ⟨i, hi⟩; simp [lts, hstart] at hi
  rintro c a c' hc ih hok he ⟨i, hi⟩
  obtain ⟨s, p, e, hs, hen, rfl⟩ := next_inv he
  rcases hstep hc hok hs with h0 | ⟨hp, hbal⟩
  · simp [h0]
  -- the blocked thread is another one, and was blocked before the step
  have hia : i ≠ a.1 := by rintro rfl; simp [hp] at hi
  simp only [hia, if_false] at hi
  have hsame : M.woken e i (c.pc i) = c.pc i := by
    rcases M.woken_cases e i (c.pc i) with h | ⟨u, h⟩
    · exact h
    · rw [(hwake h).2] at hi; simp at hi
  rw [hsame] at hi
  have hD := ih ⟨i, hi⟩
  have hle : ∀ k, k ≠ a.1 → w (c.pc k) ≤ w (M.woken e k (c.pc k)) := by
    intro k _
    rcases M.woken_cases e k (c.pc k) with h | ⟨u, h⟩
    · rw [h]
    · exact (hwake h).1
  have hmono := total_le w (f := c.pc) (g := fun k => M.woken e k (c.pc k)) p hle
  dsimp only
  by_cases hch : charge v e = 0
  · omega
  -- a notification on `v`: since `i` is blocked, it reaches some thread
  obtain ⟨pick, rfl⟩ : ∃ pick, e = .notifyOne v pick := by
    cases e with
    | notifyOne u pick =>
      by_cases hu : u = v
      · exact ⟨pick, by rw [hu]⟩
      · simp [charge, hu] at hch
    | _ => simp [charge] at hch
  cases pick with
  | none => have := hen i hia; rw [hi] at this; simp at this
  | some j =>
    obtain ⟨hja, hj⟩ := hen
    obtain ⟨q', hq'⟩ := Option.isSome_iff_exists.1 hj
    have hlt := total_lt w (f := c.pc) (g := fun k => M.woken (.notifyOne v (some j)) k (c.pc k))
      p hle hja (by simp only [woken, if_true, hq']; exact hgain hq')
    simp only [charge, if_true] at hbal
    omega

end Prog

end BackendTasks.Sched
