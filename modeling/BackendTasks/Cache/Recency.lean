import Mathlib.Data.Finset.Card
import Mathlib.Data.List.Nodup
import Mathlib.Data.List.TakeWhile

/-!
# The order of last uses

A history of uses is a list of keys, the latest first. `recency` lists the keys used, each
once, in the order of their last uses: using a key moves it to the front (`touch`).

* `mem_take_recency`: a key is among the first `n` of them exactly when it was used and fewer
  than `n` distinct other keys have been used since its last use. A cache that keeps the
  `n` most recent keys is a least-recently-used cache.
* `take_touch`: such a cache need not remember more than `n` keys.
-/

namespace BackendTasks.Cache

variable {K : Type*} [DecidableEq K] {k a : K} {l us : List K} {n : ℕ}

/-- Move `k` to the front, or put it there. -/
def touch (k : K) (l : List K) : List K := k :: l.erase k

/-- The keys used, the most recently used first. -/
def recency : List K → List K
  | [] => []
  | k :: us => touch k (recency us)

theorem nodup_recency : ∀ us : List K, (recency us).Nodup
  | [] => List.nodup_nil
  | k :: us => by
    have ih := nodup_recency us
    exact List.nodup_cons.2 ⟨ih.not_mem_erase, ih.erase k⟩

theorem mem_recency : k ∈ recency us ↔ k ∈ us := by
  induction us with
  | nil => rfl
  | cons a us ih =>
    rw [recency, touch, List.mem_cons, List.mem_cons, (nodup_recency us).mem_erase_iff, ih]
    by_cases hka : k = a <;> simp [hka]

/-! ## Who comes before a key -/

/-- The entries before the first `k` do not depend on the place of another key. -/
theorem takeWhile_erase (hak : a ≠ k) (l : List K) :
    (l.erase a).takeWhile (· ≠ k) = (l.takeWhile (· ≠ k)).erase a := by
  induction l with
  | nil => rfl
  | cons b l ih =>
    by_cases hba : b = a
    · subst hba
      simp [hak]
    · by_cases hbk : b = k
      · subst hbk
        rw [List.erase_cons_tail (by simpa using hba)]
        simp
      · rw [List.erase_cons_tail (by simpa using hba), List.takeWhile_cons_of_pos (by simpa using hbk),
          List.takeWhile_cons_of_pos (by simpa using hbk), List.erase_cons_tail (by simpa using hba), ih]

/-- The keys before `k` are those used since its last use. -/
theorem mem_takeWhile_recency :
    a ∈ (recency us).takeWhile (· ≠ k) ↔ a ∈ us.takeWhile (· ≠ k) := by
  induction us with
  | nil => rfl
  | cons b us ih =>
    rw [recency, touch]
    by_cases hbk : b = k
    · simp [hbk]
    · have hnodup : ((recency us).takeWhile (· ≠ k)).Nodup :=
        (nodup_recency us).sublist (List.takeWhile_sublist _)
      rw [List.takeWhile_cons_of_pos (by simpa using hbk),
        List.takeWhile_cons_of_pos (by simpa using hbk), takeWhile_erase hbk, List.mem_cons,
        List.mem_cons, hnodup.mem_erase_iff, ih]
      by_cases hab : a = b <;> simp [hab]

/-- An element is among the first `n` if fewer than `n` elements come before it. -/
theorem mem_take_iff : k ∈ l.take n ↔ k ∈ l ∧ (l.takeWhile (· ≠ k)).length < n := by
  induction l generalizing n with
  | nil => simp
  | cons b l ih =>
    cases n with
    | zero => simp
    | succ n =>
      rw [List.take_succ_cons, List.mem_cons, List.mem_cons, ih]
      by_cases hbk : b = k
      · simp [hbk]
      · rw [List.takeWhile_cons_of_pos (by simpa using hbk), List.length_cons]
        have : k ≠ b := fun h => hbk h.symm
        simp only [this, false_or, Nat.succ_lt_succ_iff]

/-- **The `n` most recently used keys.** -/
theorem mem_take_recency :
    k ∈ (recency us).take n ↔ k ∈ us ∧ (us.takeWhile (· ≠ k)).toFinset.card < n := by
  have hcard : ((recency us).takeWhile (· ≠ k)).length = (us.takeWhile (· ≠ k)).toFinset.card := by
    have hnodup : ((recency us).takeWhile (· ≠ k)).Nodup :=
      (nodup_recency us).sublist (List.takeWhile_sublist _)
    rw [← List.toFinset_card_of_nodup hnodup]
    congr 1
    ext a
    rw [List.mem_toFinset, List.mem_toFinset, mem_takeWhile_recency]
  rw [mem_take_iff, mem_recency, hcard]

/-! ## Keeping only the first keys -/

theorem take_erase : ((l.take (n + 1)).erase k).take n = (l.erase k).take n := by
  induction l generalizing n with
  | nil => simp
  | cons b l ih =>
    by_cases hbk : b = k
    · subst hbk
      rw [List.take_succ_cons, List.erase_cons_head, List.erase_cons_head, List.take_take, Nat.min_self]
    · cases n with
      | zero => rw [List.take_zero, List.take_zero]
      | succ n =>
        rw [List.take_succ_cons, List.erase_cons_tail (by simpa using hbk),
          List.erase_cons_tail (by simpa using hbk), List.take_succ_cons, List.take_succ_cons, ih]

/-- **Forgetting all but the first `n` keys changes nothing about them.** -/
theorem take_touch : (touch k (l.take n)).take n = (touch k l).take n := by
  cases n with
  | zero => rfl
  | succ n => rw [touch, touch, List.take_succ_cons, List.take_succ_cons, take_erase]

/-- Using a key that is among the first `n` drops none of them. -/
theorem take_touch_of_mem (h : k ∈ l.take n) : touch k (l.take n) = (touch k l).take n := by
  rw [← take_touch]
  refine (List.take_of_length_le ?_).symm
  have hlen : 0 < (l.take n).length := List.length_pos_of_mem h
  rw [touch, List.length_cons, List.length_erase_of_mem h]
  have := List.length_take_le n l
  omega

end BackendTasks.Cache
