import Mathlib.Algebra.BigOperators.Group.Finset.Basic
import Mathlib.Algebra.Order.BigOperators.Group.Finset
import Mathlib.Data.List.Chain

/-!
# Reading a sum part by part

An object with `n` parts changes over time while somebody adds up the sizes of its parts,
one after the other. A history lists the states of the object, the current one last.

If parts never shrink and the whole grows by at most one at a time (`Slow`), the sum read is
the size of the whole at some instant since the reading began, although no single state may
have had these parts together (`Reading.attained`).
-/

namespace BackendTasks.Sched

open Finset

variable {α : Type*} {part : α → ℕ → ℕ} {n k acc start : ℕ} {l : List α} {a b : α}

/-- The size of the first `n` parts. -/
def upTo (part : α → ℕ → ℕ) (n : ℕ) (a : α) : ℕ := ∑ i ∈ range n, part a i

/-- One change: no part shrinks, and the whole grows by at most one. -/
structure Grows (part : α → ℕ → ℕ) (n : ℕ) (a b : α) : Prop where
  parts : ∀ i, part a i ≤ part b i
  whole : upTo part n b ≤ upTo part n a + 1

/-- A history of such changes. -/
def Slow (part : α → ℕ → ℕ) (n : ℕ) (l : List α) : Prop := l.IsChain (Grows part n)

/-- A reading that began at the instant `start` has read the first `k` parts of `n`, adding up
to `acc`: at least what they were then, and at most what they are now. -/
structure Reading (part : α → ℕ → ℕ) (l : List α) (start k acc : ℕ) : Prop where
  before : ∃ a, l[start]? = some a ∧ upTo part k a ≤ acc
  now : ∃ b, l.getLast? = some b ∧ acc ≤ upTo part k b

theorem upTo_succ (part : α → ℕ → ℕ) (k : ℕ) (a : α) : upTo part (k + 1) a = upTo part k a + part a k :=
  sum_range_succ _ _

theorem upTo_mono (h : ∀ i, part a i ≤ part b i) (k : ℕ) : upTo part k a ≤ upTo part k b :=
  sum_le_sum fun i _ => h i

/-! ## Slow histories -/

theorem Slow.snoc (h : Slow part n (l ++ [a])) (hab : Grows part n a b) :
    Slow part n (l ++ [a] ++ [b]) := by
  refine List.isChain_append.2 ⟨h, .singleton b, fun x hx y hy => ?_⟩
  obtain rfl : a = x := by simpa using hx
  obtain rfl : b = y := by simpa using hy
  exact hab

/-- No part is smaller at a later instant. -/
theorem Slow.parts_le (h : Slow part n l) {i j : ℕ} (hij : i ≤ j) (hi : l[i]? = some a)
    (hj : l[j]? = some b) (k : ℕ) : part a k ≤ part b k := by
  induction j generalizing b with
  | zero =>
    obtain rfl : i = 0 := Nat.le_zero.1 hij
    rw [hi] at hj
    rw [Option.some.inj hj]
  | succ j ih =>
    rcases Nat.eq_or_lt_of_le hij with rfl | hlt
    · rw [hi] at hj
      rw [Option.some.inj hj]
    · obtain ⟨hlen, rfl⟩ := List.getElem?_eq_some_iff.1 hj
      have hstep : Grows part n l[j] l[j + 1] := List.isChain_iff_getElem.1 h j hlen
      have hle := ih (Nat.le_of_lt_succ hlt) (List.getElem?_eq_getElem (by omega))
      exact hle.trans (hstep.parts k)

/-- **No size is skipped.** What is at least the size at one instant and at most the size at a
later one is the size at some instant from the first on. -/
theorem Slow.attained (h : Slow part n l) {i j : ℕ} (hij : i ≤ j) (hi : l[i]? = some a)
    (hj : l[j]? = some b) (hlo : upTo part n a ≤ acc) (hhi : acc ≤ upTo part n b) :
    ∃ k c, i ≤ k ∧ l[k]? = some c ∧ upTo part n c = acc := by
  induction j generalizing b with
  | zero =>
    obtain rfl : i = 0 := Nat.le_zero.1 hij
    rw [hi] at hj
    obtain rfl : a = b := Option.some.inj hj
    exact ⟨0, a, le_rfl, hi, le_antisymm hlo hhi⟩
  | succ j ih =>
    rcases Nat.eq_or_lt_of_le hij with rfl | hlt
    · rw [hi] at hj
      obtain rfl : a = b := Option.some.inj hj
      exact ⟨_, a, le_rfl, hi, le_antisymm hlo hhi⟩
    · obtain ⟨hlen, rfl⟩ := List.getElem?_eq_some_iff.1 hj
      have hstep : Grows part n l[j] l[j + 1] := List.isChain_iff_getElem.1 h j hlen
      have hwhole := hstep.whole
      by_cases hprev : acc ≤ upTo part n l[j]
      · exact ih (Nat.le_of_lt_succ hlt) (List.getElem?_eq_getElem (by omega)) hprev
      · exact ⟨j + 1, _, hij, hj, by omega⟩

/-! ## Readings -/

/-- A reading begins. -/
theorem Reading.begin (a : α) : Reading part (l ++ [a]) l.length 0 0 :=
  ⟨⟨a, by simp, le_rfl⟩, ⟨a, by simp, le_rfl⟩⟩

/-- A reading while the object changes. -/
theorem Reading.grow (h : Reading part (l ++ [a]) start k acc) (hab : ∀ i, part a i ≤ part b i) :
    Reading part (l ++ [a] ++ [b]) start k acc := by
  obtain ⟨⟨c, hc, hlo⟩, d, hd, hhi⟩ := h
  obtain rfl : a = d := by simpa using hd
  have hlen := (List.getElem?_eq_some_iff.1 hc).1
  refine ⟨⟨c, ?_, hlo⟩, b, by simp, hhi.trans (upTo_mono hab k)⟩
  rw [List.getElem?_append_left hlen]
  exact hc

/-- The next part is read. -/
theorem Reading.read (h : Reading part (l ++ [a]) start k acc) (hslow : Slow part n (l ++ [a])) :
    Reading part (l ++ [a]) start (k + 1) (acc + part a k) := by
  obtain ⟨⟨c, hc, hlo⟩, d, hd, hhi⟩ := h
  obtain rfl : a = d := by simpa using hd
  have hlen := (List.getElem?_eq_some_iff.1 hc).1
  have hstart : start ≤ l.length := by
    rw [List.length_append, List.length_singleton] at hlen
    omega
  have hpart : part c k ≤ part a k := hslow.parts_le hstart hc (by simp) k
  refine ⟨⟨c, hc, ?_⟩, a, hd, ?_⟩
  · rw [upTo_succ]; omega
  · rw [upTo_succ]; omega

/-- **The sum read was the size of the whole at some instant since the reading began.** -/
theorem Reading.attained (h : Reading part (l ++ [a]) start n acc) (hslow : Slow part n (l ++ [a])) :
    ∃ k c, start ≤ k ∧ (l ++ [a])[k]? = some c ∧ upTo part n c = acc := by
  obtain ⟨⟨c, hc, hlo⟩, d, hd, hhi⟩ := h
  obtain rfl : a = d := by simpa using hd
  have hlen := (List.getElem?_eq_some_iff.1 hc).1
  have hstart : start ≤ l.length := by
    rw [List.length_append, List.length_singleton] at hlen
    omega
  exact hslow.attained hstart hc (by simp) hlo hhi

end BackendTasks.Sched
