import BackendTasks.Cache.Recency

/-!
# The same uses on a small and on a large cache

A cache of size `n` is a list of at most `n` keys, the most recently used first. A key that is
put in goes to the front, and the last key drops out if there are too many; a key that is looked
up goes to the front if it is there. The large cache has hits that the small one misses, so the
two lists come into different orders; but the small one stays a sublist of the large one
(`Included`), since it is full before the large one drops a key.

* `Included.put`, `Included.hit`: the two operations, on both caches at once.
-/

namespace BackendTasks.Cache

variable {K : Type*} [DecidableEq K] {k : K} {m n : ℕ} {s b l : List K}

/-- Put `k` into a cache of size `n`. -/
def put (n : ℕ) (k : K) (l : List K) : List K := (touch k l).take n

/-- Look `k` up. -/
def hit (k : K) (l : List K) : List K := if k ∈ l then touch k l else l

/-- The cache `s` of size `m` beside the cache `b` of size `n`. -/
structure Included (m n : ℕ) (s b : List K) : Prop where
  nodup : b.Nodup
  sub : s.Sublist b
  full : s.length = m ∨ s = b
  small : s.length ≤ m
  large : b.length ≤ n

omit [DecidableEq K] in
theorem included_nil (m n : ℕ) : Included m n ([] : List K) [] :=
  ⟨List.nodup_nil, .refl _, .inr rfl, Nat.zero_le m, Nat.zero_le n⟩

omit [DecidableEq K] in
theorem sublist_dropLast (h : s.Sublist b) : s.dropLast.Sublist b.dropLast := by
  have htail := h.reverse.tail.reverse
  rwa [List.tail_reverse, List.tail_reverse, List.reverse_reverse, List.reverse_reverse] at htail

theorem nodup_touch (h : l.Nodup) (k : K) : (touch k l).Nodup := by
  have hnot : k ∉ l.erase k := h.not_mem_erase
  exact List.nodup_cons.2 ⟨hnot, h.erase k⟩

theorem length_touch_le (k : K) (l : List K) : (touch k l).length ≤ l.length + 1 := by
  have hle : (l.erase k).length ≤ l.length := List.length_erase_le
  unfold touch
  rw [List.length_cons]
  omega

theorem length_touch_of_mem (h : k ∈ l) : (touch k l).length = l.length := by
  have hpos : 0 < l.length := List.length_pos_of_mem h
  unfold touch
  rw [List.length_cons, List.length_erase_of_mem h]
  omega

theorem length_touch_of_notMem (h : k ∉ l) : (touch k l).length = l.length + 1 := by
  unfold touch
  rw [List.length_cons, List.erase_of_not_mem h]

/-- Putting in drops at most the last key. -/
theorem put_eq (h : l.length ≤ n) :
    put n k l = touch k l ∨ ((touch k l).length = n + 1 ∧ put n k l = (touch k l).dropLast) := by
  have hle := length_touch_le k l
  by_cases hover : (touch k l).length ≤ n
  · exact .inl (List.take_of_length_le hover)
  · have hlen : (touch k l).length = n + 1 := by omega
    refine .inr ⟨hlen, ?_⟩
    unfold put
    rw [List.dropLast_eq_take, hlen, Nat.add_sub_cancel]

namespace Included

theorem touch_sublist (h : Included m n s b) (k : K) : (touch k s).Sublist (touch k b) :=
  (h.sub.erase k).cons_cons k

/-- If the large cache drops a key for `k`, the small one is full and drops one too. -/
theorem overflows (h : Included m n s b) (hmn : m ≤ n) (hb : (touch k b).length = n + 1) :
    (touch k s).length = m + 1 := by
  have hkb : k ∉ b := by
    intro hmem
    have hlen := length_touch_of_mem hmem
    have hle := h.large
    omega
  have hks : k ∉ s := fun hmem => hkb (h.sub.subset hmem)
  have hlb := length_touch_of_notMem hkb
  have hls := length_touch_of_notMem hks
  rcases h.full with hfull | heq
  · omega
  · have hle := h.small
    rw [heq] at hle hls ⊢
    omega

/-- **Putting a key into both caches.** -/
theorem put (h : Included m n s b) (hmn : m ≤ n) (k : K) :
    Included m n (put m k s) (put n k b) := by
  have hsub := h.touch_sublist k
  have hnodup : (Cache.put n k b).Nodup := (nodup_touch h.nodup k).sublist (List.take_sublist _ _)
  have hsmall : (Cache.put m k s).length ≤ m := List.length_take_le _ _
  have hlarge : (Cache.put n k b).length ≤ n := List.length_take_le _ _
  have hfull : (touch k s).length = m + 1 → (Cache.put m k s).length = m := by
    intro hlen
    unfold Cache.put
    rw [List.length_take, hlen]
    omega
  rcases put_eq (k := k) h.large with hb | ⟨hlenb, hb⟩
  · refine ⟨hnodup, ?_, ?_, hsmall, hlarge⟩
    · rw [hb]
      exact (List.take_sublist m _).trans hsub
    · rcases put_eq (k := k) h.small with hs | ⟨hlens, -⟩
      · rcases h.full with hm | heq
        · -- the small cache was full and has not dropped a key, so it had `k`
          have hmem : k ∈ s := by
            by_contra hnot
            have hlen := length_touch_of_notMem hnot
            rw [← hs] at hlen
            omega
          have hlen := length_touch_of_mem hmem
          exact .inl (by rw [hs]; omega)
        · exact .inr (by rw [hs, hb, heq])
      · exact .inl (hfull hlens)
  · have hlens := h.overflows hmn hlenb
    rcases put_eq (k := k) h.small with hs | ⟨-, hs⟩
    · rw [hs] at hsmall
      omega
    · refine ⟨hnodup, ?_, .inl (hfull hlens), hsmall, hlarge⟩
      rw [hs, hb]
      exact sublist_dropLast hsub

/-- **Looking a key up in both caches.** -/
theorem hit (h : Included m n s b) (k : K) : Included m n (hit k s) (hit k b) := by
  unfold Cache.hit
  by_cases hb : k ∈ b
  · rw [if_pos hb]
    have hlenb := length_touch_of_mem hb
    have hlarge : (touch k b).length ≤ n := hlenb ▸ h.large
    by_cases hs : k ∈ s
    · rw [if_pos hs]
      have hlens := length_touch_of_mem hs
      refine ⟨nodup_touch h.nodup k, h.touch_sublist k, ?_, hlens ▸ h.small, hlarge⟩
      rcases h.full with hfull | heq
      · exact .inl (by omega)
      · exact .inr (by rw [heq])
    · -- a key that only the large cache has: the small one is full
      rw [if_neg hs]
      have hfull : s.length = m := by
        refine h.full.resolve_right ?_
        intro heq
        rw [heq] at hs
        exact hs hb
      have hsub : s.Sublist (touch k b) := by
        have herase := h.sub.erase k
        rw [List.erase_of_not_mem hs] at herase
        exact herase.cons k
      exact ⟨nodup_touch h.nodup k, hsub, .inl hfull, h.small, hlarge⟩
  · have hs : k ∉ s := fun hmem => hb (h.sub.subset hmem)
    rw [if_neg hb, if_neg hs]
    exact h

end Included

end BackendTasks.Cache
