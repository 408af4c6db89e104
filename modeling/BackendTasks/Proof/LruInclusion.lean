import BackendTasks.Proof.LruHistory
import BackendTasks.Cache.Inclusion

/-!
# A larger cache never misses where a smaller one hits

The same calls on a cache with `capacity_` `m` and on one with `n ≥ m`. A `get` that misses does not
insert, so what counts as a use differs between the two; still the keys of each stripe of the small
cache stay among those of the large one (`Nested`).

* `hits_grow`: a `get` that returns a value from the small cache returns the same value from the
  large one, at every point of the run.
-/

namespace BackendTasks.ConcurrentLru

open Cache

variable {Key Value : Type*} [DecidableEq Key] {hash : Key → ℕ} {capacity m n : ℕ}
  {s s' : Striped Key Value} {c c₁ c₂ : Cache Key Value} {log log₁ log₂ : Log Key Value} {k : Key}
  {v : Value} {r : Option Value}

/-- The keys of a stripe in the order of the list. -/
def Striped.keyList (s : Striped Key Value) : List Key := s.entries.map Prod.fst

/-- What the calls do to the keys of a stripe. -/
theorem insert_keys (h : s.OK) (hlen : s.list.length ≤ capacity) (k : Key) (v : Value)
    (hs : s.insert capacity k v = some s') : s'.keyList = put capacity k s.keyList := by
  obtain ⟨s₁, hs₁, -, hentries⟩ := Striped.insert_spec h hlen k v
  obtain rfl : s₁ = s' := Option.some.inj (hs₁.symm.trans hs)
  unfold Striped.keyList put
  rw [hentries, List.map_take, List.map_cons, Lru.map_filter h]
  rfl

theorem get_keys (h : s.OK) (hs : s.get k = some (s', r)) :
    (r.isSome = true ↔ k ∈ s.keyList) ∧ s'.keyList = hit k s.keyList := by
  have hkeys : s.keyList = s.list.map Node.key := map_entries s
  cases hk : s.data k with
  | none =>
    have hnot : k ∉ s.keyList := by
      intro hmem
      rw [hkeys] at hmem
      obtain ⟨nd, hnd, hkey⟩ := List.mem_map.1 hmem
      exact h.data_none hk nd hnd hkey
    rw [Striped.get_miss hk] at hs
    cases hs
    refine ⟨⟨nofun, fun hmem => absurd hmem hnot⟩, ?_⟩
    unfold hit
    rw [if_neg hnot]
  | some it =>
    obtain ⟨s₁, v, hs₁, -, hmem, hentries⟩ := Striped.get_hit h hk
    cases hs₁.symm.trans hs
    have hin : k ∈ s.keyList := List.mem_map_of_mem (f := Prod.fst) hmem
    refine ⟨⟨fun _ => hin, fun _ => rfl⟩, ?_⟩
    unfold hit
    rw [if_pos hin, Striped.keyList, hentries, List.map_cons, Lru.map_filter h]
    rfl

theorem call_insert {c' : Cache Key Value}
    (h : call hash capacity c (.insert k v) = some (c', r)) :
    ∃ s', (c (getStriped hash k)).insert capacity k v = some s' ∧
      c' = Function.update c (getStriped hash k) s' ∧ r = none := by
  obtain ⟨s', hs, heq⟩ := Option.map_eq_some_iff.1 h
  cases heq
  exact ⟨s', hs, rfl, rfl⟩

theorem call_get {c' : Cache Key Value} (h : call hash capacity c (.get k) = some (c', r)) :
    ∃ s', (c (getStriped hash k)).get k = some (s', r) ∧
      c' = Function.update c (getStriped hash k) s' := by
  obtain ⟨⟨s', r'⟩, hs, heq⟩ := Option.map_eq_some_iff.1 h
  cases heq
  exact ⟨s', hs, rfl⟩

/-! ## The two caches -/

/-- The same call, and what it returns in `a`, if anything, it returns in `b`. -/
def Agrees (a b : Call Key Value × Option Value) : Prop :=
  a.1 = b.1 ∧ ∀ v, a.2 = some v → b.2 = some v

/-- What was inserted last does not depend on what the calls have returned. -/
theorem lastInserted_congr (h : List.Forall₂ Agrees log₁ log₂) (k : Key) :
    lastInserted log₁ k = lastInserted log₂ k := by
  induction h with
  | nil => rfl
  | @cons a b l₁ l₂ hab _ ih =>
    have hsame : inserted k a = inserted k b := by
      obtain ⟨x, r⟩ := a
      obtain ⟨y, r'⟩ := b
      obtain rfl : x = y := hab.1
      cases x <;> rfl
    unfold lastInserted at ih ⊢
    rw [List.findSome?_cons, List.findSome?_cons, hsame, ih]

/-- The small cache inside the large one, after the same calls. -/
structure Nested (hash : Key → ℕ) (m n : ℕ) (c₁ c₂ : Cache Key Value) (log₁ log₂ : Log Key Value) :
    Prop where
  small : Cached hash m c₁ log₁
  large : Cached hash n c₂ log₂
  calls : List.Forall₂ Agrees log₁ log₂
  keys : ∀ i, Included m n (c₁ i).keyList (c₂ i).keyList

omit [DecidableEq Key] in
/-- A call changes one stripe of each cache. -/
theorem included_update {i : Fin 16} {s₁ s₂ : Striped Key Value}
    (h : ∀ j, Included m n (c₁ j).keyList (c₂ j).keyList) (hi : Included m n s₁.keyList s₂.keyList)
    (j : Fin 16) :
    Included m n (Function.update c₁ i s₁ j).keyList (Function.update c₂ i s₂ j).keyList := by
  by_cases hj : j = i
  · subst hj
    rw [Function.update_self, Function.update_self]
    exact hi
  · rw [Function.update_of_ne hj, Function.update_of_ne hj]
    exact h j

/-- **One call on both caches.** -/
theorem Nested.call (h : Nested hash m n c₁ c₂ log₁ log₂) (hmn : m ≤ n) (x : Call Key Value) :
    ∃ c₁' r₁ c₂' r₂, call hash m c₁ x = some (c₁', r₁) ∧ call hash n c₂ x = some (c₂', r₂) ∧
      Nested hash m n c₁' c₂' ((x, r₁) :: log₁) ((x, r₂) :: log₂) := by
  obtain ⟨c₁', r₁, h₁, hsmall⟩ := h.small.call x
  obtain ⟨c₂', r₂, h₂, hlarge⟩ := h.large.call x
  refine ⟨c₁', r₁, c₂', r₂, h₁, h₂, ?_⟩
  cases x with
  | insert k v =>
    obtain ⟨s₁, hs₁, rfl, rfl⟩ := call_insert h₁
    obtain ⟨s₂, hs₂, rfl, rfl⟩ := call_insert h₂
    have hkeys₁ := insert_keys (h.small _).ok (h.small _).length_le k v hs₁
    have hkeys₂ := insert_keys (h.large _).ok (h.large _).length_le k v hs₂
    refine ⟨hsmall, hlarge, .cons ⟨rfl, fun _ => id⟩ h.calls, included_update h.keys ?_⟩
    rw [hkeys₁, hkeys₂]
    exact (h.keys _).put hmn k
  | get k =>
    obtain ⟨s₁, hs₁, rfl⟩ := call_get h₁
    obtain ⟨s₂, hs₂, rfl⟩ := call_get h₂
    obtain ⟨hfound₁, hkeys₁⟩ := get_keys (h.small _).ok hs₁
    obtain ⟨hfound₂, hkeys₂⟩ := get_keys (h.large _).ok hs₂
    have hstripe := h.keys (getStriped hash k)
    have hagrees : ∀ v, r₁ = some v → r₂ = some v := by
      intro v hv
      have hin₂ : k ∈ (c₂ (getStriped hash k)).keyList := hstripe.sub.subset (hfound₁.1 (by rw [hv]; rfl))
      obtain ⟨w, hw⟩ := Option.isSome_iff_exists.1 (hfound₂.2 hin₂)
      obtain ⟨t₁, q₁, ht₁, -, -, hlast₁⟩ := (h.small (getStriped hash k)).get rfl
      obtain ⟨t₂, q₂, ht₂, -, -, hlast₂⟩ := (h.large (getStriped hash k)).get rfl
      cases ht₁.symm.trans hs₁
      cases ht₂.symm.trans hs₂
      have hsame := lastInserted_congr h.calls k
      rw [hlast₁ v hv, hlast₂ w hw] at hsame
      rw [hw, Option.some.inj hsame]
    refine ⟨hsmall, hlarge, .cons ⟨rfl, hagrees⟩ h.calls, included_update h.keys ?_⟩
    rw [hkeys₁, hkeys₂]
    exact hstripe.hit k

/-- **Any sequence of calls on both caches.** -/
theorem Nested.run (h : Nested hash m n c₁ c₂ log₁ log₂) (hmn : m ≤ n) (calls : List (Call Key Value)) :
    ∃ c₁' log₁' c₂' log₂', run hash m c₁ log₁ calls = some (c₁', log₁') ∧
      run hash n c₂ log₂ calls = some (c₂', log₂') ∧ Nested hash m n c₁' c₂' log₁' log₂' := by
  induction calls generalizing c₁ c₂ log₁ log₂ with
  | nil => exact ⟨c₁, log₁, c₂, log₂, rfl, rfl, h⟩
  | cons x calls ih =>
    obtain ⟨d₁, r₁, d₂, r₂, h₁, h₂, hnext⟩ := h.call hmn x
    obtain ⟨c₁', log₁', c₂', log₂', hrun₁, hrun₂, hend⟩ := ih hnext
    refine ⟨c₁', log₁', c₂', log₂', ?_, ?_, hend⟩
    · rw [ConcurrentLru.run, h₁, Option.bind_some, hrun₁]
    · rw [ConcurrentLru.run, h₂, Option.bind_some, hrun₂]

/-- **Hits grow with the capacity.** Any sequence of calls on a cache with `capacity_` `m` and on one
with `n ≥ m`: at every point of the run a `get` that returns a value from the small cache returns it
from the large one too; and at the end the keys of each stripe of the small cache are among those of
the large one, in the same order. -/
theorem hits_grow (hash : Key → ℕ) (hmn : m ≤ n) (calls : List (Call Key Value)) :
    ∃ c₁ log₁ c₂ log₂, run hash m construct [] calls = some (c₁, log₁) ∧
      run hash n construct [] calls = some (c₂, log₂) ∧ List.Forall₂ Agrees log₁ log₂ ∧
        ∀ i, ((c₁ i).keyList).Sublist (c₂ i).keyList := by
  have hstart : Nested hash m n (construct : Cache Key Value) construct [] [] :=
    ⟨cached_construct, cached_construct, .nil, fun _ => included_nil m n⟩
  obtain ⟨c₁, log₁, c₂, log₂, hrun₁, hrun₂, hend⟩ := hstart.run hmn calls
  exact ⟨c₁, log₁, c₂, log₂, hrun₁, hrun₂, hend.calls, fun i => (hend.keys i).sub⟩

/-- Capacities 1 and 2; keys 0, 16 and 32 share a stripe. The `get` of 0 hits in the large cache only. -/
theorem hits_grow_two : ∃ c₁ log₁ c₂ log₂,
    run id 1 construct [] [.insert 0 7, .insert 16 8, .get 0, .insert 32 9] = some (c₁, log₁) ∧
      run id 2 construct [] [.insert 0 7, .insert 16 8, .get 0, .insert 32 9] = some (c₂, log₂) ∧
        List.Forall₂ Agrees log₁ log₂ ∧ ∀ i, ((c₁ i).keyList).Sublist (c₂ i).keyList :=
  hits_grow id (Nat.le_succ 1) _

end BackendTasks.ConcurrentLru
