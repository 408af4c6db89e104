import BackendTasks.Proof.LruStripe
import BackendTasks.Cache.Recency

/-!
# The cache evicts the least recently used keys of a stripe

A use of a key is an `insert` of it or a `get` that finds it. After any calls the list of a
stripe holds the `capacity_` keys of the stripe that were used most recently, in the order
of their last uses (`Lru`).

* `get_lru`: so a `get` finds a key exactly when it was used and fewer than `capacity_`
  distinct other keys of its stripe have been used since its last use, and then returns the
  value inserted last. No call is undefined behaviour.
* `run_rep`: the map and the list of every stripe agree all along.
-/

namespace BackendTasks.ConcurrentLru

open Cache

variable {Key Value : Type*} {hash : Key → ℕ} {capacity : ℕ} {s : Striped Key Value}
  {c : Cache Key Value} {log : Log Key Value} {k : Key} {v : Value} {i : Fin 16}

/-- The key that a call uses, given what it returned. -/
def used : Call Key Value × Option Value → Option Key
  | (.insert key _, _) => some key
  | (.get key, some _) => some key
  | (.get _, none) => none

/-- The keys used, the latest use first. -/
def uses (log : Log Key Value) : List Key := log.filterMap used

/-- The keys of a stripe used, the latest use first. -/
def stripeUses (hash : Key → ℕ) (i : Fin 16) (log : Log Key Value) : List Key :=
  (uses log).filter (getStriped hash · = i)

theorem map_entries (s : Striped Key Value) : s.entries.map Prod.fst = s.list.map Node.key := by
  rw [Striped.entries, List.map_map]
  rfl

theorem stripeUses_use (hk : getStriped hash k = i) {x : Call Key Value × Option Value}
    (hx : used x = some k) : stripeUses hash i (x :: log) = k :: stripeUses hash i log := by
  rw [stripeUses, uses, List.filterMap_cons_some hx, List.filter_cons_of_pos (by simpa using hk)]
  rfl

variable [DecidableEq Key]

/-- The value that a call inserts for the key. -/
def inserted (key : Key) : Call Key Value × Option Value → Option Value
  | (.insert j value, _) => if j = key then some value else none
  | (.get _, _) => none

/-- The value of the most recent `insert` of the key. -/
def lastInserted (log : Log Key Value) (key : Key) : Option Value := log.findSome? (inserted key)

/-- A stripe after the calls in the log. -/
structure Lru (hash : Key → ℕ) (capacity : ℕ) (log : Log Key Value) (i : Fin 16)
    (s : Striped Key Value) : Prop where
  ok : s.OK
  order : s.entries.map Prod.fst = (recency (stripeUses hash i log)).take capacity
  values : ∀ e ∈ s.entries, lastInserted log e.1 = some e.2

/-! ## One stripe -/

namespace Lru

theorem length_le (h : Lru hash capacity log i s) : s.list.length ≤ capacity := by
  have := congrArg List.length h.order
  rw [map_entries, List.length_map] at this
  rw [this]
  exact List.length_take_le _ _

/-- A stripe holds keys of its own only. -/
theorem striped (h : Lru hash capacity log i s) {e : Key × Value} (he : e ∈ s.entries) :
    getStriped hash e.1 = i := by
  have hmem : e.1 ∈ s.entries.map Prod.fst := List.mem_map_of_mem he
  rw [h.order] at hmem
  have := mem_recency.1 (List.mem_of_mem_take hmem)
  simpa using (List.mem_filter.1 this).2

/-- Removing the entry of a key. -/
theorem map_filter (h : s.OK) (k : Key) :
    (s.entries.filter (·.1 != k)).map Prod.fst = (s.entries.map Prod.fst).erase k := by
  have hnodup : (s.entries.map Prod.fst).Nodup := by rw [map_entries]; exact h.keys
  rw [hnodup.erase_eq_filter, List.filter_map]
  rfl

/-- The stripe after an `insert`. -/
theorem insert (h : Lru hash capacity log i s) (hk : getStriped hash k = i) (v : Value) :
    ∃ s', s.insert capacity k v = some s' ∧
      Lru hash capacity ((.insert k v, none) :: log) i s' := by
  obtain ⟨s', hs', hok, hentries⟩ := Striped.insert_spec h.ok h.length_le k v
  refine ⟨s', hs', hok, ?_, fun e he => ?_⟩
  · rw [stripeUses_use hk rfl, recency, ← take_touch, ← h.order, hentries, List.map_take,
      List.map_cons, map_filter h.ok, touch]
  · rw [hentries] at he
    rcases List.mem_cons.1 (List.mem_of_mem_take he) with rfl | he
    · simp [lastInserted, inserted]
    · obtain ⟨he, hne⟩ := List.mem_filter.1 he
      have hne' : k ≠ e.1 := fun h => by simp [h] at hne
      simpa [lastInserted, inserted, hne'] using h.values e he

/-- What a `get` finds, and the stripe afterwards. -/
theorem get (h : Lru hash capacity log i s) (hk : getStriped hash k = i) :
    ∃ s' r, s.get k = some (s', r) ∧ Lru hash capacity ((.get k, r) :: log) i s' ∧
      (r.isSome = true ↔ k ∈ (recency (stripeUses hash i log)).take capacity) ∧
      ∀ v, r = some v → lastInserted log k = some v := by
  cases hdata : s.data k with
  | none =>
    refine ⟨s, none, Striped.get_miss hdata, ⟨h.ok, h.order, h.values⟩, ?_, nofun⟩
    rw [← h.order, map_entries]
    simp only [Option.isSome_none, Bool.false_eq_true, false_iff, List.mem_map, not_exists, not_and]
    exact h.ok.data_none hdata
  | some it =>
    obtain ⟨s', v, hs', hok, hmem, hentries⟩ := Striped.get_hit h.ok hdata
    have hfound : k ∈ (recency (stripeUses hash i log)).take capacity := by
      rw [← h.order]
      exact List.mem_map_of_mem hmem
    refine ⟨s', some v, hs', ⟨hok, ?_, fun e he => ?_⟩, by simpa using hfound, ?_⟩
    · rw [stripeUses_use hk rfl, recency, ← take_touch_of_mem hfound, ← h.order, hentries,
        List.map_cons, map_filter h.ok, touch]
    · rw [hentries] at he
      rcases List.mem_cons.1 he with rfl | he
      · exact h.values _ hmem
      · exact h.values e (List.mem_filter.1 he).1
    · rintro w ⟨⟩
      exact h.values _ hmem

/-- A call on another stripe. -/
theorem other (h : Lru hash capacity log i s) {x : Call Key Value × Option Value}
    (hx : ∀ j ∈ used x, getStriped hash j ≠ i)
    (hv : ∀ j, getStriped hash j = i → inserted j x = none) : Lru hash capacity (x :: log) i s := by
  refine ⟨h.ok, ?_, fun e he => ?_⟩
  · rw [h.order, stripeUses, stripeUses, uses, uses]
    cases hu : used x with
    | none => rw [List.filterMap_cons_none hu]
    | some j =>
      rw [List.filterMap_cons_some hu, List.filter_cons_of_neg (by simpa using hx j hu)]
  · rw [lastInserted, List.findSome?_cons, hv e.1 (h.striped he)]
    exact h.values e he

end Lru

/-! ## The cache -/

/-- The cache after the calls in the log. -/
def Cached (hash : Key → ℕ) (capacity : ℕ) (c : Cache Key Value) (log : Log Key Value) : Prop :=
  ∀ i, Lru hash capacity log i (c i)

/-- **One call** is defined and keeps the stripes in order. -/
theorem Cached.call (h : Cached hash capacity c log) (x : Call Key Value) :
    ∃ c' r, call hash capacity c x = some (c', r) ∧ Cached hash capacity c' ((x, r) :: log) := by
  cases x with
  | insert k v =>
    obtain ⟨s', hs', hlru⟩ := (h (getStriped hash k)).insert rfl v
    refine ⟨Function.update c (getStriped hash k) s', none, ?_, fun i => ?_⟩
    · rw [ConcurrentLru.call, hs', Option.map_some]
    by_cases hi : i = getStriped hash k
    · subst hi
      rw [Function.update_self]
      exact hlru
    · rw [Function.update_of_ne hi]
      refine (h i).other (fun j hj => ?_) fun j hj => ?_
      · cases hj; exact fun e => hi e.symm
      · have hne : k ≠ j := by rintro rfl; exact hi hj.symm
        simp [inserted, hne]
  | get k =>
    obtain ⟨s', r, hs', hlru, -, -⟩ := (h (getStriped hash k)).get rfl
    refine ⟨Function.update c (getStriped hash k) s', r, ?_, fun i => ?_⟩
    · rw [ConcurrentLru.call, hs', Option.map_some]
    by_cases hi : i = getStriped hash k
    · subst hi
      rw [Function.update_self]
      exact hlru
    · rw [Function.update_of_ne hi]
      refine (h i).other (fun j hj => ?_) fun _ _ => rfl
      cases r with
      | none => cases hj
      | some v => cases hj; exact fun e => hi e.symm

/-- **Any sequence of calls.** -/
theorem Cached.run (h : Cached hash capacity c log) (calls : List (Call Key Value)) :
    ∃ c' log', run hash capacity c log calls = some (c', log') ∧ Cached hash capacity c' log' ∧
      log'.map Prod.fst = calls.reverse ++ log.map Prod.fst := by
  induction calls generalizing c log with
  | nil => exact ⟨c, log, rfl, h, rfl⟩
  | cons x calls ih =>
    obtain ⟨c₁, r, hcall, h₁⟩ := h.call x
    obtain ⟨c', log', hrun, h', hlog⟩ := ih h₁
    refine ⟨c', log', ?_, h', ?_⟩
    · rw [ConcurrentLru.run, hcall, Option.bind_some, hrun]
    · rw [hlog]; simp

theorem cached_construct : Cached hash capacity (construct : Cache Key Value) [] := by
  intro i
  refine ⟨⟨List.nodup_nil, List.nodup_nil, nofun, fun k it => ?_⟩, ?_, nofun⟩
  · simp [construct]
  · simp [construct, Striped.entries, stripeUses, uses, recency]

/-! ## The representation -/

/-- The stripe with index `i` in order: `data_` has an entry for the keys of `list_` alone, and its
iterator refers to the live node of the key. -/
structure Striped.Rep (hash : Key → ℕ) (capacity : ℕ) (i : Fin 16) (s : Striped Key Value) : Prop where
  keys : (s.list.map Node.key).Nodup
  entries : ∀ k, (∃ it, s.data k = some it) ↔ k ∈ s.list.map Node.key
  live : ∀ k it, s.data k = some it → ∃ nd ∈ s.list, nd.key = k ∧ s.deref it = some nd
  striped : ∀ nd ∈ s.list, hash nd.key % 16 = i
  size : s.list.length ≤ capacity

theorem Lru.rep (h : Lru hash capacity log i s) : s.Rep hash capacity i := by
  refine ⟨h.ok.keys, fun k => ?_, fun k it hk => ?_, fun nd hmem => ?_, h.length_le⟩
  · rw [List.mem_map]
    constructor
    · rintro ⟨it, hk⟩
      obtain ⟨nd, hmem, hkey, -⟩ := (h.ok.data k it).1 hk
      exact ⟨nd, hmem, hkey⟩
    · rintro ⟨nd, hmem, hkey⟩
      exact ⟨nd.iter, (h.ok.data k nd.iter).2 ⟨nd, hmem, hkey, rfl⟩⟩
  · obtain ⟨nd, hmem, hkey, -, hderef⟩ := h.ok.deref hk
    exact ⟨nd, hmem, hkey, hderef⟩
  · have hentry : (nd.key, nd.value) ∈ s.entries := List.mem_map_of_mem hmem
    have hi : getStriped hash nd.key = i := h.striped hentry
    rw [← hi]
    rfl

/-- **The map and the list of every stripe agree.** No call of any sequence erases, moves or reads
through an iterator whose node is gone, and after the calls every stripe is in order. -/
theorem run_rep (hash : Key → ℕ) (capacity : ℕ) (calls : List (Call Key Value)) :
    ∃ c log, run hash capacity construct [] calls = some (c, log) ∧ ∀ i, (c i).Rep hash capacity i := by
  have hstart : Cached hash capacity (construct : Cache Key Value) [] := cached_construct
  obtain ⟨c, log, hrun, hcached, -⟩ := hstart.run calls
  exact ⟨c, log, hrun, fun i => (hcached i).rep⟩

/-! ## Hits and misses -/

/-- The uses of a stripe since the last use of one of its keys. -/
theorem takeWhile_stripeUses (hash : Key → ℕ) (log : Log Key Value) (k : Key) :
    (stripeUses hash (getStriped hash k) log).takeWhile (· ≠ k) =
      ((uses log).takeWhile (· ≠ k)).filter (getStriped hash · = getStriped hash k) := by
  rw [stripeUses]
  generalize uses log = us
  induction us with
  | nil => rfl
  | cons a us ih =>
    by_cases hak : a = k
    · subst hak
      simp
    · rw [List.takeWhile_cons_of_pos (by simpa using hak)]
      by_cases ha : getStriped hash a = getStriped hash k
      · rw [List.filter_cons_of_pos (by simpa using ha), List.filter_cons_of_pos (by simpa using ha),
          List.takeWhile_cons_of_pos (by simpa using hak), ih]
      · rw [List.filter_cons_of_neg (by simpa using ha), List.filter_cons_of_neg (by simpa using ha), ih]

/-- **The cache is a least-recently-used cache in each stripe.** Every sequence of calls is
defined. After it, a `get` of `k` returns a value exactly when `k` was used and fewer than
`capacity_` distinct other keys of its stripe have been used since its last use; the value is
that of the most recent `insert` of `k`. -/
theorem get_lru (hash : Key → ℕ) (capacity : ℕ) (calls : List (Call Key Value)) :
    ∃ c log, run hash capacity construct [] calls = some (c, log) ∧ log.map Prod.fst = calls.reverse ∧
      ∀ k, ∃ c' r, call hash capacity c (.get k) = some (c', r) ∧
        (r.isSome = true ↔ k ∈ uses log ∧ (((uses log).takeWhile (· ≠ k)).filter
          (getStriped hash · = getStriped hash k)).toFinset.card < capacity) ∧
        ∀ v, r = some v → lastInserted log k = some v := by
  have hstart : Cached hash capacity (construct : Cache Key Value) [] := cached_construct
  obtain ⟨c, log, hrun, hcached, hlog⟩ := hstart.run calls
  refine ⟨c, log, hrun, by simpa using hlog, fun k => ?_⟩
  obtain ⟨s', r, hs', -, hfound, hvalue⟩ := (hcached (getStriped hash k)).get rfl
  refine ⟨_, r, by rw [call, hs', Option.map_some], ?_, hvalue⟩
  have hmem : k ∈ stripeUses hash (getStriped hash k) log ↔ k ∈ uses log := by
    simp [stripeUses, List.mem_filter]
  rw [hfound, mem_take_recency, hmem, takeWhile_stripeUses]

/-- Keys 0 and 16 share a stripe of capacity 1, so the second evicts the first. -/
example : ((run id 1 construct [] [.insert 0 7, .insert 16 8]).bind fun r =>
    (call id 1 r.1 (.get 0)).map Prod.snd) = some none := by decide

end BackendTasks.ConcurrentLru
