import BackendTasks.Proof.LruHistory
import BackendTasks.Sched.Reading
import Mathlib.Algebra.BigOperators.Fin
import Mathlib.Algebra.BigOperators.Group.Finset.Piecewise

/-!
# The size of the cache

`size` and `empty` lock one stripe after the other, and other threads change the stripes that
were counted and those that were not. But no call takes elements from a stripe without putting
as many back, and each adds at most one (`Cached.grows`), so what they add up was the size
of the cache at some instant of the call.

* `size_instant`: so `size` and `empty` answer what was true at an instant of the call.
-/

namespace BackendTasks.ConcurrentLru

open Sched

variable {ι Key Value : Type*} {hash : Key → ℕ} {capacity : ℕ} {s s' : Striped Key Value}
  {c c' : Cache Key Value} {log : Log Key Value} {k : Key} {v : Value} {r : Option Value}

/-- The number of elements in the cache. -/
def elements (c : Cache Key Value) : ℕ := ∑ i, (c i).list.length

/-- The number of elements in a stripe. -/
def len (c : Cache Key Value) (i : ℕ) : ℕ := if h : i < 16 then (c ⟨i, h⟩).list.length else 0

theorem upTo_len (c : Cache Key Value) : upTo len 16 c = elements c := by
  rw [upTo, Finset.sum_range]
  refine Finset.sum_congr rfl fun i _ => ?_
  rw [len, dif_pos i.isLt]

theorem length_entries (s : Striped Key Value) : s.entries.length = s.list.length := List.length_map ..

variable [DecidableEq Key]

/-! ## A call grows a stripe by at most one -/

/-- Removing a key removes at most one entry. -/
theorem length_without (h : s.OK) (k : Key) :
    s.list.length - 1 ≤ (s.entries.filter (·.1 != k)).length ∧
      (s.entries.filter (·.1 != k)).length ≤ s.list.length := by
  have hlen : (s.entries.filter (·.1 != k)).length = ((s.entries.map Prod.fst).erase k).length := by
    rw [← Lru.map_filter h, List.length_map]
  rw [hlen, List.length_erase, List.length_map, length_entries]
  split <;> omega

theorem insert_length (h : s.OK) (hlen : s.list.length ≤ capacity)
    (hs : s.insert capacity k v = some s') :
    s.list.length ≤ s'.list.length ∧ s'.list.length ≤ s.list.length + 1 := by
  obtain ⟨s₁, hs₁, -, hentries⟩ := Striped.insert_spec h hlen k v
  obtain rfl : s₁ = s' := Option.some.inj (hs₁.symm.trans hs)
  have hnew := congrArg List.length hentries
  rw [length_entries, List.length_take, List.length_cons] at hnew
  have hwithout := length_without h k
  omega

theorem get_length (h : s.OK) (hs : s.get k = some (s', r)) : s'.list.length = s.list.length := by
  cases hdata : s.data k with
  | none =>
    rw [Striped.get_miss hdata] at hs
    cases hs
    rfl
  | some it =>
    obtain ⟨s₁, v, hs₁, -, hmem, hentries⟩ := Striped.get_hit h hdata
    rw [hs₁] at hs
    cases hs
    have hkey : k ∈ s.entries.map Prod.fst := List.mem_map_of_mem hmem
    have hwithout : (s.entries.filter (·.1 != k)).length = s.list.length - 1 := by
      rw [← List.length_map (f := Prod.fst), Lru.map_filter h, List.length_erase_of_mem hkey,
        List.length_map, length_entries]
    have hpos : 0 < s.list.length := by
      rw [← length_entries]
      exact List.length_pos_of_mem hmem
    have hnew := congrArg List.length hentries
    rw [length_entries, List.length_cons, hwithout] at hnew
    omega

omit [DecidableEq Key] in
/-- One stripe grows by at most one. -/
theorem grows_update {i : Fin 16} (hle : (c i).list.length ≤ s.list.length)
    (hone : s.list.length ≤ (c i).list.length + 1) :
    Grows len 16 c (Function.update c i s) := by
  have hlen : ∀ j, len (Function.update c i s) j =
      if j = i then s.list.length else len c j := by
    intro j
    unfold len
    by_cases hj : j < 16
    · by_cases hji : j = i
      · subst hji
        simp
      · have hne : (⟨j, hj⟩ : Fin 16) ≠ i := fun h => hji (by rw [← h])
        simp [hj, hji, Function.update_of_ne hne]
    · have hne : j ≠ i := fun h => hj (h ▸ i.isLt)
      simp [hj, hne]
  have hi : len c i = (c i).list.length := by rw [len, dif_pos i.isLt]
  constructor
  · intro j
    rw [hlen]
    split
    · rename_i hji
      rw [hji, hi]
      exact hle
    · exact le_rfl
  · have hpart : ∀ j ∈ Finset.range 16, len (Function.update c i s) j ≤
        len c j + if j = i then 1 else 0 := by
      intro j _
      rw [hlen]
      split
      · rename_i hji
        rw [hji, hi]
        exact hone
      · exact Nat.le_add_right _ _
    calc upTo len 16 (Function.update c i s)
        ≤ ∑ j ∈ Finset.range 16, (len c j + if j = i then 1 else 0) := Finset.sum_le_sum hpart
      _ = upTo len 16 c + 1 := by
        rw [Finset.sum_add_distrib, Finset.sum_ite_eq', if_pos (Finset.mem_range.2 i.isLt)]
        rfl

/-- **A call takes from no stripe and adds at most one element.** -/
theorem Cached.grows (h : Cached hash capacity c log) {x : Call Key Value}
    (hx : ConcurrentLru.call hash capacity c x = some (c', r)) : Grows len 16 c c' := by
  cases x with
  | insert k v =>
    obtain ⟨s', hs', heq⟩ := Option.map_eq_some_iff.1 hx
    cases heq
    have hlru := h (getStriped hash k)
    obtain ⟨hle, hone⟩ := insert_length hlru.ok hlru.length_le hs'
    exact grows_update hle hone
  | get k =>
    obtain ⟨⟨s', v⟩, hs', heq⟩ := Option.map_eq_some_iff.1 hx
    cases heq
    have hlen := get_length (h (getStriped hash k)).ok hs'
    exact grows_update hlen.ge (by rw [hlen]; omega)

/-! ## The threads -/

/-- The cache and its history. -/
structure SharedOK (hash : Key → ℕ) (capacity : ℕ) (s : Shared Key Value) : Prop where
  cached : ∃ log, Cached hash capacity s.striped log
  slow : Slow len 16 s.instants

omit [DecidableEq Key] in
/-- Whether a number was the size at an instant from `start` on. -/
def SizeSince (s : Shared Key Value) (start n : ℕ) : Prop :=
  ∃ k d, start ≤ k ∧ s.instants[k]? = some d ∧ elements d = n

/-- What a thread knows. -/
def ThreadOK (s : Shared Key Value) : Pc → Prop
  | .size stripe total start => stripe ≤ 16 ∧ Reading len s.instants start stripe total
  | .sizeReturn total start => SizeSince s start total
  | .empty stripe start => stripe ≤ 16 ∧ Reading len s.instants start stripe 0
  | .emptyReturn answer start => ∃ n, SizeSince s start n ∧ (answer = true ↔ n = 0)
  | .idle => True

omit [DecidableEq Key] in
theorem len_of_lt (c : Cache Key Value) {i : ℕ} (h : i < 16) : len c i = (c ⟨i, h⟩).list.length :=
  dif_pos h

omit [DecidableEq Key] in
/-- Instants stay. -/
theorem SizeSince.later {sh : Shared Key Value} {start n : ℕ} (h : SizeSince sh start n)
    (c : Cache Key Value) : SizeSince ⟨c, sh.instants⟩ start n := by
  obtain ⟨k, d, hk, hd, hn⟩ := h
  refine ⟨k, d, hk, ?_, hn⟩
  rw [Shared.instants, List.getElem?_append_left (List.getElem?_eq_some_iff.1 hd).1]
  exact hd

omit [DecidableEq Key] in
/-- A reading that is done. -/
theorem sizeSince_of_reading {sh : Shared Key Value} {start n : ℕ} (hslow : Slow len 16 sh.instants)
    (h : Reading len sh.instants start 16 n) : SizeSince sh start n := by
  obtain ⟨k, d, hk, hd, hn⟩ := Reading.attained h hslow
  exact ⟨k, d, hk, hd, by rw [← upTo_len]; exact hn⟩

omit [DecidableEq Key] in
/-- A reading began at an instant, so the present one is not before it. -/
theorem sizeSince_now {sh : Shared Key Value} {start stripe n : ℕ}
    (h : Reading len sh.instants start stripe n) : SizeSince sh start (elements sh.striped) := by
  obtain ⟨a, ha, -⟩ := h.before
  have hstart : start ≤ sh.past.length := by
    have hlen := (List.getElem?_eq_some_iff.1 ha).1
    rw [Shared.instants, List.length_append, List.length_singleton] at hlen
    omega
  exact ⟨sh.past.length, sh.striped, hstart, by simp [Shared.instants], rfl⟩

omit [DecidableEq Key] in
theorem length_le_elements (c : Cache Key Value) (i : Fin 16) : (c i).list.length ≤ elements c :=
  Finset.single_le_sum (f := fun i => (c i).list.length) (fun _ _ => Nat.zero_le _) (Finset.mem_univ i)

variable {sh sh' : Shared Key Value} {p p' q : Pc} {x : Choice Key Value}

theorem SharedOK.move (h : SharedOK hash capacity sh) (hs : step hash capacity sh p x = some (sh', p')) :
    SharedOK hash capacity sh' ∧ (sh' = sh ∨ ∃ c, sh' = ⟨c, sh.instants⟩ ∧ Grows len 16 sh.striped c) := by
  obtain ⟨⟨log, hlog⟩, hslow⟩ := h
  cases p <;> cases x <;> simp only [step, reduceCtorEq] at hs
  case idle.call y =>
    obtain ⟨⟨c, r⟩, hc, heq⟩ := Option.map_eq_some_iff.1 hs
    cases heq
    have hgrows := hlog.grows hc
    obtain ⟨c₁, r₁, hc₁, hlog₁⟩ := hlog.call y
    rw [hc] at hc₁
    cases hc₁
    exact ⟨⟨⟨_, hlog₁⟩, hslow.snoc hgrows⟩, .inr ⟨c, rfl, hgrows⟩⟩
  case size.go =>
    split at hs
    all_goals cases hs; exact ⟨⟨⟨log, hlog⟩, hslow⟩, .inl rfl⟩
  case empty.go =>
    split at hs
    · split at hs
      all_goals cases hs; exact ⟨⟨⟨log, hlog⟩, hslow⟩, .inl rfl⟩
    · cases hs; exact ⟨⟨⟨log, hlog⟩, hslow⟩, .inl rfl⟩
  all_goals cases hs; exact ⟨⟨⟨log, hlog⟩, hslow⟩, .inl rfl⟩

/-- A thread's own step. -/
theorem ThreadOK.own (hS : SharedOK hash capacity sh) (hT : ThreadOK sh p)
    (hs : step hash capacity sh p x = some (sh', p')) : ThreadOK sh' p' := by
  cases p <;> cases x <;> simp only [step, reduceCtorEq] at hs
  case idle.call y =>
    obtain ⟨r, -, heq⟩ := Option.map_eq_some_iff.1 hs
    cases heq
    trivial
  case idle.size => cases hs; exact ⟨Nat.zero_le _, .begin _⟩
  case idle.empty => cases hs; exact ⟨Nat.zero_le _, .begin _⟩
  case size.go stripe total start =>
    obtain ⟨hle, hread⟩ := hT
    split at hs
    · rename_i hlt
      cases hs
      refine ⟨hlt, ?_⟩
      rw [← len_of_lt]
      exact hread.read hS.slow
    · rename_i hge
      cases hs
      obtain rfl : stripe = 16 := by omega
      exact sizeSince_of_reading hS.slow hread
  case empty.go stripe start =>
    obtain ⟨hle, hread⟩ := hT
    split at hs
    · rename_i hlt
      have hnext := hread.read hS.slow
      rw [len_of_lt _ hlt] at hnext
      split at hs
      · rename_i hne
        cases hs
        refine ⟨elements sh.striped, sizeSince_now hread, ?_⟩
        have hpos : 0 < (sh.striped ⟨stripe, hlt⟩).list.length := by
          rw [List.length_pos_iff]
          intro hnil
          simp [hnil] at hne
        have hle := length_le_elements sh.striped ⟨stripe, hlt⟩
        simp only [Bool.false_eq_true, false_iff]
        omega
      · rename_i hnil
        cases hs
        have hzero : (sh.striped ⟨stripe, hlt⟩).list.length = 0 := by simpa using hnil
        rw [hzero] at hnext
        exact ⟨hlt, hnext⟩
    · rename_i hge
      cases hs
      obtain rfl : stripe = 16 := by omega
      exact ⟨0, sizeSince_of_reading hS.slow hread, by simp⟩
  all_goals cases hs; trivial

omit [DecidableEq Key] in
/-- A critical section of another thread. -/
theorem ThreadOK.other (hT : ThreadOK sh q) (hgrows : Grows len 16 sh.striped c) :
    ThreadOK ⟨c, sh.instants⟩ q := by
  cases q with
  | idle => trivial
  | size stripe total start => exact ⟨hT.1, hT.2.grow hgrows.parts⟩
  | sizeReturn total start => exact SizeSince.later hT c
  | empty stripe start => exact ⟨hT.1, hT.2.grow hgrows.parts⟩
  | emptyReturn answer start =>
    obtain ⟨n, hn, hanswer⟩ := hT
    exact ⟨n, hn.later c, hanswer⟩

/-! ## Every run -/

variable [DecidableEq ι] [Fintype ι] {st : State ι Key Value}

theorem threads_ok (h : (prog ι Value hash capacity).lts.Reach st) :
    SharedOK hash capacity st.sh ∧ ∀ i, ThreadOK st.sh (st.pc i) := by
  refine Prog.plain_invariant (f := fun _ => step hash capacity) (fun _ _ _ _ => rfl)
    (SharedOK hash capacity) (fun _ s p => ThreadOK s p) ?_ ?_ ?_ ?_ h
  · exact ⟨⟨[], cached_construct⟩, .singleton _⟩
  · exact fun _ => trivial
  · intro c t x s p _ _ hs hS hT
    exact ⟨(hS.move hs).1, hT.own hS hs⟩
  · intro c t x s p i _ _ hs hS _ _ hT
    obtain ⟨-, heq | ⟨d, heq, hgrows⟩⟩ := hS.move hs
    · rw [heq]; exact hT
    · rw [heq]; exact hT.other hgrows

/-- **`size` and `empty` answer what was true at an instant of the call.** The instants of the run
are the caches after each critical section of an `insert` or a `get`; `start` is that of the
call. -/
theorem size_instant (h : (prog ι Value hash capacity).lts.Reach st) (t : ι) :
    (∀ total start, st.pc t = .sizeReturn total start →
      ∃ k d, start ≤ k ∧ st.sh.instants[k]? = some d ∧ elements d = total) ∧
    (∀ answer start, st.pc t = .emptyReturn answer start →
      ∃ k d, start ≤ k ∧ st.sh.instants[k]? = some d ∧ (answer = true ↔ elements d = 0)) := by
  have ht := (threads_ok h).2 t
  constructor
  · intro total start hp
    rw [hp] at ht
    exact ht
  · intro answer start hp
    rw [hp] at ht
    obtain ⟨n, ⟨k, d, hk, hd, rfl⟩, hanswer⟩ := ht
    exact ⟨k, d, hk, hd, hanswer⟩

/-- Thread 0 has counted stripe 0, where thread 1 then inserts, and finds what thread 1 inserts
in stripe 1: the size it returns was that between the two inserts of one element each. -/
theorem size_instant_between : ∃ c : State (Fin 2) ℕ ℕ,
    (prog (Fin 2) ℕ (id : ℕ → ℕ) 5).lts.Reach c ∧ c.pc 0 = .sizeReturn 1 0 ∧
    ∃ (k : ℕ) (d : Cache ℕ ℕ), c.sh.instants[k]? = some d ∧ elements d = 1 := by
  obtain ⟨c, hc, hp⟩ := Lts.exists_reachIf (prog (Fin 2) ℕ (id : ℕ → ℕ) 5).lts (fun _ _ => True)
    ((0, .size) :: (0, .go) :: (1, .call (.insert 0 7)) :: (1, .call (.insert 1 8)) ::
      List.replicate 16 (0, .go))
    (fun c => c.pc 0 == .sizeReturn 1 0) (by decide)
  rw [beq_iff_eq] at hp
  obtain ⟨k, d, -, hd, hn⟩ := (size_instant hc 0).1 1 0 hp
  exact ⟨c, hc, hp, k, d, hd, hn⟩

end BackendTasks.ConcurrentLru
