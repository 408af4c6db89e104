import BackendTasks.Spec.ConcurrentLru
import Mathlib.Data.List.Nodup

/-!
# One stripe of the cache

`Striped.OK` is the agreement between the map and the list of a stripe. `insert` and `get`
keep it and use no iterator whose node is gone; on the entries alone they are the two
operations of a list with the most recent entry first (`insert_spec`, `get_spec`).
-/

namespace BackendTasks.ConcurrentLru

variable {Key Value : Type*} {s : Striped Key Value} {k : Key} {v : Value} {it : Iter} {capacity : ℕ}

/-- With distinct values of `f`, erasing the element with one value keeps the others. -/
theorem eraseP_eq_filter {α β : Type*} [DecidableEq β] {f : α → β} {b : β} {l : List α}
    (h : (l.map f).Nodup) : l.eraseP (f · == b) = l.filter (f · != b) := by
  induction l with
  | nil => rfl
  | cons a l ih =>
    rw [List.map_cons, List.nodup_cons] at h
    by_cases hab : f a = b
    · rw [List.eraseP_cons_of_pos (by simpa using hab), List.filter_cons_of_neg (by simpa using hab)]
      refine (List.filter_eq_self.2 fun c hc => ?_).symm
      have hne : f c ≠ f a := fun e => h.1 (e ▸ List.mem_map_of_mem hc)
      simpa [← hab] using hne
    · rw [List.eraseP_cons_of_neg (by simpa using hab), List.filter_cons_of_pos (by simpa using hab),
        ih h.2]

namespace Striped

/-- The keys and values of the list. -/
def entries (s : Striped Key Value) : List (Key × Value) := s.list.map fun nd => (nd.key, nd.value)

/-- The map has an iterator for the keys of the list alone, and it points to the key's node. -/
structure OK (s : Striped Key Value) : Prop where
  iters : (s.list.map Node.iter).Nodup
  keys : (s.list.map Node.key).Nodup
  used : ∀ nd ∈ s.list, nd.iter < s.fresh
  data : ∀ k it, s.data k = some it ↔ ∃ nd ∈ s.list, nd.key = k ∧ nd.iter = it

/-- The same in the middle of an `insert`, when the key's node is gone. -/
structure OKBut (k : Key) (s : Striped Key Value) : Prop where
  iters : (s.list.map Node.iter).Nodup
  keys : (s.list.map Node.key).Nodup
  used : ∀ nd ∈ s.list, nd.iter < s.fresh
  gone : ∀ nd ∈ s.list, nd.key ≠ k
  data : ∀ j, j ≠ k → ∀ it, s.data j = some it ↔ ∃ nd ∈ s.list, nd.key = j ∧ nd.iter = it

/-! ## Following an iterator -/

/-- A node is found through its iterator. -/
theorem OK.deref (h : s.OK) (hk : s.data k = some it) :
    ∃ nd ∈ s.list, nd.key = k ∧ nd.iter = it ∧ s.deref it = some nd := by
  obtain ⟨nd, hmem, hkey, hit⟩ := (h.data k it).1 hk
  obtain ⟨nd', hnd'⟩ : ∃ nd', s.list.find? (·.iter == it) = some nd' := by
    rw [← Option.isSome_iff_exists, List.find?_isSome]
    exact ⟨nd, hmem, by simpa using hit⟩
  have hit' : nd'.iter = it := by simpa using List.find?_some hnd'
  have : nd' = nd :=
    List.inj_on_of_nodup_map h.iters (List.mem_of_find?_eq_some hnd') hmem (hit'.trans hit.symm)
  exact ⟨nd, hmem, hkey, hit, this ▸ hnd'⟩

/-- A node has the iterator exactly if it has the key. -/
theorem OK.iter_iff_key (h : s.OK) (hk : s.data k = some it) {nd : Node Key Value}
    (hmem : nd ∈ s.list) : nd.iter = it ↔ nd.key = k := by
  obtain ⟨nd', hmem', hkey, hit, -⟩ := h.deref hk
  constructor
  · intro h'
    rw [List.inj_on_of_nodup_map h.iters hmem hmem' (h'.trans hit.symm)]
    exact hkey
  · intro h'
    rw [List.inj_on_of_nodup_map h.keys hmem hmem' (h'.trans hkey.symm)]
    exact hit

theorem OK.data_none (h : s.OK) (hk : s.data k = none) : ∀ nd ∈ s.list, nd.key ≠ k := by
  intro nd hmem hkey
  have := (h.data k nd.iter).2 ⟨nd, hmem, hkey, rfl⟩
  rw [hk] at this
  simp at this

variable [DecidableEq Key]

/-- Erasing through the iterator of a key removes the key. -/
theorem OK.eraseP (h : s.OK) (hk : s.data k = some it) :
    s.list.eraseP (·.iter == it) = s.list.filter (·.key != k) := by
  rw [eraseP_eq_filter (f := Node.iter) h.iters]
  refine List.filter_congr fun nd hmem => ?_
  simp only [bne, Bool.not_eq_eq_eq_not, Bool.not_not]
  rw [Bool.eq_iff_iff, beq_iff_eq, beq_iff_eq]
  exact h.iter_iff_key hk hmem

/-- The stripe without the node of a key. -/
theorem OK.without (h : s.OK) (k : Key) : OKBut k { s with list := s.list.filter (·.key != k) } := by
  refine ⟨h.iters.sublist (List.filter_sublist.map _), h.keys.sublist (List.filter_sublist.map _),
    fun nd hmem => h.used nd (List.mem_of_mem_filter hmem), fun nd hmem => ?_, fun j hj it => ?_⟩
  · simpa using (List.mem_filter.1 hmem).2
  · rw [h.data j it]
    constructor
    · rintro ⟨nd, hmem, rfl, hit⟩
      exact ⟨nd, List.mem_filter.2 ⟨hmem, by simpa using hj⟩, rfl, hit⟩
    · rintro ⟨nd, hmem, hkey, hit⟩
      exact ⟨nd, List.mem_of_mem_filter hmem, hkey, hit⟩

omit [DecidableEq Key] in
theorem filter_entries (l : List (Node Key Value)) (p : Key → Bool) :
    (l.filter fun nd => p nd.key).map (fun nd => (nd.key, nd.value)) =
      (l.map fun nd => (nd.key, nd.value)).filter fun e => p e.1 := by
  rw [List.filter_map]
  rfl

/-! ## insert -/

/-- The first part of `insert`: the key's node is gone. -/
theorem OK.remove (h : s.OK) (k : Key) :
    s.eraseKey k = some { s with list := s.list.filter (·.key != k) } := by
  unfold eraseKey
  cases hk : s.data k with
  | none =>
    have hall : s.list.filter (·.key != k) = s.list := by
      refine List.filter_eq_self.2 fun nd hmem => ?_
      simpa using h.data_none hk nd hmem
    rw [hall]
  | some it =>
    obtain ⟨nd, -, -, -, hderef⟩ := h.deref hk
    simp only [Striped.erase, hderef, Option.map_some, h.eraseP hk]

theorem OKBut.setBegin (h : s.OKBut k) (v : Value) : ((s.emplaceFront k v).setBegin k).OK := by
  refine ⟨?_, ?_, fun nd hmem => ?_, fun j it => ?_⟩
  · refine List.nodup_cons.2 ⟨fun hmem => ?_, h.iters⟩
    obtain ⟨nd, hnd, heq⟩ := List.mem_map.1 hmem
    exact absurd heq (Nat.ne_of_lt (h.used nd hnd))
  · refine List.nodup_cons.2 ⟨fun hmem => ?_, h.keys⟩
    obtain ⟨nd, hnd, heq⟩ := List.mem_map.1 hmem
    exact h.gone nd hnd heq
  · rcases List.mem_cons.1 hmem with rfl | hmem
    · exact Nat.lt_succ_self _
    · exact Nat.lt_succ_of_lt (h.used nd hmem)
  · simp only [Striped.setBegin, emplaceFront, List.head?_cons, Option.map_some, List.mem_cons,
      exists_eq_or_imp]
    by_cases hj : j = k
    · subst hj
      rw [Function.update_self]
      constructor
      · intro hit; exact .inl ⟨rfl, Option.some.inj hit⟩
      · rintro (⟨-, rfl⟩ | ⟨nd, hmem, hkey, -⟩)
        · rfl
        · exact absurd hkey (h.gone nd hmem)
    · rw [Function.update_of_ne hj, h.data j hj it]
      constructor
      · exact .inr
      · rintro (⟨rfl, -⟩ | h')
        · exact absurd rfl hj
        · exact h'

/-- The last part of `insert`, on a list that is not empty. -/
theorem OK.evict (h : s.OK) (hne : s.list ≠ []) :
    ∃ s', s.evict = some s' ∧ s'.OK ∧ s'.list = s.list.dropLast := by
  have hsplit := List.dropLast_append_getLast hne
  set init := s.list.dropLast
  set back := s.list.getLast hne
  have hlast : s.list.getLast? = some back := List.getLast?_eq_some_getLast hne
  refine ⟨{ s with data := Function.update s.data back.key none, list := init }, ?_, ?_, rfl⟩
  · rw [Striped.evict, hlast]; rfl
  have hsub : init.Sublist s.list := List.dropLast_sublist _
  have hkeys : ∀ nd ∈ init, nd.key ≠ back.key := by
    intro nd hmem heq
    have hnodup := h.keys
    rw [← hsplit, List.map_append, List.nodup_append] at hnodup
    exact hnodup.2.2 nd.key (List.mem_map_of_mem hmem) back.key (by simp) heq
  refine ⟨h.iters.sublist (hsub.map _), h.keys.sublist (hsub.map _),
    fun nd hmem => h.used nd (hsub.subset hmem), fun j it => ?_⟩
  dsimp only
  by_cases hj : j = back.key
  · subst hj
    rw [Function.update_self]
    constructor
    · nofun
    · rintro ⟨nd, hmem, hkey, -⟩; exact absurd hkey (hkeys nd hmem)
  · rw [Function.update_of_ne hj, h.data j it]
    constructor
    · rintro ⟨nd, hmem, hkey, hit⟩
      rw [← hsplit, List.mem_append, List.mem_singleton] at hmem
      rcases hmem with hmem | rfl
      · exact ⟨nd, hmem, hkey, hit⟩
      · exact absurd hkey.symm hj
    · rintro ⟨nd, hmem, hkey, hit⟩
      exact ⟨nd, hsub.subset hmem, hkey, hit⟩

/-- **`insert`** puts the entry in front, in place of the key's old one, and keeps the first
`capacity_` entries. -/
theorem insert_spec (h : s.OK) (hlen : s.list.length ≤ capacity) (k : Key) (v : Value) :
    ∃ s', s.insert capacity k v = some s' ∧ s'.OK ∧
      s'.entries = ((k, v) :: s.entries.filter (·.1 != k)).take capacity := by
  have hmid := (h.without k).setBegin v
  set s₁ : Striped Key Value := { s with list := s.list.filter (·.key != k) }
  set s₂ := (s₁.emplaceFront k v).setBegin k
  have hentries : s₂.entries = (k, v) :: s.entries.filter (·.1 != k) :=
    congrArg (_ :: ·) (filter_entries s.list (· != k))
  have hlen₂ : s₂.list.length ≤ capacity + 1 :=
    Nat.succ_le_succ (Nat.le_trans (List.length_filter_le _ _) hlen)
  have hrun : s.insert capacity k v = if s₂.list.length > capacity then s₂.evict else some s₂ := by
    rw [Striped.insert, h.remove k, Option.bind_some]
  rw [hrun, ← hentries]
  by_cases hover : s₂.list.length > capacity
  · obtain ⟨s', hs', hok, hlist⟩ := hmid.evict (List.cons_ne_nil _ _)
    refine ⟨s', by rw [if_pos hover, hs'], hok, ?_⟩
    have hcap : s₂.list.length - 1 = capacity := by omega
    rw [entries, hlist, List.dropLast_eq_take, hcap, List.map_take, entries]
  · refine ⟨s₂, by rw [if_neg hover], hmid, (List.take_of_length_le ?_).symm⟩
    rw [entries, List.length_map]
    omega

/-! ## get -/

omit [DecidableEq Key] in
theorem get_miss (hk : s.data k = none) : s.get k = some (s, none) := by
  unfold Striped.get
  rw [hk]

omit [DecidableEq Key] in
/-- The order of the list does not matter. -/
theorem OK.of_perm {l : List (Node Key Value)} (h : s.OK) (hp : l.Perm s.list) :
    OK { s with list := l } := by
  refine ⟨((hp.map _).nodup_iff).2 h.iters, ((hp.map _).nodup_iff).2 h.keys,
    fun nd hmem => h.used nd (hp.subset hmem), fun j it => ?_⟩
  rw [h.data j it]
  simp only [hp.mem_iff]

/-- **A `get` that finds its key** returns its value and moves the entry to the front. -/
theorem get_hit (h : s.OK) (hk : s.data k = some it) : ∃ s' v, s.get k = some (s', some v) ∧ s'.OK ∧
    (k, v) ∈ s.entries ∧ s'.entries = (k, v) :: s.entries.filter (·.1 != k) := by
  obtain ⟨nd, hmem, rfl, rfl, hderef⟩ := h.deref hk
  refine ⟨{ s with list := nd :: s.list.filter (·.key != nd.key) }, nd.value, ?_, ?_, ?_, ?_⟩
  · have hsplice : s.splice nd.iter = some { s with list := nd :: s.list.filter (·.key != nd.key) } := by
      rw [Striped.splice, hderef, Option.map_some, h.eraseP hk]
    have hfront : deref { s with list := nd :: s.list.filter (·.key != nd.key) } nd.iter = some nd :=
      List.find?_cons_of_pos (by simp)
    simp only [Striped.get, hk, hsplice, Option.bind_some, hfront, Option.map_some]
  · rw [← h.eraseP hk]
    refine h.of_perm ?_
    obtain ⟨nd', l₁, l₂, -, hit, hl, heq⟩ :=
      @List.exists_of_eraseP _ (fun x : Node Key Value => x.iter == nd.iter) s.list nd hmem (by simp)
    have hmem' : nd' ∈ s.list := hl ▸ List.mem_append_right _ List.mem_cons_self
    obtain rfl : nd' = nd := List.inj_on_of_nodup_map h.iters hmem' hmem (by simpa using hit)
    rw [heq]
    exact hl ▸ List.perm_middle.symm
  · exact List.mem_map.2 ⟨nd, hmem, rfl⟩
  · exact congrArg (_ :: ·) (filter_entries s.list (· != nd.key))

end Striped

end BackendTasks.ConcurrentLru
