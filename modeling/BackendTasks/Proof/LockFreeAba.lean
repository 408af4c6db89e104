import BackendTasks.Proof.LockFreeReclaim

/-!
# The CAS on `head` of the lock-free queue

`pop` reads `next` of the old head and later compares addresses only. If `head` has
come back to the same address in between, through `delete` and `new Node`, the CAS
installs a node that may be gone. Behind its CAS it reads the value of the node that is then the
head, which another `pop` may have taken off and deleted by then.

* `pop_installs_deleted`: schedules in which this goes wrong.
* `pop_safe`: along runs in which no `new Node` is placed where a pending CAS on `head`
  expects its old head, and no `pop` deletes a node whose value another one has still to read, every
  successful CAS on `head` installs the current successor of the node it takes off, that
  successor is allocated, the queue behind `head` loses exactly that node, and each `pop` gets the
  value of a push, no two of them that of the same one.
-/

namespace BackendTasks.LockFreeQueue

open Sched

variable {ι T : Type*} {c c' : State ι T} {t : ι} {a b oldHead next : Addr} {s : Shared T} {p : Pc}
  {x : Choice T}

/-- From `c` to `c'` the `pop` of thread `t` succeeds in its CAS on `head`. -/
def PopCas (c c' : State ι T) (t : ι) (oldHead next : Addr) : Prop :=
  c.pc t = .popSwing oldHead next ∧ ∃ slot, c'.pc t = .popValue oldHead next slot

/-- Such a CAS moves `head` to the current successor of the node it takes off, which is
allocated; the nodes behind `head` lose just that one, and it was not delivered before. -/
structure SafePop (c c' : State ι T) (oldHead next : Addr) : Prop where
  old : c.sh.head = oldHead
  new : c'.sh.head = next
  succ : Succ c.sh.heap oldHead next
  alloc : (c.sh.heap next).isSome = true
  after : ∀ l, After c.sh.heap oldHead l → ∃ rest, l = next :: rest ∧ After c'.sh.heap next rest
  once : c'.sh.delivered.Nodup

/-! ## Serial numbers -/

/-- Allocated nodes have different serial numbers, and a live node other than the current
head has not been delivered. The first node of all, which has number 0, counts as delivered. -/
structure Serials (c : State ι T) : Prop where
  lt : ∀ {a nd}, c.sh.heap a = some nd → c.sh.serial a < c.sh.allocs
  inj : ∀ {a b nd nd'}, c.sh.heap a = some nd → c.sh.heap b = some nd' →
    c.sh.serial a = c.sh.serial b → a = b
  delivered_lt : ∀ k ∈ 0 :: c.sh.delivered, k < c.sh.allocs
  delivered_live : ∀ {a nd}, (nodes c).Live a nd → a ≠ c.sh.head → c.sh.serial a ∉ 0 :: c.sh.delivered
  nodup : (0 :: c.sh.delivered).Nodup

/-- What is live in `c'` was live in `c`, or has just been created. -/
def LiveBefore (c c' : State ι T) : Prop :=
  ∀ a nd, (nodes c').Live a nd → (∃ nd', (nodes c).Live a nd') ∨ c.sh.heap a = none

variable [DecidableEq ι]

/-- A step that creates no node and delivers none keeps the serial numbers right. -/
theorem Serials.quiet (h : Serials c) (hserial : s.serial = c.sh.serial)
    (hallocs : s.allocs = c.sh.allocs) (hdel : s.delivered = c.sh.delivered)
    (hhead : s.head = c.sh.head) (hheap : ∀ {a nd}, s.heap a = some nd → ∃ nd', c.sh.heap a = some nd')
    (hback : LiveBefore c ⟨c.owner, s, Function.update c.pc t p⟩) :
    Serials ⟨c.owner, s, Function.update c.pc t p⟩ := by
  refine ⟨?_, ?_, ?_, ?_, ?_⟩
  · intro a nd ha
    obtain ⟨nd', ha⟩ := hheap ha
    rw [hserial, hallocs]; exact h.lt ha
  · intro a b nd nd' ha hb hab
    obtain ⟨nd₁, ha⟩ := hheap ha
    obtain ⟨nd₂, hb⟩ := hheap hb
    rw [hserial] at hab; exact h.inj ha hb hab
  · rw [hdel, hallocs]; exact h.delivered_lt
  · intro a nd hl hne
    rw [hserial, hdel]; rw [hhead] at hne
    rcases hback a nd hl with ⟨nd', hl'⟩ | hnone
    · exact h.delivered_live hl' hne
    · obtain ⟨nd', ha⟩ := hheap hl.1
      rw [hnone] at ha; simp at ha
  · rw [hdel]; exact h.nodup

/-- A new node gets a new serial number. -/
theorem Serials.alloc (h : Serials c) {n : Addr} {v : T} (hfree : c.sh.heap n = none)
    (hback : LiveBefore c ⟨c.owner, c.sh.alloc n v, Function.update c.pc t p⟩) :
    Serials ⟨c.owner, c.sh.alloc n v, Function.update c.pc t p⟩ := by
  have hold : ∀ {a nd}, c.sh.heap a = some nd → a ≠ n := by
    rintro a nd ha rfl; rw [hfree] at ha; simp at ha
  have hup : ∀ {a nd}, (c.sh.alloc n v).heap a = some nd → a = n ∨ c.sh.heap a = some nd := by
    intro a nd ha
    by_cases han : a = n
    · exact .inl han
    · exact .inr (by simpa [Function.update_of_ne han] using ha)
  have hser : ∀ {a}, a ≠ n → (c.sh.alloc n v).serial a = c.sh.serial a := fun hne =>
    Function.update_of_ne hne ..
  have hnew : (c.sh.alloc n v).serial n = c.sh.allocs := Function.update_self ..
  refine ⟨?_, ?_, ?_, ?_, h.nodup⟩
  · intro a nd ha
    show (c.sh.alloc n v).serial a < c.sh.allocs + 1
    rcases hup ha with rfl | ha
    · rw [hnew]; omega
    · have hlt := h.lt ha
      rw [hser (hold ha)]; omega
  · intro a b nd nd' ha hb hab
    dsimp only at ha hb hab
    rcases hup ha with han | ha₁ <;> rcases hup hb with hbn | hb₁
    · rw [han, hbn]
    · have hlt := h.lt hb₁
      rw [han, hnew, hser (hold hb₁)] at hab; omega
    · have hlt := h.lt ha₁
      rw [hbn, hnew, hser (hold ha₁)] at hab; omega
    · rw [hser (hold ha₁), hser (hold hb₁)] at hab; exact h.inj ha₁ hb₁ hab
  · intro k hk
    have hlt := h.delivered_lt k hk
    show k < c.sh.allocs + 1
    omega
  · intro a nd hl hne
    show (c.sh.alloc n v).serial a ∉ 0 :: c.sh.delivered
    rcases hback a nd hl with ⟨nd', hl'⟩ | hnone
    · rw [hser (hold hl'.1)]; exact h.delivered_live hl' hne
    · rcases hup hl.1 with rfl | ha
      · rw [hnew]; intro hk; exact absurd (h.delivered_lt _ hk) (lt_irrefl _)
      · rw [hnone] at ha; simp at ha

/-- The CAS on `head` delivers the successor of the old head, which was not delivered before. -/
theorem Serials.advance (h : Serials c) (hI : (nodes c).OK) {y : Addr}
    (hnext : c.sh.NextIs c.sh.head (some y)) (hp : p.removed = some c.sh.head)
    (hback : LiveBefore c ⟨c.owner, c.sh.advance y, Function.update c.pc t p⟩) :
    Serials ⟨c.owner, c.sh.advance y, Function.update c.pc t p⟩ := by
  obtain ⟨ndo, hlo⟩ := hI.head
  obtain ⟨⟨ndy, hly⟩, hyne⟩ := hI.succ hlo (hnext ndo hlo.1)
  have hsplit : 0 :: (c.sh.delivered ++ [c.sh.serial y]) = (0 :: c.sh.delivered) ++ [c.sh.serial y] := rfl
  refine ⟨h.lt, h.inj, ?_, ?_, ?_⟩
  · intro k hk
    rcases List.mem_append.1 (hsplit ▸ hk) with hk | hk
    · exact h.delivered_lt k hk
    · rw [List.mem_singleton.1 hk]; exact h.lt hly.1
  · intro a nd hl hne hk
    -- the old head is not live any more
    have hao : a ≠ c.sh.head := by
      rintro rfl; exact hl.2 t (by simp [nodes, hp])
    have hla : ∃ nd', (nodes c).Live a nd' := by
      rcases hback a nd hl with hla | hnone
      · exact hla
      · have := hl.1.symm.trans hnone; simp at this
    obtain ⟨nd', hl'⟩ := hla
    rcases List.mem_append.1 (hsplit ▸ hk) with hk | hk
    · exact h.delivered_live hl' hao hk
    · exact hne (h.inj hl'.1 hly.1 (List.mem_singleton.1 hk))
  · have hnew : c.sh.serial y ∉ 0 :: c.sh.delivered := h.delivered_live hly hyne
    refine hsplit ▸ List.nodup_append.2 ⟨h.nodup, List.nodup_singleton _, fun k hk k' hk' hkk => ?_⟩
    rw [hkk, List.mem_singleton.1 hk'] at hk
    exact hnew hk

/-- **One step keeps the serial numbers right.** -/
theorem Serials.move (h : Serials c) (hI : (nodes c).OK)
    (hcas : ∀ o y, c.pc t = .popSwing o y → c.sh.NextIs o (some y))
    (hm : Move true c.sh (c.pc t) x s p) : Serials ⟨c.owner, s, Function.update c.pc t p⟩ := by
  have hback : LiveBefore c ⟨c.owner, s, Function.update c.pc t p⟩ := by
    intro a nd hl
    rcases nodes_move hI hcas hm with heq | hs
    · rw [heq] at hl; exact .inl ⟨nd, hl⟩
    · exact hs.live_back hl
  generalize hp : c.pc t = p₀ at hm
  cases hm with
  | push hfree => exact h.alloc hfree hback
  | advance hhead hspur => exact h.advance hI (hhead ▸ hcas _ _ hp) (by rw [hhead]; rfl) hback
  | link ht hnull =>
    rename_i n q l nd
    refine h.quiet ?_ ?_ ?_ (by simp) ?_ hback
    all_goals simp only [Shared.link, ht]
    intro a nd' ha
    by_cases haq : a = q
    · exact ⟨nd, haq ▸ ht⟩
    · exact ⟨nd', by simpa [Function.update_of_ne haq] using ha⟩
  | delete =>
    rename_i o l
    refine h.quiet rfl rfl rfl rfl ?_ hback
    intro a nd ha
    rw [Shared.delete_heap] at ha
    by_cases hao : a = o
    · subst hao; simp at ha
    · exact ⟨nd, by simpa [Function.update_of_ne hao] using ha⟩
  | help | swing =>
    refine h.quiet ?_ ?_ ?_ (by simp) (fun ha => ⟨_, by simpa using ha⟩) hback
    all_goals rw [Shared.casTail_eq]
  | _ => exact h.quiet rfl rfl rfl rfl (fun ha => ⟨_, ha⟩) hback

/-! ## The values -/

/-- The node whose value a `pop` has still to read. -/
def Pc.unread : Pc → Option Addr
  | .popValue _ x _ => some x
  | _ => none

/-- The node that a `pop` deletes next. -/
def Pc.deletes : Pc → Option Addr
  | .popDelete h => some h
  | _ => none

/-- The step deletes no node whose value a `pop` has still to read. -/
def KeepsUnread (c : State ι T) (act : ι × Choice T) : Prop :=
  ∀ a ∈ (c.pc act.1).deletes, ∀ i, (c.pc i).unread ≠ some a

/-- A step under which no `pop` can go wrong. -/
def Undisturbed (c : State ι T) (act : ι × Choice T) : Prop :=
  NoReuse Pc.headCas c act ∧ KeepsUnread c act

instance [Fintype ι] (c : State ι T) (act : ι × Choice T) : Decidable (Undisturbed c act) :=
  inferInstanceAs (Decidable (NoReuse Pc.headCas c act ∧
    ∀ a ∈ (c.pc act.1).deletes, ∀ i, (c.pc i).unread ≠ some a))

/-- The nodes have the values they were created with, `created` in order. A `pop` behind its CAS finds
the node that it has delivered, and what has been read are the values of the nodes delivered. -/
structure Valued (created : List T) (c : State ι T) : Prop where
  allocs : created.length = c.sh.allocs
  value : ∀ {a nd}, c.sh.heap a = some nd → created[c.sh.serial a]? = some nd.value
  slots : c.sh.results.length = c.sh.delivered.length
  unread : ∀ {i o a} {slot : ℕ}, c.pc i = .popValue o a slot →
    (∃ nd, c.sh.heap a = some nd) ∧ c.sh.delivered[slot]? = some (c.sh.serial a)
  read : ∀ {slot : ℕ} {v}, c.sh.results[slot]? = some (some v) →
    ∃ k, c.sh.delivered[slot]? = some k ∧ created[k]? = some v

theorem getElem?_append_of_some {α : Type*} {l : List α} {k : ℕ} {v : α} (h : l[k]? = some v) (more : List α) :
    (l ++ more)[k]? = some v := by
  obtain ⟨hlt, -⟩ := List.getElem?_eq_some_iff.1 h
  rw [List.getElem?_append_left hlt]
  exact h

namespace Valued

variable {created : List T}

/-- A step that creates no node, delivers none and reads no value. -/
theorem quiet (h : Valued created c) (hserial : s.serial = c.sh.serial) (hallocs : s.allocs = c.sh.allocs)
    (hresults : s.results = c.sh.results) (hdel : s.delivered = c.sh.delivered)
    (hheap : ∀ {a nd}, s.heap a = some nd → ∃ nd', c.sh.heap a = some nd' ∧ nd'.value = nd.value)
    (hkeep : ∀ {i a nd}, (c.pc i).unread = some a → c.sh.heap a = some nd → ∃ nd', s.heap a = some nd')
    (hp : p.unread = none) : Valued created ⟨c.owner, s, Function.update c.pc t p⟩ := by
  refine ⟨h.allocs.trans hallocs.symm, ?_, ?_, ?_, ?_⟩
  · intro a nd hnd
    obtain ⟨nd', hnd', hvalue⟩ := hheap hnd
    rw [hserial, h.value hnd', hvalue]
  · rw [hresults, hdel]; exact h.slots
  · intro i o a slot hi
    dsimp only at hi ⊢
    by_cases hit : i = t
    · subst hit
      rw [Function.update_self] at hi
      rw [hi] at hp; simp [Pc.unread] at hp
    · rw [Function.update_of_ne hit] at hi
      obtain ⟨⟨nd, hnd⟩, hslot⟩ := h.unread hi
      rw [hdel, hserial]
      exact ⟨hkeep (by rw [hi]; rfl) hnd, hslot⟩
  · rw [hresults, hdel]; exact h.read

/-- A new node has its value. -/
theorem alloc (h : Valued created c) {n : Addr} {v : T} (hfree : c.sh.heap n = none) (hp : p.unread = none) :
    Valued (created ++ [v]) ⟨c.owner, c.sh.alloc n v, Function.update c.pc t p⟩ := by
  have hser : ∀ {a}, a ≠ n → (c.sh.alloc n v).serial a = c.sh.serial a := fun hne =>
    Function.update_of_ne hne ..
  refine ⟨?_, ?_, h.slots, ?_, ?_⟩
  · rw [List.length_append, h.allocs]; rfl
  · intro a nd hnd
    dsimp only at hnd ⊢
    by_cases han : a = n
    · subst han
      have hnew : (c.sh.alloc a v).serial a = created.length :=
        (Function.update_self ..).trans h.allocs.symm
      rw [Shared.alloc_heap, Function.update_self] at hnd
      obtain rfl := Option.some.inj hnd
      rw [hnew, List.getElem?_concat_length]
    · rw [Shared.alloc_heap, Function.update_of_ne han] at hnd
      rw [hser han]
      exact getElem?_append_of_some (h.value hnd) _
  · intro i o a slot hi
    dsimp only at hi ⊢
    by_cases hit : i = t
    · subst hit
      rw [Function.update_self] at hi
      rw [hi] at hp; simp [Pc.unread] at hp
    · rw [Function.update_of_ne hit] at hi
      obtain ⟨⟨nd, hnd⟩, hslot⟩ := h.unread hi
      have han : a ≠ n := by rintro rfl; rw [hfree] at hnd; simp at hnd
      rw [hser han, Shared.alloc_heap, Function.update_of_ne han]
      exact ⟨⟨nd, hnd⟩, hslot⟩
  · intro slot v' hv
    obtain ⟨k, hk, hvalue⟩ := h.read hv
    exact ⟨k, hk, getElem?_append_of_some hvalue _⟩

/-- The CAS on `head` delivers a node, whose value is to be read. -/
theorem advance (h : Valued created c) {o y : Addr} {nd : Node T} (hy : c.sh.heap y = some nd) :
    Valued created ⟨c.owner, c.sh.advance y,
      Function.update c.pc t (.popValue o y c.sh.results.length)⟩ := by
  refine ⟨h.allocs, h.value, ?_, ?_, ?_⟩
  · simp only [Shared.advance, List.length_append, List.length_singleton, h.slots]
  · intro i o' a slot hi
    dsimp only at hi
    by_cases hit : i = t
    · subst hit
      rw [Function.update_self] at hi
      cases hi
      refine ⟨⟨nd, hy⟩, ?_⟩
      simp only [Shared.advance, h.slots, List.getElem?_concat_length]
    · rw [Function.update_of_ne hit] at hi
      obtain ⟨hnd, hslot⟩ := h.unread hi
      exact ⟨hnd, getElem?_append_of_some hslot _⟩
  · intro slot v hv
    have hold : c.sh.results[slot]? = some (some v) := by
      simp only [Shared.advance] at hv
      by_cases hlt : slot < c.sh.results.length
      · rwa [List.getElem?_append_left hlt] at hv
      · rw [List.getElem?_append_right (Nat.not_lt.1 hlt)] at hv
        simp [List.getElem?_singleton] at hv
    obtain ⟨k, hk, hvalue⟩ := h.read hold
    exact ⟨k, getElem?_append_of_some hk _, hvalue⟩

/-- A `pop` reads the value of the node that it has delivered. -/
theorem readValue (h : Valued created c) {o y : Addr} {slot : ℕ} {l : Luck T}
    (hp : c.pc t = .popValue o y slot) :
    Valued created ⟨c.owner, c.sh.read y slot l, Function.update c.pc t (.popDelete o)⟩ := by
  obtain ⟨⟨nd, hnd⟩, hslot⟩ := h.unread hp
  refine ⟨h.allocs, h.value, ?_, ?_, ?_⟩
  · simp only [Shared.read, List.length_set, h.slots]
  · intro i o' a slot' hi
    dsimp only at hi
    by_cases hit : i = t
    · subst hit
      rw [Function.update_self] at hi
      cases hi
    · rw [Function.update_of_ne hit] at hi
      exact h.unread hi
  · intro slot' v hv
    simp only [Shared.read, hnd] at hv
    by_cases heq : slot = slot'
    · subst heq
      have hlt : slot < c.sh.results.length := by
        by_contra hge
        rw [List.getElem?_eq_none (by rw [List.length_set]; omega)] at hv
        simp at hv
      rw [List.getElem?_set_self hlt] at hv
      exact ⟨_, hslot, by rw [h.value hnd, Option.some.inj (Option.some.inj hv)]⟩
    · rw [List.getElem?_set_ne heq] at hv
      exact h.read hv

/-- **One step keeps the values right.** -/
theorem move (h : Valued created c) (hI : (nodes c).OK)
    (hcas : ∀ o y, c.pc t = .popSwing o y → c.sh.NextIs o (some y))
    (hunread : ∀ o, c.pc t = .popDelete o → ∀ i, (c.pc i).unread ≠ some o)
    (hm : Move true c.sh (c.pc t) x s p) :
    Valued (created ++ x.newValue) ⟨c.owner, s, Function.update c.pc t p⟩ := by
  generalize hp : c.pc t = p₀ at hm
  cases hm with
  | push hfree => exact h.alloc hfree rfl
  | @advance o y l hhead hspur =>
    obtain ⟨nd, hl⟩ := hI.head
    obtain ⟨⟨ndy, hly⟩, -⟩ := hI.succ hl (hcas o y hp nd (hhead ▸ hl.1))
    rw [Choice.newValue_run, List.append_nil]
    exact h.advance hly.1
  | read =>
    rw [Choice.newValue_run, List.append_nil]
    exact h.readValue hp
  | @link n q l nd ht hnull =>
    rw [Choice.newValue_run, List.append_nil]
    refine h.quiet ?_ ?_ ?_ ?_ ?_ ?_ rfl
    iterate 4 simp only [Shared.link, ht]
    · intro a nd' ha
      rw [Shared.link_heap ht] at ha
      by_cases haq : a = q
      · subst haq
        rw [Function.update_self] at ha
        exact ⟨nd, ht, by rw [← Option.some.inj ha]⟩
      · exact ⟨nd', by rwa [Function.update_of_ne haq] at ha, rfl⟩
    · intro i a nd' _ ha
      rw [Shared.link_heap ht]
      by_cases haq : a = q
      · subst haq
        exact ⟨_, Function.update_self ..⟩
      · exact ⟨nd', by rwa [Function.update_of_ne haq]⟩
  | @delete o l =>
    rw [Choice.newValue_run, List.append_nil]
    refine h.quiet rfl rfl rfl rfl ?_ ?_ rfl
    · intro a nd ha
      rw [Shared.delete_heap] at ha
      by_cases hao : a = o
      · subst hao; simp at ha
      · exact ⟨nd, by rwa [Function.update_of_ne hao] at ha, rfl⟩
    · intro i a nd hi ha
      have hao : a ≠ o := by rintro rfl; exact hunread a hp i hi
      rw [Shared.delete_heap]
      exact ⟨nd, by rwa [Function.update_of_ne hao]⟩
  | help | swing =>
    rw [Choice.newValue_run, List.append_nil]
    refine h.quiet ?_ ?_ ?_ ?_ (fun ha => ⟨_, by simpa using ha, rfl⟩) (fun _ ha => ⟨_, by simpa using ha⟩) rfl
    all_goals rw [Shared.casTail_eq]
  | _ =>
    simp only [Choice.newValue_pop, Choice.newValue_run, List.append_nil]
    exact h.quiet rfl rfl rfl rfl (fun ha => ⟨_, ha, rfl⟩) (fun _ ha => ⟨_, ha⟩) rfl

end Valued

/-! ## Every run -/

variable [Inhabited T] [Fintype ι] {tr : Trace ι T}

theorem serials (h : (prog ι true).lts.ReachIf (NoReuse Pc.headCas) c) : Serials c := by
  refine h.invariant (I := fun c : State ι T => Serials c) ?_ ?_
  · have hzero : ∀ {a nd},
        (prog ι true : Prog ι Empty (Shared T) Pc (Choice T)).init.heap a = some nd → a = 0 := by
      intro a nd ha
      by_contra hne
      simp [prog, construct, hne] at ha
    refine ⟨fun _ => Nat.zero_lt_one, fun ha hb _ => (hzero ha).trans (hzero hb).symm, ?_, ?_, ?_⟩
    · intro k hk
      obtain rfl := List.mem_singleton.1 hk
      exact Nat.zero_lt_one
    · intro a nd hl hne
      exact absurd (hzero hl.1) hne
    · exact List.nodup_singleton 0
  intro c act c' hc ih _ hs
  obtain ⟨s, p, hm, rfl⟩ := conf_move hs
  refine ih.move (nodes_ok hc) (fun o y hp => ?_) hm
  exact cas_nextIs (fun _ _ => Pc.cas_of_headCas) hc act.1 o y (by rw [hp]; rfl)

/-- The first node has the value `T()`; the others are those of the pushes. -/
theorem valued (h : (prog ι true).lts.Traced Undisturbed tr c) : Valued (default :: pushCalls tr) c := by
  induction h with
  | init =>
    refine ⟨rfl, ?_, rfl, ?_, ?_⟩
    · intro a nd ha
      by_cases hzero : a = 0
      · subst hzero
        obtain rfl : (⟨default, none⟩ : Node T) = nd := by
          simpa [Prog.lts, prog, construct] using ha
        rfl
      · simp [Prog.lts, prog, construct, hzero] at ha
    · intro i o a slot hi
      simp [Prog.lts, prog] at hi
    · intro slot v hv
      simp [Prog.lts, prog, construct] at hv
  | @step tr c c' act htr hok hs ih =>
    obtain ⟨s, p, hm, rfl⟩ := conf_move hs
    have hreach := htr.reach.mono fun _ _ h => h.1
    rw [pushCalls, recorded_cons, ← List.cons_append]
    refine ih.move (nodes_ok hreach) (fun o y hp => ?_) (fun o hp => ?_) hm
    · exact cas_nextIs (fun _ _ => Pc.cas_of_headCas) hreach act.1 o y (by rw [hp]; rfl)
    · exact hok.2 o (by rw [hp]; rfl)

/-- **When the CAS on `head` is safe.** Along runs in which no `new Node` is placed where a
pending CAS on `head` expects its old head, every successful `pop` installs the allocated
current successor of the node it takes off, skips none and delivers none twice. -/
theorem safe_of_popCas (h : (prog ι true).lts.ReachIf (NoReuse Pc.headCas) c)
    (hs : (prog ι true).lts.step c (t, x) = some c') (hpop : PopCas c c' t oldHead next) :
    SafePop c c' oldHead next := by
  obtain ⟨hpc, slot, hpc'⟩ := hpop
  obtain ⟨s, p, hm, rfl⟩ := conf_move hs
  have hnextIs := cas_nextIs (fun _ _ => Pc.cas_of_headCas) h t oldHead next (by rw [hpc]; rfl)
  have hI := nodes_ok h
  have hser : Serials ⟨c.owner, s, Function.update c.pc t p⟩ := by
    refine (serials h).move hI (fun o y hp => ?_) hm
    rw [hpc] at hp
    cases hp
    exact hnextIs
  dsimp only at hm hpc'
  rw [hpc] at hm
  rw [Function.update_self] at hpc'
  subst hpc'
  cases hm with
  | advance hhead hspur =>
    obtain ⟨nd, hl⟩ := hI.head
    have hnd : c.sh.heap oldHead = some nd := hhead ▸ hl.1
    have hnext : nd.next = some next := hnextIs nd hnd
    obtain ⟨⟨ndx, hlx⟩, -⟩ := hI.succ hl hnext
    have hndx : c.sh.heap next = some ndx := hlx.1
    have halloc : (c.sh.heap next).isSome = true := by rw [hndx]; rfl
    have hafter : ∀ l, After c.sh.heap oldHead l → ∃ rest, l = next :: rest ∧
        After (c.sh.advance next).heap next rest := by
      intro l hl
      cases hl with
      | last hlast hnull =>
        rw [hnd] at hlast; cases hlast; rw [hnext] at hnull; simp at hnull
      | cons hsucc hrest =>
        obtain ⟨nd', hnd', hb⟩ := hsucc
        rw [hnd] at hnd'; cases hnd'
        rw [hnext] at hb; cases hb
        exact ⟨_, rfl, hrest⟩
    exact ⟨hhead, rfl, ⟨nd, hnd, hnext⟩, halloc, hafter, (List.nodup_cons.1 hser.nodup).2⟩

/-- **When `pop` is safe.** Along runs in which no `new Node` is placed where a pending CAS on `head`
expects its old head, and no node is deleted whose value a `pop` has still to read: every
successful CAS on `head` installs the allocated current successor of the node it takes off, skips none
and delivers none twice; a `pop` behind its CAS reads the value of the node that it has delivered,
which is still allocated; and what the `pop`s have read are the values of different pushes, the slots not
filled being those of the `pop`s that have still to read. -/
theorem pop_safe (h : (prog ι true).lts.Traced Undisturbed tr c) :
    (∀ t x c' oldHead next, (prog ι true).lts.step c (t, x) = some c' → PopCas c c' t oldHead next →
      SafePop c c' oldHead next) ∧
    (∀ t oldHead next (slot : ℕ), c.pc t = .popValue oldHead next slot →
      (c.sh.heap next).isSome = true ∧ c.sh.delivered[slot]? = some (c.sh.serial next)) ∧
    c.sh.delivered.Nodup ∧
    (∀ (slot : ℕ) v, c.sh.results[slot]? = some (some v) →
      ∃ k, c.sh.delivered[slot]? = some (k + 1) ∧ (pushCalls tr)[k]? = some v) ∧
    ∀ slot : ℕ, c.sh.results[slot]? = some none ↔ ∃ t o y, c.pc t = .popValue o y slot := by
  have hreach := h.reach.mono fun _ _ hok => hok.1
  have hvalued := valued h
  obtain ⟨hzero, hnodup⟩ := List.nodup_cons.1 (serials hreach).nodup
  refine ⟨fun t x c' oldHead next => safe_of_popCas hreach, fun t oldHead next slot ht => ?_, hnodup,
    fun slot v hv => ?_, fun slot => (slots_ok h.reach).unread⟩
  · obtain ⟨⟨nd, hnd⟩, hslot⟩ := hvalued.unread ht
    exact ⟨by rw [hnd]; rfl, hslot⟩
  · obtain ⟨k, hk, hvalue⟩ := hvalued.read hv
    cases k with
    | zero => exact absurd (List.mem_of_getElem? hk) hzero
    | succ k => exact ⟨k, hk, hvalue⟩

/-- One push, and a pop up to its successful CAS and beyond. -/
theorem pop_safe_first : ∃ (tr : Trace (Fin 1) ℕ) (c c' : State (Fin 1) ℕ),
    (prog (Fin 1) true).lts.Traced Undisturbed tr c ∧ PopCas c c' 0 0 1 ∧ SafePop c c' 0 1 := by
  obtain ⟨tr, c, htr, hp⟩ := Lts.exists_traced (prog (Fin 1) true).lts Undisturbed
    (pushAlone 0 7 1 ++ (0, .pop) :: go 0 2)
    (fun _ c => c.pc 0 = .popSwing 0 1 ∧
      ((prog (Fin 1) true).lts.step c (0, .run calm)).any fun c' => c'.pc 0 = .popValue 0 1 0) (by decide)
  obtain ⟨hpc, hstep⟩ := of_decide_eq_true hp
  obtain ⟨c', hs, hpc'⟩ := (Option.any_eq_true _ _).1 hstep
  have hpop : PopCas c c' 0 0 1 := ⟨hpc, 0, by simpa using hpc'⟩
  exact ⟨tr, c, c', htr, hpop, (pop_safe htr).1 0 _ c' 0 1 hs hpop⟩

/-- **A pop installs a deleted node, and one reads a value that is not there any more.** Thread 1 has
read that node 1 follows node 0; thread 0 pops both, pushes a node at address 0 again and pops until it
is the head. The CAS of thread 1 then makes node 1 the head, which is gone. In the other run thread 1
has made node 1 the head; thread 0 pops once, which deletes it, and pushes 9, whose node is placed
there; and of the values 7, 8 and 9 the pops return 9, 8 and 9. -/
theorem pop_installs_deleted :
    (∃ c c' : State (Fin 2) ℕ, (prog (Fin 2) true).lts.Reach c ∧
      (∃ x, (prog (Fin 2) true).lts.step c (1, x) = some c') ∧ PopCas c c' 1 0 1 ∧ ¬ SafePop c c' 0 1) ∧
    ∃ (tr : Trace (Fin 2) ℕ) (c : State (Fin 2) ℕ),
      (prog (Fin 2) true).lts.Traced (NoReuse Pc.headCas) tr c ∧ pushCalls tr = [7, 8, 9] ∧
        c.sh.results = [some 9, some 8, some 9] := by
  constructor
  · obtain ⟨c, hc, hp⟩ := Lts.exists_reachIf (prog (Fin 2) true).lts (fun _ _ => True)
      (pushAlone 0 7 1 ++ pushAlone 0 8 2 ++ (1, .pop) :: go 1 2 ++ popAlone 0 ++ popAlone 0 ++
        pushAlone 0 9 0 ++ popAlone 0)
      (fun c => (c.sh.heap 1).isNone ∧ c.pc 1 = .popSwing 0 1 ∧
        ((prog (Fin 2) true).lts.step c (1, .run calm)).any fun c' => c'.pc 1 = .popValue 0 1 3)
      (by decide)
    obtain ⟨hgone, hpc, hstep⟩ := of_decide_eq_true hp
    obtain ⟨c', hs, hpc'⟩ := (Option.any_eq_true _ _).1 hstep
    refine ⟨c, c', hc, ⟨_, hs⟩, ⟨hpc, 3, by simpa using hpc'⟩, fun hsafe => ?_⟩
    have := hsafe.alloc
    rw [Option.isNone_iff_eq_none.1 hgone] at this; simp at this
  · obtain ⟨tr, c, htr, hend⟩ := Lts.exists_traced (prog (Fin 2) true).lts (NoReuse Pc.headCas)
      (pushAlone 0 7 1 ++ pushAlone 0 8 2 ++ (1, .pop) :: go 1 3 ++ popAlone 0 ++ pushAlone 0 9 1 ++
        go 1 2 ++ popAlone 0)
      (fun tr c => pushCalls tr == [7, 8, 9] && c.sh.results == [some 9, some 8, some 9]) (by decide)
    rw [Bool.and_eq_true, beq_iff_eq, beq_iff_eq] at hend
    exact ⟨tr, c, htr, hend⟩

end BackendTasks.LockFreeQueue
