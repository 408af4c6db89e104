import BackendTasks.Proof.LockFreeStep

/-!
# Lists in memory

`new Node` and the linking of a node behind the last one keep the nodes there are, with the
successors they have (`Keeps`), so what was reached stays reached. Linking puts the new node
at the end of every list that ends with the node it is linked to (`After.link`).
-/

namespace BackendTasks.LockFreeQueue

variable {T : Type*} {s : Shared T} {a b n t : Addr} {v : T} {nd : Node T} {l : List Addr}
  {heap heap' : Addr → Option (Node T)}

/-! ## Memory that grows -/

/-- The node at `a` has the value `v`. -/
def Holds (heap : Addr → Option (Node T)) (a : Addr) (v : T) : Prop :=
  ∃ nd, heap a = some nd ∧ nd.value = v

/-- Nodes stay, with their values and the `next` they have, if not null. -/
def Keeps (heap heap' : Addr → Option (Node T)) : Prop :=
  ∀ a nd, heap a = some nd →
    ∃ nd', heap' a = some nd' ∧ nd'.value = nd.value ∧ ∀ b, nd.next = some b → nd'.next = some b

theorem Keeps.refl (heap : Addr → Option (Node T)) : Keeps heap heap :=
  fun _ nd h => ⟨nd, h, rfl, fun _ => id⟩

theorem Keeps.succ (h : Keeps heap heap') (hs : Succ heap a b) : Succ heap' a b := by
  obtain ⟨nd, hnd, hnext⟩ := hs
  obtain ⟨nd', hnd', -, hkeep⟩ := h a nd hnd
  exact ⟨nd', hnd', hkeep b hnext⟩

theorem Keeps.linked (h : Keeps heap heap') (hl : Linked heap a b) : Linked heap' a b :=
  Relation.ReflTransGen.mono (fun _ _ => h.succ) _ _ hl

theorem Keeps.holds (h : Keeps heap heap') (hv : Holds heap a v) : Holds heap' a v := by
  obtain ⟨nd, hnd, rfl⟩ := hv
  obtain ⟨nd', hnd', hval, -⟩ := h a nd hnd
  exact ⟨nd', hnd', hval⟩

theorem Keeps.allocated (h : Keeps heap heap') (ha : ∃ nd, heap a = some nd) :
    ∃ nd, heap' a = some nd := by
  obtain ⟨nd, hnd⟩ := ha
  obtain ⟨nd', hnd', -⟩ := h a nd hnd
  exact ⟨nd', hnd'⟩

theorem keeps_alloc (hfree : s.heap n = none) (v : T) : Keeps s.heap (s.alloc n v).heap := by
  intro a nd hnd
  have hne : a ≠ n := by rintro rfl; rw [hfree] at hnd; simp at hnd
  exact ⟨nd, by rw [Shared.alloc_heap, Function.update_of_ne hne]; exact hnd, rfl, fun _ => id⟩

theorem succ_alloc (h : Succ (s.alloc n v).heap a b) : Succ s.heap a b := by
  obtain ⟨nd, hnd, hnext⟩ := h
  rw [Shared.alloc_heap] at hnd
  by_cases han : a = n
  · rw [han, Function.update_self] at hnd
    rw [← Option.some.inj hnd] at hnext
    simp at hnext
  · rw [Function.update_of_ne han] at hnd
    exact ⟨nd, hnd, hnext⟩

theorem keeps_link (ht : s.heap t = some nd) (hnull : nd.next = none) :
    Keeps s.heap (s.link t n).heap := by
  intro a nda hnda
  rw [Shared.link_heap ht]
  by_cases hat : a = t
  · have : nd = nda := by rw [hat, ht] at hnda; exact Option.some.inj hnda
    subst hat this
    exact ⟨_, Function.update_self .., rfl, fun b hb => by rw [hnull] at hb; simp at hb⟩
  · exact ⟨nda, by rw [Function.update_of_ne hat]; exact hnda, rfl, fun _ => id⟩

theorem succ_link (ht : s.heap t = some nd) (h : Succ (s.link t n).heap a b) :
    Succ s.heap a b ∨ (a = t ∧ b = n) := by
  obtain ⟨nd', hnd', hnext⟩ := h
  rw [Shared.link_heap ht] at hnd'
  by_cases hat : a = t
  · rw [hat, Function.update_self] at hnd'
    rw [← Option.some.inj hnd'] at hnext
    exact .inr ⟨hat, (Option.some.inj hnext).symm⟩
  · rw [Function.update_of_ne hat] at hnd'
    exact .inl ⟨nd', hnd', hnext⟩

theorem link_succ (ht : s.heap t = some nd) : Succ (s.link t n).heap t n :=
  ⟨_, by rw [Shared.link_heap ht]; exact Function.update_self .., rfl⟩

/-! ## The list behind a node -/

theorem succ_unique (h : Succ heap a b) (h' : Succ heap a n) : b = n := by
  obtain ⟨nd, hnd, hb⟩ := h
  obtain ⟨nd', hnd', hn⟩ := h'
  have : nd = nd' := Option.some.inj (hnd.symm.trans hnd')
  exact Option.some.inj (hb.symm.trans (this ▸ hn))

theorem not_succ (h : heap a = some nd) (hnull : nd.next = none) : ¬ Succ heap a b := by
  rintro ⟨nd', hnd', hnext⟩
  have : nd = nd' := Option.some.inj (h.symm.trans hnd')
  rw [← this, hnull] at hnext
  simp at hnext

/-- Nothing but itself is reached from a node without successor. -/
theorem Linked.last (h : Linked heap a b) (hlast : ∀ n, ¬ Succ heap a n) : a = b := by
  rcases Relation.ReflTransGen.cases_head h with heq | ⟨z, hz, -⟩
  · exact heq
  · exact absurd hz (hlast z)

/-- Of two nodes on one list, one is reached from the other. -/
theorem Linked.total (h : Linked heap n a) (h' : Linked heap n b) :
    Linked heap a b ∨ Linked heap b a :=
  Relation.ReflTransGen.total_of_right_unique (fun _ _ _ => succ_unique) h h'

/-- What leads to a list is a list itself. -/
theorem After.before (h : After heap b l) (hab : Linked heap a b) : ∃ l', After heap a l' := by
  induction hab using Relation.ReflTransGen.head_induction_on with
  | refl => exact ⟨l, h⟩
  | head hs _ ih =>
    obtain ⟨l', hl'⟩ := ih
    exact ⟨_, .cons hs hl'⟩

/-- From each node of a list on there is a list. -/
theorem After.behind (h : After heap a l) (hab : Linked heap a b) : ∃ l', After heap b l' := by
  induction hab with
  | refl => exact ⟨l, h⟩
  | tail _ hs ih =>
    obtain ⟨l', hl'⟩ := ih
    cases hl' with
    | last hnd hnull => exact absurd hs (not_succ hnd hnull)
    | cons hs' hrest =>
      rw [succ_unique hs hs']
      exact ⟨_, hrest⟩

/-- Linking `n` behind the last node puts it at the end of the list. -/
theorem After.link {ndn : Node T} (h : After heap a l) (hat : Linked heap a t)
    (hlast : ∀ b, ¬ Succ heap t b) (hkeep : Keeps heap heap') (htn : Succ heap' t n)
    (hn : heap' n = some ndn) (hnull : ndn.next = none) : After heap' a (l ++ [n]) := by
  induction h with
  | @last a nd hnd hnone =>
    have : a = t := hat.last fun b => not_succ hnd hnone
    exact this ▸ .cons htn (.last hn hnull)
  | @cons a b l hab hbl ih =>
    rcases Relation.ReflTransGen.cases_head hat with rfl | ⟨z, haz, hzt⟩
    · exact absurd hab (hlast b)
    · rw [succ_unique haz hab] at hzt
      exact .cons (hkeep.succ hab) (ih hzt)

/-- The list stays while no node on it gets a successor. -/
theorem After.keep (h : After heap a l) (hkeep : ∀ a nd, heap a = some nd → heap' a = some nd) :
    After heap' a l := by
  induction h with
  | last hnd hnone => exact .last (hkeep _ _ hnd) hnone
  | cons hab _ ih =>
    obtain ⟨nd, hnd, hnext⟩ := hab
    exact .cons ⟨nd, hkeep _ _ hnd, hnext⟩ ih

end BackendTasks.LockFreeQueue
