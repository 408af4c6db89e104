import BackendTasks.Proof.LockFreeStep

/-!
# Who owns which node

The abstract model behind reclamation. A node is **live** while it is allocated and no
`pop` has taken it off the list. `Nodes` keeps, besides the memory and `head`, the node
each `push` has created and not linked yet and the node each `pop` has taken off and not
deleted yet; `Nodes.Step` are the five things that happen to nodes.

Every step keeps the live nodes a set of disjoint chains with `head` at the start of
one (`Nodes.OK`, `Nodes.Step.ok`), however wrong the memory accesses of a `push` are.
-/

namespace BackendTasks.LockFreeQueue

variable {ι T : Type*}

/-- The memory, `head`, and the nodes that threads hold for themselves. -/
structure Nodes (ι T : Type*) where
  heap : Addr → Option (Node T)
  head : Addr
  unlinked : ι → Option Addr
  removed : ι → Option Addr

namespace Nodes

variable {o o' : Nodes ι T} {a b n x : Addr} {nd nd' : Node T} {i t : ι} {v : T}

/-- A node is allocated at `a` and no `pop` has taken it off. -/
def Live (o : Nodes ι T) (a : Addr) (nd : Node T) : Prop :=
  o.heap a = some nd ∧ ∀ i, o.removed i ≠ some a

/-- The live nodes form disjoint chains, `head` starts one of them, and the nodes that
threads hold are where they should be. -/
structure OK (o : Nodes ι T) : Prop where
  head : ∃ nd, o.Live o.head nd
  succ : ∀ {a nd b}, o.Live a nd → nd.next = some b → (∃ nd', o.Live b nd') ∧ b ≠ o.head
  inj : ∀ {a a' nd nd' b}, o.Live a nd → o.Live a' nd' → nd.next = some b → nd'.next = some b → a = a'
  unlinked : ∀ {i n}, o.unlinked i = some n → (∃ nd, o.Live n nd) ∧ n ≠ o.head
  unlinked_pred : ∀ {i n a nd}, o.unlinked i = some n → o.Live a nd → nd.next ≠ some n
  unlinked_inj : ∀ {i j n}, o.unlinked i = some n → o.unlinked j = some n → i = j
  removed : ∀ {i a}, o.removed i = some a → ∃ nd, o.heap a = some nd ∧ nd.next ≠ none
  removed_inj : ∀ {i j a}, o.removed i = some a → o.removed j = some a → i = j

theorem Live.ne_of_free (hl : o.Live a nd) (hn : o.heap n = none) : a ≠ n := by
  rintro rfl
  have := hl.1
  rw [hn] at this; simp at this

theorem OK.live_head (h : o.OK) (hhd : o.heap o.head = some nd) : o.Live o.head nd := by
  obtain ⟨nd', hl⟩ := h.head
  have : nd = nd' := Option.some.inj (hhd.symm.trans hl.1)
  exact this ▸ hl

/-- A node that a `pop` has taken off has a successor, so one without is live. -/
theorem OK.live_last (h : o.OK) (ha : o.heap a = some nd) (hnull : nd.next = none) : o.Live a nd := by
  refine ⟨ha, fun i hi => ?_⟩
  obtain ⟨nd', hnd', hnext⟩ := h.removed hi
  have : nd = nd' := Option.some.inj (ha.symm.trans hnd')
  exact hnext (this ▸ hnull)

variable [DecidableEq ι]

/-- Thread `t` creates a node at `n`. -/
def alloc (o : Nodes ι T) (t : ι) (n : Addr) (v : T) : Nodes ι T :=
  { o with
    heap := Function.update o.heap n (some ⟨v, none⟩)
    unlinked := Function.update o.unlinked t (some n) }

/-- Thread `t` links its node `n` behind the node `nd` at `a`. -/
def link (o : Nodes ι T) (t : ι) (n a : Addr) (nd : Node T) : Nodes ι T :=
  { o with
    heap := Function.update o.heap a (some { nd with next := some n })
    unlinked := Function.update o.unlinked t none }

/-- Thread `t` gives its node up. -/
def forget (o : Nodes ι T) (t : ι) : Nodes ι T :=
  { o with unlinked := Function.update o.unlinked t none }

/-- Thread `t` takes `head` off and makes `x` the head. -/
def advance (o : Nodes ι T) (t : ι) (x : Addr) : Nodes ι T :=
  { o with head := x, removed := Function.update o.removed t (some o.head) }

/-- Thread `t` deletes the node at `a`. -/
def delete (o : Nodes ι T) (t : ι) (a : Addr) : Nodes ι T :=
  { o with
    heap := Function.update o.heap a none
    removed := Function.update o.removed t none }

/-- What happens to nodes. -/
inductive Step : Nodes ι T → Nodes ι T → Prop
  | alloc {o : Nodes ι T} {t : ι} {n : Addr} {v : T} : o.heap n = none → Step o (o.alloc t n v)
  | link {o : Nodes ι T} {t : ι} {n a : Addr} {nd : Node T} : o.unlinked t = some n →
      o.heap a = some nd → nd.next = none → Step o (o.link t n a nd)
  | forget {o : Nodes ι T} {t : ι} : Step o (o.forget t)
  | advance {o : Nodes ι T} {t : ι} {x : Addr} {nd : Node T} : o.removed t = none →
      o.heap o.head = some nd → nd.next = some x → Step o (o.advance t x)
  | delete {o : Nodes ι T} {t : ι} {a : Addr} : o.removed t = some a → Step o (o.delete t a)

/-- An entry of an updated table is the new one or an old one. -/
theorem update_some {f : ι → Option Addr} {y : Option Addr} (h : Function.update f t y i = some a) :
    (i = t ∧ y = some a) ∨ (i ≠ t ∧ f i = some a) := by
  by_cases hi : i = t
  · subst hi; exact .inl ⟨rfl, by simpa using h⟩
  · exact .inr ⟨hi, by simpa [hi] using h⟩

/-! ## Which nodes are live after a step -/

theorem Live.alloc (hl : o.Live a nd) (hn : o.heap n = none) : (o.alloc t n v).Live a nd :=
  ⟨by simpa [Nodes.alloc, Function.update_of_ne (hl.ne_of_free hn)] using hl.1, hl.2⟩

theorem live_of_alloc (hl : (o.alloc t n v).Live a nd) : (a = n ∧ nd = ⟨v, none⟩) ∨ o.Live a nd := by
  by_cases ha : a = n
  · subst ha; exact .inl ⟨rfl, by simpa [Nodes.alloc] using hl.1.symm⟩
  · exact .inr ⟨by simpa [Nodes.alloc, Function.update_of_ne ha] using hl.1, hl.2⟩

theorem Live.link (hl : o.Live b nd') : ∃ nd'', (o.link t n a nd).Live b nd'' := by
  by_cases hb : b = a
  · subst hb; exact ⟨_, Function.update_self .., hl.2⟩
  · exact ⟨nd', by simpa [Nodes.link, Function.update_of_ne hb] using hl.1, hl.2⟩

theorem live_of_link (hl : (o.link t n a nd).Live b nd') :
    (b = a ∧ nd' = { nd with next := some n }) ∨ o.Live b nd' := by
  by_cases hb : b = a
  · subst hb; exact .inl ⟨rfl, by simpa [Nodes.link] using hl.1.symm⟩
  · exact .inr ⟨by simpa [Nodes.link, Function.update_of_ne hb] using hl.1, hl.2⟩

theorem Live.advance (hl : o.Live b nd) (hb : b ≠ o.head) : (o.advance t x).Live b nd := by
  refine ⟨hl.1, fun i hi => ?_⟩
  rcases update_some hi with ⟨-, hi₁⟩ | ⟨-, hi₁⟩
  · exact hb (Option.some.inj hi₁).symm
  · exact hl.2 i hi₁

theorem live_of_advance (ht : o.removed t = none) (hl : (o.advance t x).Live b nd) :
    o.Live b nd ∧ b ≠ o.head := by
  refine ⟨⟨hl.1, fun i hi => ?_⟩, ?_⟩
  · have hit : i ≠ t := by rintro rfl; rw [ht] at hi; simp at hi
    exact hl.2 i (by simpa [Nodes.advance, Function.update_of_ne hit] using hi)
  · rintro rfl; exact hl.2 t (by simp [Nodes.advance])

theorem Live.delete (hl : o.Live b nd) (ht : o.removed t = some a) : (o.delete t a).Live b nd := by
  have hb : b ≠ a := by rintro rfl; exact hl.2 t ht
  refine ⟨by simpa [Nodes.delete, Function.update_of_ne hb] using hl.1, fun i hi => ?_⟩
  rcases update_some hi with ⟨-, hi₁⟩ | ⟨-, hi₁⟩
  · simp at hi₁
  · exact hl.2 i hi₁

theorem live_of_delete (ht : o.removed t = some a) (hl : (o.delete t a).Live b nd) : o.Live b nd := by
  have hb : b ≠ a := by rintro rfl; have := hl.1; simp [Nodes.delete] at this
  refine ⟨by simpa [Nodes.delete, Function.update_of_ne hb] using hl.1, fun i hi => ?_⟩
  by_cases hit : i = t
  · subst hit; rw [ht] at hi; exact hb (Option.some.inj hi).symm
  · exact hl.2 i (by simpa [Nodes.delete, Function.update_of_ne hit] using hi)

/-- A live node was live before or has just been created. -/
theorem Step.live_back (hs : Step o o') (hl : o'.Live b nd) :
    (∃ nd', o.Live b nd') ∨ o.heap b = none := by
  cases hs with
  | alloc hn =>
    rcases live_of_alloc hl with ⟨rfl, -⟩ | hl
    · exact .inr hn
    · exact .inl ⟨nd, hl⟩
  | link _ ha _ =>
    rcases live_of_link hl with ⟨rfl, -⟩ | hl₁
    · exact .inl ⟨_, ha, hl.2⟩
    · exact .inl ⟨nd, hl₁⟩
  | forget => exact .inl ⟨nd, hl⟩
  | advance ht _ _ => exact .inl ⟨nd, (live_of_advance ht hl).1⟩
  | delete ht => exact .inl ⟨nd, live_of_delete ht hl⟩

/-! ## Every step keeps the chains -/

theorem OK.alloc (h : o.OK) (hn : o.heap n = none) : (o.alloc t n v).OK := by
  have hkept : ∀ i, o.removed i ≠ some n := by
    intro i hi
    obtain ⟨nd, hnd, -⟩ := h.removed hi
    rw [hn] at hnd; simp at hnd
  have hfree : ∀ i, o.unlinked i ≠ some n := by
    intro i hi
    obtain ⟨⟨nd, hl⟩, -⟩ := h.unlinked hi
    exact hl.ne_of_free hn rfl
  obtain ⟨ndh, hhead⟩ := h.head
  refine ⟨⟨ndh, hhead.alloc hn⟩, ?_, ?_, ?_, ?_, ?_, ?_, h.removed_inj⟩
  · intro a nd b hl hb
    rcases live_of_alloc hl with ⟨-, rfl⟩ | hl
    · simp at hb
    · obtain ⟨⟨nd', hl'⟩, hne⟩ := h.succ hl hb
      exact ⟨⟨nd', hl'.alloc hn⟩, hne⟩
  · intro a a' nd nd' b hl hl' hb hb'
    rcases live_of_alloc hl with ⟨-, rfl⟩ | hl
    · simp at hb
    · rcases live_of_alloc hl' with ⟨-, rfl⟩ | hl'
      · simp at hb'
      · exact h.inj hl hl' hb hb'
  · intro i m hm
    rcases update_some hm with ⟨-, hm₁⟩ | ⟨-, hm₁⟩
    · cases hm₁
      exact ⟨⟨⟨v, none⟩, by simp [Nodes.alloc], hkept⟩, (hhead.ne_of_free hn).symm⟩
    · obtain ⟨⟨nd, hl⟩, hne⟩ := h.unlinked hm₁
      exact ⟨⟨nd, hl.alloc hn⟩, hne⟩
  · intro i m a nd hm hl hb
    rcases live_of_alloc hl with ⟨-, rfl⟩ | hl
    · simp at hb
    · rcases update_some hm with ⟨-, hm₁⟩ | ⟨-, hm₁⟩
      · cases hm₁
        obtain ⟨⟨nd', hl'⟩, -⟩ := h.succ hl hb
        exact hl'.ne_of_free hn rfl
      · exact h.unlinked_pred hm₁ hl hb
  · intro i j m hi hj
    rcases update_some hi with ⟨hit, hi₁⟩ | ⟨-, hi₁⟩ <;>
      rcases update_some hj with ⟨hjt, hj₁⟩ | ⟨-, hj₁⟩
    · rw [hit, hjt]
    · cases hi₁; exact absurd hj₁ (hfree j)
    · cases hj₁; exact absurd hi₁ (hfree i)
    · exact h.unlinked_inj hi₁ hj₁
  · intro i a ha
    obtain ⟨nd, hnd, hnext⟩ := h.removed ha
    have hne : a ≠ n := by rintro rfl; exact hkept i ha
    exact ⟨nd, by simpa [Nodes.alloc, Function.update_of_ne hne] using hnd, hnext⟩

theorem OK.forget (h : o.OK) : (o.forget t).OK := by
  have hold : ∀ {i n}, (o.forget t).unlinked i = some n → o.unlinked i = some n := by
    intro i n hi
    rcases update_some hi with ⟨-, hi₁⟩ | ⟨-, hi₁⟩
    · simp at hi₁
    · exact hi₁
  exact ⟨h.head, h.succ, h.inj, fun hi => h.unlinked (hold hi), fun hi => h.unlinked_pred (hold hi),
    fun hi hj => h.unlinked_inj (hold hi) (hold hj), h.removed, h.removed_inj⟩

theorem OK.link (h : o.OK) (hn : o.unlinked t = some n) (ha : o.heap a = some nd)
    (hnull : nd.next = none) : (o.link t n a nd).OK := by
  -- a link after the step is the new one or an old one
  have hdown : ∀ {b nd' m}, (o.link t n a nd).Live b nd' → nd'.next = some m →
      (b = a ∧ m = n) ∨ o.Live b nd' := by
    intro b nd' m hl hm
    rcases live_of_link hl with ⟨hb, rfl⟩ | hl
    · exact .inl ⟨hb, by simpa using hm.symm⟩
    · exact .inr hl
  have hun : ∀ {i m}, (o.link t n a nd).unlinked i = some m → o.unlinked i = some m ∧ m ≠ n := by
    intro i m hi
    rcases update_some hi with ⟨-, hi₁⟩ | ⟨hit, hi₁⟩
    · simp at hi₁
    · exact ⟨hi₁, fun hmn => hit (h.unlinked_inj hi₁ (hmn ▸ hn))⟩
  have hlive := h.live_last ha hnull
  obtain ⟨⟨ndn, hln⟩, hnhead⟩ := h.unlinked hn
  obtain ⟨ndh, hhead⟩ := h.head
  refine ⟨hhead.link, ?_, ?_, ?_, ?_, ?_, ?_, h.removed_inj⟩
  · intro b nd' m hl hm
    rcases hdown hl hm with ⟨rfl, rfl⟩ | hl
    · exact ⟨hln.link, hnhead⟩
    · obtain ⟨⟨nd'', hl'⟩, hne⟩ := h.succ hl hm
      exact ⟨hl'.link, hne⟩
  · intro b b' nd₁ nd₂ m hl hl' hm hm'
    rcases hdown hl hm with ⟨hb, hmn⟩ | hl₁ <;> rcases hdown hl' hm' with ⟨hb', hmn'⟩ | hl₁'
    · rw [hb, hb']
    · exact absurd (hmn ▸ hm') (h.unlinked_pred hn hl₁')
    · exact absurd (hmn' ▸ hm) (h.unlinked_pred hn hl₁)
    · exact h.inj hl₁ hl₁' hm hm'
  · intro i m hi
    obtain ⟨⟨nd', hl⟩, hne⟩ := h.unlinked (hun hi).1
    exact ⟨hl.link, hne⟩
  · intro i m b nd' hi hl hm
    rcases hdown hl hm with ⟨-, rfl⟩ | hl
    · exact (hun hi).2 rfl
    · exact h.unlinked_pred (hun hi).1 hl hm
  · intro i j m hi hj
    exact h.unlinked_inj (hun hi).1 (hun hj).1
  · intro i b hi
    obtain ⟨nd', hnd', hnext⟩ := h.removed hi
    have hb : b ≠ a := by rintro rfl; exact hlive.2 i hi
    exact ⟨nd', by simpa [Nodes.link, Function.update_of_ne hb] using hnd', hnext⟩

theorem OK.advance (h : o.OK) (ht : o.removed t = none) (hhd : o.heap o.head = some nd)
    (hx : nd.next = some x) : (o.advance t x).OK := by
  have hlive := h.live_head hhd
  obtain ⟨⟨ndx, hlx⟩, hxne⟩ := h.succ hlive hx
  refine ⟨⟨ndx, hlx.advance hxne⟩, ?_, ?_, ?_, ?_, h.unlinked_inj, ?_, ?_⟩
  · intro a nda b hl hb
    obtain ⟨hl, hne⟩ := live_of_advance ht hl
    obtain ⟨⟨ndb, hlb⟩, hbne⟩ := h.succ hl hb
    exact ⟨⟨ndb, hlb.advance hbne⟩, fun hbx => hne (h.inj hl hlive hb (hbx ▸ hx))⟩
  · intro a a' nda nda' b hl hl' hb hb'
    exact h.inj (live_of_advance ht hl).1 (live_of_advance ht hl').1 hb hb'
  · intro i m hi
    obtain ⟨⟨ndm, hl⟩, hne⟩ := h.unlinked hi
    exact ⟨⟨ndm, hl.advance hne⟩, fun hmx => h.unlinked_pred hi hlive (hmx ▸ hx)⟩
  · intro i m a nda hi hl
    exact h.unlinked_pred hi (live_of_advance ht hl).1
  · intro i a hi
    rcases update_some hi with ⟨-, hi₁⟩ | ⟨-, hi₁⟩
    · cases hi₁; exact ⟨nd, hhd, by rw [hx]; simp⟩
    · exact h.removed hi₁
  · intro i j a hi hj
    rcases update_some hi with ⟨hit, hi₁⟩ | ⟨-, hi₁⟩ <;>
      rcases update_some hj with ⟨hjt, hj₁⟩ | ⟨-, hj₁⟩
    · rw [hit, hjt]
    · cases hi₁; exact absurd hj₁ (hlive.2 j)
    · cases hj₁; exact absurd hi₁ (hlive.2 i)
    · exact h.removed_inj hi₁ hj₁

theorem OK.delete (h : o.OK) (ht : o.removed t = some a) : (o.delete t a).OK := by
  have hrem : ∀ {i b}, (o.delete t a).removed i = some b → o.removed i = some b ∧ b ≠ a := by
    intro i b hi
    rcases update_some hi with ⟨-, hi₁⟩ | ⟨hit, hi₁⟩
    · simp at hi₁
    · exact ⟨hi₁, fun hba => hit (h.removed_inj hi₁ (hba ▸ ht))⟩
  obtain ⟨ndh, hhead⟩ := h.head
  refine ⟨⟨ndh, hhead.delete ht⟩, ?_, ?_, ?_, ?_, h.unlinked_inj, ?_, ?_⟩
  · intro b ndb m hl hm
    obtain ⟨⟨nd', hl'⟩, hne⟩ := h.succ (live_of_delete ht hl) hm
    exact ⟨⟨nd', hl'.delete ht⟩, hne⟩
  · intro b b' nd₁ nd₂ m hl hl' hm hm'
    exact h.inj (live_of_delete ht hl) (live_of_delete ht hl') hm hm'
  · intro i m hi
    obtain ⟨⟨nd', hl⟩, hne⟩ := h.unlinked hi
    exact ⟨⟨nd', hl.delete ht⟩, hne⟩
  · intro i m b ndb hi hl
    exact h.unlinked_pred hi (live_of_delete ht hl)
  · intro i b hi
    obtain ⟨hi, hb⟩ := hrem hi
    obtain ⟨nd', hnd', hnext⟩ := h.removed hi
    exact ⟨nd', by simpa [Nodes.delete, Function.update_of_ne hb] using hnd', hnext⟩
  · intro i j b hi hj
    exact h.removed_inj (hrem hi).1 (hrem hj).1

/-- **Whatever happens to nodes keeps the chains.** -/
theorem Step.ok (h : o.OK) (hs : Step o o') : o'.OK := by
  cases hs with
  | alloc hn => exact h.alloc hn
  | link hn ha hnull => exact h.link hn ha hnull
  | forget => exact h.forget
  | advance ht hhd hx => exact h.advance ht hhd hx
  | delete ht => exact h.delete ht

end Nodes

end BackendTasks.LockFreeQueue
