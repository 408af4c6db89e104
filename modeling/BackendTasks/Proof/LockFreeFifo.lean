import BackendTasks.Proof.LockFreeList
import BackendTasks.Proof.LockFreeReclaim
import BackendTasks.Sched.Fifo
import Mathlib.Algebra.BigOperators.Group.Finset.Basic
import Mathlib.Algebra.Order.Group.Multiset
import Mathlib.Data.List.Forall2

/-!
# The lock-free queue is a FIFO queue when memory is never reclaimed

With `delete` a no-op, a node once linked stays, and its `next` never changes again:
memory only grows, so what a thread has read about the list stays true. `head`
and `tail` are on the list that starts with the dummy node, `tail` before or behind
`head`.

* `Spine`: the nodes behind `head` hold the values pushed and not popped.
* `pushes_linked`: what `push` was called with is what has been linked and what the threads in `push` have
  not linked yet.
* `refines_fifo`: the values returned by the successful `pop`s, in the order of their
  CASes on `head`, followed by the values behind `head`, are the pushed values in the
  order their nodes were linked; and a `pop` that returns false loaded its null `next`
  when every linked value had been popped.
-/

namespace BackendTasks.LockFreeQueue

open Sched

variable {ι T : Type*} {s s' : Shared T} {p p' q : Pc} {x : Choice T} {a b n t : Addr} {v : T}
  {l : List Addr} {heap : Addr → Option (Node T)}

/-! ## The invariant -/

/-- The node of a `push` that has not linked it yet: it is on no list. -/
structure Unlinked (heap : Addr → Option (Node T)) (n : Addr) : Prop where
  node : ∃ v, heap n = some ⟨v, none⟩
  dummy : n ≠ 0
  fresh : ∀ a, ¬ Succ heap a n

/-- The nodes behind `head` are `l`, and they hold the values pushed and not popped. -/
structure Spine (s : Shared T) (l : List Addr) : Prop where
  dummy : ∃ nd, s.heap 0 = some nd
  closed : ∀ a b, Succ s.heap a b → ∃ nd, s.heap b = some nd
  head : Linked s.heap 0 s.head
  tail : Linked s.heap 0 s.tail
  chain : After s.heap s.head l
  values : List.Forall₂ (Holds s.heap) l (s.pushed.drop s.results.length)
  popped : s.results.length ≤ s.pushed.length
  slots : ∀ (k : ℕ) (v : T), s.results[k]? = some (some v) → s.pushed[k]? = some v

/-- What a thread knows. -/
def ThreadOK (s : Shared T) : Pc → Prop
  | .pushTail n => Unlinked s.heap n
  | .pushNext n t | .pushLink n t => Unlinked s.heap n ∧ Linked s.heap 0 t
  | .pushHelp n t x => Unlinked s.heap n ∧ Linked s.heap 0 t ∧ Succ s.heap t x
  | .pushSwing n t => Linked s.heap 0 t ∧ Succ s.heap t n
  | .popNext h => Linked s.heap h s.head
  | .popSwing h x => Succ s.heap h x
  | .popValue _ x k => ∃ v, Holds s.heap x v ∧ s.pushed[k]? = some v
  | .idle | .popHead | .popDelete _ => True

theorem Spine.allocated (hS : Spine s l) (h : Linked s.heap 0 a) : ∃ nd, s.heap a = some nd := by
  rcases Relation.ReflTransGen.cases_tail h with rfl | ⟨b, -, hb⟩
  · exact hS.dummy
  · exact hS.closed b a hb

theorem Unlinked.not_linked (hU : Unlinked heap n) (h : Linked heap 0 a) : a ≠ n := by
  rintro rfl
  rcases Relation.ReflTransGen.cases_tail h with h0 | ⟨b, -, hb⟩
  · exact hU.dummy h0
  · exact hU.fresh b hb

/-- The list behind `head` ends where nothing follows. -/
theorem Spine.after_nil (hS : Spine s l) (h : ∀ b, ¬ Succ s.heap s.head b) : l = [] := by
  cases hS.chain with
  | last _ _ => rfl
  | cons hs _ => exact absurd hs (h _)

/-! ## What a step changes -/

variable {nd : Node T}

/-- What changes along a step: memory grows, values are pushed, and `head` moves on. -/
structure Grows (s s' : Shared T) : Prop where
  keeps : Keeps s.heap s'.heap
  pushed : s.pushed <+: s'.pushed
  head : Linked s'.heap s.head s'.head

theorem Grows.of_eq (hheap : s'.heap = s.heap) (hpushed : s'.pushed = s.pushed)
    (hhead : s'.head = s.head) : Grows s s' := by
  refine ⟨hheap ▸ .refl _, hpushed ▸ List.prefix_refl _, ?_⟩
  rw [hhead]

theorem Move.grows (hm : Move false s p x s' p') (hT : ThreadOK s p) : Grows s s' := by
  cases hm with
  | push hfree => exact ⟨keeps_alloc hfree _, List.prefix_refl _, .refl⟩
  | link ht hnull =>
    refine ⟨keeps_link ht hnull, ?_, by rw [Shared.link_head]⟩
    simp only [Shared.link, ht]
    exact List.prefix_append _ _
  | advance hhead _ => exact ⟨.refl _, List.prefix_refl _, hhead ▸ .single hT⟩
  | help | swing =>
    refine .of_eq (Shared.casTail_heap ..) ?_ (Shared.casTail_head ..)
    rw [Shared.casTail_eq]
  | _ => exact .of_eq rfl rfl rfl

/-- What a thread knows stays true while memory grows and its new node is left alone. -/
theorem ThreadOK.grow (hg : Grows s s') (hU : ∀ n, q.unlinked = some n → Unlinked s'.heap n)
    (h : ThreadOK s q) : ThreadOK s' q := by
  cases q with
  | pushTail n => exact hU n rfl
  | pushNext n t | pushLink n t => exact ⟨hU n rfl, hg.keeps.linked h.2⟩
  | pushHelp n t x => exact ⟨hU n rfl, hg.keeps.linked h.2.1, hg.keeps.succ h.2.2⟩
  | pushSwing n t => exact ⟨hg.keeps.linked h.1, hg.keeps.succ h.2⟩
  | popNext o => exact (hg.keeps.linked h).trans hg.head
  | popSwing o x => exact hg.keeps.succ h
  | popValue o x k =>
    obtain ⟨v, hv, hk⟩ := h
    obtain ⟨r, hr⟩ := hg.pushed
    refine ⟨v, hg.keeps.holds hv, ?_⟩
    rw [← hr, List.getElem?_append_left (List.getElem?_eq_some_iff.1 hk).1]
    exact hk
  | idle | popHead | popDelete _ => trivial

/-- The node of a `push` that another thread has not linked. -/
theorem Unlinked.move (hU : Unlinked s.heap n) (hm : Move false s p x s' p') (hT : ThreadOK s p)
    (hn : p.unlinked ≠ some n) : Unlinked s'.heap n := by
  obtain ⟨v, hv⟩ := hU.node
  cases hm with
  | push hfree =>
    rename_i w m
    have hne : n ≠ m := by rintro rfl; rw [hfree] at hv; simp at hv
    refine ⟨⟨v, ?_⟩, hU.dummy, fun a ha => hU.fresh a (succ_alloc ha)⟩
    rw [Shared.alloc_heap, Function.update_of_ne hne]; exact hv
  | link ht hnull =>
    rename_i m t l ndt
    refine ⟨⟨v, ?_⟩, hU.dummy, fun a ha => ?_⟩
    · rw [Shared.link_heap ht, Function.update_of_ne (hU.not_linked hT.2).symm]; exact hv
    · rcases succ_link ht ha with ha | ⟨-, rfl⟩
      · exact hU.fresh a ha
      · exact hn rfl
  | help | swing => rw [Shared.casTail_heap]; exact hU
  | _ => exact hU

/-! ## The operations keep the spine -/

/-- The queue as an abstract one. -/
def fifo (s : Shared T) : Fifo T :=
  ⟨s.pushed.drop s.results.length, s.pushed, s.pushed.take s.results.length⟩

/-- What the next `pop` takes: the first node of the list holds the oldest value left. -/
theorem Spine.front (hS : Spine s l) (hb : Succ s.heap s.head b) :
    ∃ l' v, l = b :: l' ∧ Holds s.heap b v ∧ After s.heap b l' ∧
      s.pushed.drop s.results.length = v :: s.pushed.drop (s.results.length + 1) := by
  obtain ⟨hchain, hvalues⟩ := And.intro hS.chain hS.values
  cases hchain with
  | last hnd hnull => exact absurd hb (not_succ hnd hnull)
  | @cons _ z l' hz hrest =>
    obtain rfl : z = b := succ_unique hz hb
    obtain ⟨v, rest, hv, -, hdrop⟩ := List.forall₂_cons_left_iff.1 hvalues
    have hrest' : s.pushed.drop (s.results.length + 1) = rest := by
      rw [← List.drop_drop, hdrop, List.drop_one, List.tail_cons]
    exact ⟨l', v, rfl, hv, hrest, hrest' ▸ hdrop⟩

theorem Spine.alloc (hS : Spine s l) (hfree : s.heap n = none) (v : T) : Spine (s.alloc n v) l := by
  have hk := keeps_alloc hfree v
  -- the nodes there are stay as they are, so the list behind `head` is the same one
  have hsame : ∀ a nd, s.heap a = some nd → (s.alloc n v).heap a = some nd := by
    intro a nd hnd
    have hne : a ≠ n := by rintro rfl; rw [hfree] at hnd; simp at hnd
    rw [Shared.alloc_heap, Function.update_of_ne hne]
    exact hnd
  have hclosed : ∀ a b, Succ (s.alloc n v).heap a b → ∃ nd, (s.alloc n v).heap b = some nd := by
    intro a b hab
    exact hk.allocated (hS.closed a b (succ_alloc hab))
  have hvalues := hS.values.imp fun _ _ => hk.holds
  exact ⟨hk.allocated hS.dummy, hclosed, hk.linked hS.head, hk.linked hS.tail, hS.chain.keep hsame,
    hvalues, hS.popped, hS.slots⟩

theorem Spine.casTail (hS : Spine s l) (ha : Linked s.heap 0 a) (hab : Succ s.heap a b) (lk : Luck T) :
    Spine (s.casTail a b lk) l := by
  unfold Shared.casTail
  split
  · exact { hS with tail := ha.tail hab }
  · exact hS

theorem fifo_link (hS : Spine s l) (ht : s.heap t = some nd) (hv : s.heap n = some ⟨v, none⟩) :
    fifo (s.link t n) = ⟨(fifo s).items ++ [v], (fifo s).accepted ++ [v], (fifo s).delivered⟩ := by
  simp only [fifo, Shared.link, ht, hv, Option.map_some, Option.toList_some,
    List.drop_append_of_le_length hS.popped, List.take_append_of_le_length hS.popped]

theorem Spine.link (hS : Spine s l) (hU : Unlinked s.heap n) (h0 : Linked s.heap 0 t)
    (ht : s.heap t = some nd) (hnull : nd.next = none) : Spine (s.link t n) (l ++ [n]) := by
  obtain ⟨v, hv⟩ := hU.node
  have hk := keeps_link (n := n) ht hnull
  have hn : (s.link t n).heap n = some ⟨v, none⟩ := by
    rw [Shared.link_heap ht, Function.update_of_ne (hU.not_linked h0).symm]
    exact hv
  have hpushed : (s.link t n).pushed = s.pushed ++ [v] := by simp [Shared.link, ht, hv]
  have hresults : (s.link t n).results = s.results := by simp [Shared.link, ht]
  -- `t` is the last node of the list, so it is `head` or behind it
  have hlast : ∀ b, ¬ Succ s.heap t b := fun b => not_succ ht hnull
  have hbehind : Linked s.heap s.head t := by
    rcases Linked.total hS.head h0 with h | h
    · exact h
    · rw [h.last hlast]
  refine ⟨hk.allocated hS.dummy, fun a b hab => ?_, ?_, ?_, ?_, ?_, ?_, fun k w hkw => ?_⟩
  · rcases succ_link ht hab with hab | ⟨-, rfl⟩
    · exact hk.allocated (hS.closed a b hab)
    · exact ⟨_, hn⟩
  · rw [Shared.link_head]; exact hk.linked hS.head
  · rw [Shared.link_tail]; exact hk.linked hS.tail
  · rw [Shared.link_head]
    exact hS.chain.link hbehind hlast hk (link_succ ht) hn rfl
  · rw [hpushed, hresults, List.drop_append_of_le_length hS.popped]
    exact List.rel_append (hS.values.imp fun _ _ => hk.holds) (.cons ⟨_, hn, rfl⟩ .nil)
  · rw [hpushed, hresults, List.length_append]
    exact Nat.le_add_right_of_le hS.popped
  · rw [hresults] at hkw
    have hw := hS.slots k w hkw
    rw [hpushed, List.getElem?_append_left (List.getElem?_eq_some_iff.1 hw).1]
    exact hw

theorem Spine.advance (hS : Spine s l) (hb : Succ s.heap s.head b) :
    ∃ l', Spine (s.advance b) l' := by
  obtain ⟨l', v, rfl, -, hrest, hdrop⟩ := hS.front hb
  have hvalues := hS.values
  rw [hdrop, List.forall₂_cons] at hvalues
  refine ⟨l', hS.dummy, hS.closed, hS.head.tail hb, hS.tail, hrest, ?_, ?_, fun k w hk => ?_⟩
  · simpa [Shared.advance] using hvalues.2
  · have := congrArg List.length hdrop
    simp only [List.length_drop, List.length_cons] at this
    simp only [Shared.advance, List.length_append, List.length_singleton]
    omega
  · simp only [Shared.advance, List.getElem?_append] at hk
    split at hk
    · exact hS.slots k w hk
    · simp [List.getElem?_singleton] at hk

theorem fifo_advance (hS : Spine s l) (hb : Succ s.heap s.head b) :
    Fifo.Step (fun _ => True) (fifo s) (fifo (s.advance b)) := by
  obtain ⟨-, v, -, -, -, hdrop⟩ := hS.front hb
  have hget : s.pushed[s.results.length]? = some v := by
    have := congrArg (·[0]?) hdrop
    simpa using this
  have hdel : s.pushed.take (s.results.length + 1) = s.pushed.take s.results.length ++ [v] := by
    rw [List.take_add_one, hget]; rfl
  simp only [fifo, Shared.advance, List.length_append, List.length_singleton, hdrop, hdel]
  exact .deq v _ _ _

theorem Spine.read (hS : Spine s l) {k : ℕ} (hv : Holds s.heap b v) (hk : s.pushed[k]? = some v)
    (lk : Luck T) : Spine (s.read b k lk) l ∧ fifo (s.read b k lk) = fifo s := by
  obtain ⟨nd, hnd, rfl⟩ := hv
  simp only [Shared.read, hnd, fifo, List.length_set, and_true]
  refine { hS with values := ?_, popped := ?_, slots := fun j w hj => ?_ }
  · rw [List.length_set]; exact hS.values
  · rw [List.length_set]; exact hS.popped
  · dsimp only at hj
    by_cases hkj : k = j
    · rw [hkj, List.getElem?_set_self'] at hj
      obtain ⟨_, -, hw⟩ := Option.map_eq_some_iff.1 hj
      rw [← hkj, hk, ← Option.some.inj hw]
    · rw [List.getElem?_set_ne hkj] at hj
      exact hS.slots j w hj

/-! ## Every step -/

/-- **One step keeps the spine**, and is a step of the abstract queue or leaves it alone. -/
theorem Spine.move (hS : Spine s l) (hT : ThreadOK s p) (hm : Move false s p x s' p') :
    (∃ l', Spine s' l') ∧ (fifo s' = fifo s ∨ Fifo.Step (fun _ => True) (fifo s) (fifo s')) := by
  cases hm with
  | push hfree => exact ⟨⟨l, hS.alloc hfree _⟩, .inl rfl⟩
  | link ht hnull =>
    obtain ⟨v, hv⟩ := hT.1.node
    refine ⟨⟨_, hS.link hT.1 hT.2 ht hnull⟩, .inr ?_⟩
    rw [fifo_link hS ht hv]
    exact .enq _ v trivial
  | help =>
    refine ⟨⟨l, hS.casTail hT.2.1 hT.2.2 _⟩, .inl ?_⟩
    rw [Shared.casTail_eq]; rfl
  | swing =>
    refine ⟨⟨l, hS.casTail hT.1 hT.2 _⟩, .inl ?_⟩
    rw [Shared.casTail_eq]; rfl
  | advance hhead _ =>
    have hb := hhead ▸ hT
    exact ⟨hS.advance hb, .inr (fifo_advance hS hb)⟩
  | read =>
    obtain ⟨v, hv, hk⟩ := hT
    exact ⟨⟨l, (hS.read hv hk _).1⟩, .inl (hS.read hv hk _).2⟩
  | _ => exact ⟨⟨l, hS⟩, .inl rfl⟩

/-- What a thread knows after its own step. -/
theorem ThreadOK.move (hS : Spine s l) (hT : ThreadOK s p) (hm : Move false s p x s' p') :
    ThreadOK s' p' := by
  -- the successor that a load found is one, since the node loaded from is allocated
  have hload : ∀ {a b}, (∃ nd, s.heap a = some nd) → s.NextIs a (some b) → Succ s.heap a b := by
    rintro a b ⟨nd, hnd⟩ hnext
    exact ⟨nd, hnd, hnext nd hnd⟩
  cases hm with
  | push hfree =>
    refine ⟨⟨_, Function.update_self ..⟩, ?_, fun a ha => ?_⟩
    · rintro rfl
      obtain ⟨nd, hnd⟩ := hS.dummy
      rw [hfree] at hnd; simp at hnd
    · obtain ⟨nd, hnd⟩ := hS.closed _ _ (succ_alloc ha)
      rw [hfree] at hnd; simp at hnd
  | loadTail => exact ⟨hT, hS.tail⟩
  | loadNull _ => exact hT
  | loadNext hnext => exact ⟨hT.1, hT.2, hload (hS.allocated hT.2) hnext⟩
  | link ht hnull => exact ⟨(keeps_link ht hnull).linked hT.2, link_succ ht⟩
  | linkGone ht =>
    obtain ⟨nd, hnd⟩ := hS.allocated hT.2
    rw [ht] at hnd; simp at hnd
  | linkFail => exact hT.1
  | help => unfold ThreadOK; rw [Shared.casTail_heap]; exact hT.1
  | loadHead => exact .refl
  | loadSucc hnext =>
    refine hload ?_ hnext
    rcases Relation.ReflTransGen.cases_head hT with heq | ⟨z, ⟨nd, hnd, -⟩, -⟩
    · exact heq ▸ hS.allocated hS.head
    · exact ⟨nd, hnd⟩
  | advance hhead _ =>
    obtain ⟨-, v, -, hv, -, hdrop⟩ := hS.front (hhead ▸ hT)
    refine ⟨v, hv, ?_⟩
    have := congrArg (·[0]?) hdrop
    simpa [Shared.advance] using this
  | swing | empty _ | retry _ | read | delete | pop => trivial

/-- A thread holds a new node only if it held it before or has just created it. -/
theorem Move.unlinked (hm : Move false s p x s' p') (h : p'.unlinked = some n) :
    p.unlinked = some n ∨ s.heap n = none := by
  cases hm with
  | push hfree => cases h; exact .inr hfree
  | loadTail | loadNull _ | loadNext _ | linkFail | help => exact .inl h
  | _ => simp [Pc.unlinked] at h

/-- The invariant of the queue without reclamation. -/
structure Listed (c : State ι T) : Prop where
  spine : ∃ l, Spine c.sh l
  threads : ∀ i, ThreadOK c.sh (c.pc i)
  apart : ∀ i j n, (c.pc i).unlinked = some n → (c.pc j).unlinked = some n → i = j

theorem ThreadOK.unlinked (h : ThreadOK s q) (hn : q.unlinked = some n) : Unlinked s.heap n := by
  cases q with
  | pushTail m => cases hn; exact h
  | pushNext m t | pushLink m t => cases hn; exact h.1
  | pushHelp m t y => cases hn; exact h.1
  | _ => simp [Pc.unlinked] at hn

variable [Inhabited T] [DecidableEq ι] [Fintype ι] {c c' : State ι T}

theorem Listed.step {act : ι × Choice T} (h : Listed c)
    (hs : (prog ι false).lts.step c act = some c') : Listed c' := by
  obtain ⟨s, p, hm, rfl⟩ := conf_move hs
  obtain ⟨l, hS⟩ := h.spine
  have hT := h.threads act.1
  -- the new nodes of the other threads are not the stepping thread's
  have hother : ∀ i, i ≠ act.1 → ∀ n, (c.pc i).unlinked = some n → (c.pc act.1).unlinked ≠ some n :=
    fun i hi n hn hn' => hi (h.apart i act.1 n hn hn')
  refine ⟨(hS.move hT hm).1, fun i => ?_, fun i j n hi hj => ?_⟩
  · by_cases hia : i = act.1
    · subst hia
      simpa using hT.move hS hm
    · simp only [Function.update_of_ne hia]
      refine (h.threads i).grow (hm.grows hT) fun n hn => ?_
      exact ((h.threads i).unlinked hn).move hm hT (hother i hia n hn)
  · have hnew : ∀ k, k ≠ act.1 → (c.pc k).unlinked = some n → p.unlinked ≠ some n := by
      intro k hk hkn hpn
      rcases hm.unlinked hpn with hpn | hfree
      · exact hother k hk n hkn hpn
      · obtain ⟨v, hv⟩ := ((h.threads k).unlinked hkn).node
        rw [hfree] at hv; simp at hv
    by_cases hia : i = act.1 <;> by_cases hja : j = act.1
    · rw [hia, hja]
    · subst hia
      simp only [Function.update_self, Function.update_of_ne hja] at hi hj
      exact absurd hi (hnew j hja hj)
    · subst hja
      simp only [Function.update_self, Function.update_of_ne hia] at hi hj
      exact absurd hj (hnew i hia hi)
    · simp only [Function.update_of_ne hia, Function.update_of_ne hja] at hi hj
      exact h.apart i j n hi hj

theorem listed (h : (prog ι false).lts.Reach c) : Listed c := by
  refine h.invariant (I := fun c : State ι T => Listed c) ?_ fun c act c' _ ih _ hs => ih.step hs
  have hno : ∀ a b, ¬ Succ (construct (T := T)).heap a b := by
    rintro a b ⟨nd, hnd, hnext⟩
    simp only [construct, Function.update_apply] at hnd
    split at hnd
    · rw [← Option.some.inj hnd] at hnext; simp at hnext
    · simp at hnd
  have hspine : Spine (construct (T := T)) [] := by
    refine ⟨⟨_, rfl⟩, fun a b h => absurd h (hno a b), .refl, .refl, .last rfl rfl, .nil,
      Nat.le_refl _, fun k v h => ?_⟩
    simp [construct] at h
  refine ⟨⟨[], hspine⟩, fun _ => trivial, fun i j n hi _ => ?_⟩
  simp [Prog.lts, prog, Pc.unlinked] at hi

/-! ## The calls -/

/-- The value of the node that a `push` has not linked yet. -/
def Pc.heldIn (heap : Addr → Option (Node T)) (q : Pc) : Multiset T :=
  ((q.unlinked.bind heap).map fun nd => ({nd.value} : Multiset T)).getD 0

omit [Inhabited T] [DecidableEq ι] [Fintype ι] in
theorem heldIn_of_unlinked {heap' : Addr → Option (Node T)} (hq : p'.unlinked = p.unlinked)
    (hheap : ∀ n, p.unlinked = some n → heap' n = heap n) : p'.heldIn heap' = p.heldIn heap := by
  unfold Pc.heldIn
  rw [hq]
  cases hn : p.unlinked with
  | none => rfl
  | some n => rw [Option.bind_some, Option.bind_some, hheap n hn]

omit [Inhabited T] [DecidableEq ι] [Fintype ι] in
/-- The linked values and the one that is held grow by what `push` is called with. -/
theorem Move.held (hm : Move false s p x s' p') (hS : Spine s l) (hT : ThreadOK s p) :
    (s'.pushed : Multiset T) + p'.heldIn s'.heap = s.pushed + p.heldIn s.heap + x.newValue := by
  have hquiet : s'.pushed = s.pushed → p'.heldIn s'.heap = p.heldIn s.heap → x.newValue = [] →
      (s'.pushed : Multiset T) + p'.heldIn s'.heap = s.pushed + p.heldIn s.heap + x.newValue := by
    intro hpushed hheld hnone
    rw [hpushed, hheld, hnone]
    exact (add_zero _).symm
  cases hm with
  | push hfree => simp [Pc.heldIn, Pc.unlinked, Choice.newValue, Shared.alloc]
  | link ht hnull =>
    obtain ⟨v, hv⟩ := hT.1.node
    have hlinked : ((s.pushed ++ [v] : List T) : Multiset T) = s.pushed + {v} :=
      (Multiset.coe_add s.pushed [v]).symm
    simpa [Pc.heldIn, Pc.unlinked, Shared.link, ht, hv] using hlinked
  | linkGone ht =>
    obtain ⟨nd, hnd⟩ := hS.allocated hT.2
    rw [ht] at hnd; simp at hnd
  | help =>
    refine hquiet ?_ (heldIn_of_unlinked rfl fun n _ => by rw [Shared.casTail_heap]) rfl
    rw [Shared.casTail_eq]
  | swing =>
    refine hquiet ?_ rfl rfl
    rw [Shared.casTail_eq]
  | _ => exact hquiet rfl rfl rfl

omit [Inhabited T] [DecidableEq ι] [Fintype ι] in
/-- What another thread holds stays. -/
theorem heldIn_other (hm : Move false s p x s' p') (hT : ThreadOK s p) (hq : ThreadOK s q)
    (hne : ∀ n, q.unlinked = some n → p.unlinked ≠ some n) : q.heldIn s'.heap = q.heldIn s.heap := by
  refine heldIn_of_unlinked rfl fun n hn => ?_
  obtain ⟨v, hv⟩ := (hq.unlinked hn).node
  obtain ⟨nd', hnd', hvalue, -⟩ := (hm.grows hT).keeps n _ hv
  obtain ⟨w, hw⟩ := ((hq.unlinked hn).move hm hT (hne n hn)).node
  rw [hw] at hnd' ⊢
  obtain rfl := Option.some.inj hnd'
  obtain rfl : w = v := hvalue
  exact hv.symm

/-- **What was pushed** has been linked, or its `push` has not got that far. -/
theorem pushes_linked {tr : Trace ι T} (h : (prog ι false).lts.Traced (fun _ _ => True) tr c) :
    (pushCalls tr : Multiset T) = c.sh.pushed + ∑ i, (c.pc i).heldIn c.sh.heap := by
  induction h with
  | init =>
    have hnone : ∀ i : ι, (((prog ι false).lts.init : State ι T).pc i).heldIn
        ((prog ι false).lts.init : State ι T).sh.heap = 0 := fun _ => rfl
    rw [Finset.sum_congr rfl fun i _ => hnone i, Finset.sum_const_zero]
    rfl
  | @step tr c c' act htr _ hs ih =>
    obtain ⟨s, p, hm, rfl⟩ := conf_move hs
    have hL := listed htr.reach
    obtain ⟨l, hS⟩ := hL.spine
    have hown := hm.held hS (hL.threads act.1)
    have hothers : ∑ i ∈ Finset.univ.erase act.1, (Function.update c.pc act.1 p i).heldIn s.heap =
        ∑ i ∈ Finset.univ.erase act.1, (c.pc i).heldIn c.sh.heap := by
      refine Finset.sum_congr rfl fun i hi => ?_
      have hne := Finset.ne_of_mem_erase hi
      rw [Function.update_of_ne hne]
      exact heldIn_other hm (hL.threads act.1) (hL.threads i) fun n hn hn' =>
        hne (hL.apart i act.1 n hn hn')
    rw [pushCalls, recorded_cons, ← Multiset.coe_add, ih, ← Finset.add_sum_erase _ _ (Finset.mem_univ act.1),
      ← Finset.add_sum_erase _ _ (Finset.mem_univ act.1)]
    dsimp only
    rw [hothers, Function.update_self, ← add_assoc, ← add_assoc, hown]
    exact add_right_comm _ _ _

/-! ## The refinement -/

/-- **The queue refines a FIFO queue.** In every reachable state some run of the abstract
queue has accepted the values pushed, in the order their nodes were linked, has delivered
what the successful `pop`s return, in the order of their CASes on `head`, and contains the
values of the nodes behind `head`; so what was delivered, followed by the values behind
`head`, is what was pushed. And a step at which a `pop` finds a null `next`, to return false, is
at a state in which nothing is behind `head` and every value linked has been popped. The slots of
the results that are not filled are those of the `pop`s that have still to read, and what `push` was
called with has been linked, or its `push` has not got that far. -/
theorem refines_fifo (h : (prog ι false).lts.Reach c) :
    (∃ q : Fifo T, ∃ l, Fifo.Run (fun _ => True) Fifo.empty q ∧ q.delivered ++ q.items = q.accepted ∧
      q.accepted = c.sh.pushed ∧ After c.sh.heap c.sh.head l ∧
      List.Forall₂ (Holds c.sh.heap) l q.items ∧
      List.Forall₂ (fun r v => ∀ w, r = some w → w = v) c.sh.results q.delivered) ∧
    (∀ t x c' o, (prog ι false).lts.step c (t, x) = some c' → c.pc t = .popNext o →
      c'.pc t = .idle → After c.sh.heap c.sh.head [] ∧ c.sh.results.length = c.sh.pushed.length) ∧
    (∀ slot : ℕ, c.sh.results[slot]? = some none ↔ ∃ t o y, c.pc t = .popValue o y slot) ∧
    ∀ tr, (prog ι false).lts.Traced (fun _ _ => True) tr c →
      (pushCalls tr : Multiset T) = c.sh.pushed + ∑ i, (c.pc i).heldIn c.sh.heap := by
  obtain ⟨l, hS⟩ := (listed h).spine
  have hrun : Fifo.Run (fun _ => True) Fifo.empty (fifo c.sh) := by
    refine h.simulate (fun c => fifo c.sh) fun c act c' hc _ hs => ?_
    obtain ⟨s, p, hm, rfl⟩ := conf_move hs
    obtain ⟨l, hS⟩ := (listed hc).spine
    exact (hS.move ((listed hc).threads act.1) hm).2
  have hresults : List.Forall₂ (fun r v => ∀ w, r = some w → w = v) c.sh.results
      (fifo c.sh).delivered := by
    refine List.forall₂_iff_get.2 ⟨?_, fun k hk hk' w hw => ?_⟩
    · rw [fifo, List.length_take]
      exact (Nat.min_eq_left hS.popped).symm
    · have hslot : c.sh.results[k]? = some (some w) := by
        rw [List.getElem?_eq_getElem hk]
        exact congrArg some hw
      have hpushed : c.sh.pushed[k]? = some w := hS.slots k w hslot
      simp only [fifo, List.get_eq_getElem, List.getElem_take]
      exact ((List.getElem_eq_iff _).2 hpushed).symm
  refine ⟨⟨fifo c.sh, l, hrun, hrun.conserved, rfl, hS.chain, hS.values, hresults⟩,
    fun t x c' o hs ho hidle => ?_, fun slot => (slots_ok h).unread, fun tr htr => pushes_linked htr⟩
  obtain ⟨s, p, hm, rfl⟩ := conf_move hs
  have hT := (listed h).threads t
  rw [ho] at hm hT
  simp only [Function.update_self] at hidle
  cases hm with
  | empty hnext =>
    -- nothing follows the node loaded from, so it is still `head`
    have hlast : ∀ b, ¬ Succ c.sh.heap o b := by
      rintro b ⟨nd, hnd, hb⟩
      rw [hnext nd hnd] at hb; simp at hb
    obtain rfl : o = c.sh.head := Linked.last hT hlast
    have hnil := hS.after_nil hlast
    subst hnil
    have hdrop := List.forall₂_nil_left_iff.1 hS.values
    have hall : c.sh.pushed.length ≤ c.sh.results.length := List.drop_eq_nil_iff.1 hdrop
    exact ⟨hS.chain, Nat.le_antisymm hS.popped hall⟩
  | loadSucc _ => simp at hidle

/-- Two values pushed and one popped. -/
theorem refines_fifo_two : ∃ (tr : Trace (Fin 2) ℕ) (c : State (Fin 2) ℕ),
    (prog (Fin 2) false).lts.Traced (fun _ _ => True) tr c ∧ c.sh.results = [some 7] ∧
      (pushCalls tr : Multiset ℕ) = {7, 8} + ∑ i, (c.pc i).heldIn c.sh.heap ∧
      ∃ q : Fifo ℕ, Fifo.Run (fun _ => True) Fifo.empty q ∧ q.accepted = c.sh.pushed ∧
        q.accepted = [7, 8] := by
  obtain ⟨tr, c, htr, hres⟩ := Lts.exists_traced (prog (Fin 2) false).lts (fun _ _ => True)
    (pushAlone 0 7 1 ++ pushAlone 0 8 2 ++ popAlone 1)
    (fun _ c => c.sh.results == [some 7] && c.sh.pushed == [7, 8]) (by decide)
  rw [Bool.and_eq_true, beq_iff_eq, beq_iff_eq] at hres
  obtain ⟨⟨q, -, hrun, -, hacc, -⟩, -, -, hcalls⟩ := refines_fifo htr.reach
  have hpushes := hcalls tr htr
  rw [hres.2] at hpushes
  exact ⟨tr, c, htr, hres.1, hpushes, q, hrun, hacc, hacc.trans hres.2⟩

end BackendTasks.LockFreeQueue
