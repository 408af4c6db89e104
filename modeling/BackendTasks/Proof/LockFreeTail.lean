import BackendTasks.Proof.LockFreeList
import BackendTasks.Proof.LockFreeReclaim

/-!
# `head` and `tail` of the lock-free queue

`push` links its node and swings `tail` in two steps, and `pop` moves `head` and
deletes without looking at `tail`.

* `head_passes_tail`: a `pop` between the two steps takes off and deletes the node
  that `tail` still points to.
* `tail_ok`: along runs in which no `pop` takes off the node `tail` points to, and no
  `new Node` reuses an address that a pending CAS compares with, `tail` always points
  to a node that is allocated and on the list.
-/

namespace BackendTasks.LockFreeQueue

open Sched

variable {ι T : Type*} {c c' : State ι T} {t : ι} {p : Pc} {s : Shared T}
  {x : Choice T} {a b : Addr}

/-- `tail` points to a node that is allocated and reached from `head`. -/
def TailOK (c : State ι T) : Prop :=
  (c.sh.heap c.sh.tail).isSome = true ∧ Linked c.sh.heap c.sh.head c.sh.tail

/-- What is reached from `head` is live. -/
theorem linked_live (hI : (nodes c).OK) (h : Linked c.sh.heap c.sh.head b) :
    ∃ nd, (nodes c).Live b nd := by
  induction h with
  | refl => exact hI.head
  | tail _ hs ih =>
    obtain ⟨nd, hl⟩ := ih
    obtain ⟨nd', hnd', hnext⟩ := hs
    have : nd' = nd := Option.some.inj (hnd'.symm.trans hl.1)
    exact (hI.succ hl (this ▸ hnext)).1

/-- The node that a step takes off the list. -/
def takes (c : State ι T) (act : ι × Choice T) : Option Addr :=
  match c.pc act.1, act.2 with
  | .popSwing h _, .run l => if c.sh.head = h ∧ l.spurious = false then some h else none
  | _, _ => none

/-- The step does not take off the node that `tail` points to. -/
def TailAhead (c : State ι T) (act : ι × Choice T) : Prop :=
  ∀ h ∈ takes c act, c.sh.tail ≠ h

instance (c : State ι T) (act : ι × Choice T) : Decidable (TailAhead c act) :=
  inferInstanceAs (Decidable (∀ h ∈ takes c act, c.sh.tail ≠ h))

/-- A step under which `tail` cannot go wrong. -/
def Careful [Fintype ι] (c : State ι T) (act : ι × Choice T) : Prop :=
  NoReuse Pc.cas c act ∧ TailAhead c act

instance [Fintype ι] (c : State ι T) (act : ι × Choice T) : Decidable (Careful c act) :=
  inferInstanceAs (Decidable (NoReuse Pc.cas c act ∧ TailAhead c act))

/-! ## A step keeps `tail` on the list -/

/-- A node that a `pop` has taken off is not reached from `head`. -/
theorem linked_delete (hI : (nodes c).OK) {o : Addr} (ho : (c.pc t).removed = some o)
    (h : Linked c.sh.heap c.sh.head b) : Linked (Function.update c.sh.heap o none) c.sh.head b := by
  induction h with
  | refl => exact .refl
  | tail hpre hs ih =>
    rename_i d e
    obtain ⟨nd, hl⟩ := linked_live hI hpre
    have hne : d ≠ o := by rintro rfl; exact hl.2 t ho
    refine ih.tail ?_
    obtain ⟨nd', hnd', hnext⟩ := hs
    exact ⟨nd', by rw [Function.update_of_ne hne]; exact hnd', hnext⟩

/-- **One step keeps `tail` on the list**, if it does not take off the node `tail`
points to and pending CASes install current successors. -/
theorem linked_move (hI : (nodes c).OK)
    (hcas : ∀ a b, (c.pc t).cas = some (a, b) → c.sh.NextIs a (some b))
    (hahead : TailAhead c (t, x)) (hm : Move true c.sh (c.pc t) x s p)
    (h : Linked c.sh.heap c.sh.head c.sh.tail) : Linked s.heap s.head s.tail := by
  obtain ⟨ndt, htail, -⟩ := linked_live hI h
  -- a CAS on `tail` moves it to the successor of the node it is at
  have hswing : ∀ a b l, c.sh.NextIs a (some b) →
      Linked c.sh.heap c.sh.head (c.sh.casTail a b l).tail := by
    intro a b l hnext
    rcases c.sh.casTail_tail a b l with heq | ⟨hta, hb⟩
    · rw [heq]; exact h
    · rw [hb]; exact h.tail ⟨ndt, htail, hnext ndt (hta ▸ htail)⟩
  generalize hp : c.pc t = p₀ at hm hcas
  cases hm with
  | push hfree => exact (keeps_alloc hfree _).linked h
  | link ht hnull =>
    rw [Shared.link_head, Shared.link_tail]
    exact (keeps_link ht hnull).linked h
  | help =>
    rename_i n q y l
    rw [Shared.casTail_heap, Shared.casTail_head]
    exact hswing q y l (hcas q y rfl)
  | swing =>
    rename_i n q l
    rw [Shared.casTail_heap, Shared.casTail_head]
    exact hswing q n l (hcas q n rfl)
  | advance hhead hspur =>
    rename_i o y l
    have hne : c.sh.tail ≠ o := hahead o (by simp [takes, hp, hhead, hspur])
    rcases Relation.ReflTransGen.cases_head h with heq | ⟨z, ⟨nd, hnd, hz⟩, hrest⟩
    · exact absurd (heq.symm.trans hhead) hne
    · have hy : nd.next = some y := hcas o y rfl nd (hhead ▸ hnd)
      have : z = y := Option.some.inj (hz.symm.trans hy)
      exact this ▸ hrest
  | delete =>
    rename_i o l
    rw [Shared.delete_heap, Shared.delete_head, Shared.delete_tail]
    exact linked_delete hI (t := t) (by rw [hp]; rfl) h
  | _ => exact h

/-! ## Every run -/

variable [Inhabited T] [DecidableEq ι] [Fintype ι]

theorem careful_nodes (h : (prog ι true).lts.ReachIf Careful c) : (nodes c).OK :=
  nodes_ok (h.mono fun _ _ hok => hok.1.headCas)

theorem careful_linked (h : (prog ι true).lts.ReachIf Careful c) :
    Linked c.sh.heap c.sh.head c.sh.tail := by
  refine h.invariant (I := fun c : State ι T => Linked c.sh.heap c.sh.head c.sh.tail) .refl ?_
  intro c act c' hc ih hok hs
  obtain ⟨s, p, hm, rfl⟩ := conf_move hs
  exact linked_move (careful_nodes hc)
    (cas_nextIs (fun _ _ => id) (hc.mono fun _ _ hok => hok.1) act.1) hok.2 hm ih

/-- Once the node `tail` points to is taken off, `tail` is not on the list. -/
theorem takes_tail (h : (prog ι true).lts.ReachIf Careful c) {act : ι × Choice T}
    (hre : NoReuse Pc.cas c act) (hs : (prog ι true).lts.step c act = some c')
    (htake : takes c act = some c.sh.tail) : ¬ TailOK c' := by
  rintro ⟨-, hlinked⟩
  have hI : (nodes c').OK :=
    nodes_ok (.step (h.mono fun _ _ hok => hok.1.headCas) hre.headCas hs)
  obtain ⟨nd, -, hkept⟩ := linked_live hI hlinked
  obtain ⟨s, p, hm, rfl⟩ := conf_move hs
  obtain ⟨t, x⟩ := act
  generalize hp : c.pc t = p₀ at hm
  cases hm with
  | advance hhead hspur =>
    simp only [takes, hp, hhead, hspur, and_self, if_true, Option.some.injEq] at htake
    exact hkept t (by simp [nodes, Pc.removed, htake, Shared.advance])
  | _ => simp_all [takes]

/-- **When `tail` stays on the list.** Along runs in which no `pop` takes off the node `tail`
points to and no `new Node` reuses an address that a pending CAS compares with, `tail`
always points to an allocated node on the list; and a step that breaks the first condition
breaks the property. -/
theorem tail_ok (h : (prog ι true).lts.ReachIf Careful c) :
    TailOK c ∧ ∀ act c', NoReuse Pc.cas c act → (prog ι true).lts.step c act = some c' →
      (TailOK c' ↔ TailAhead c act) := by
  have hok : ∀ {c : State ι T}, (prog ι true).lts.ReachIf Careful c → TailOK c := by
    intro c hc
    have hlinked := careful_linked hc
    obtain ⟨nd, hl⟩ := linked_live (careful_nodes hc) hlinked
    have hnd : c.sh.heap c.sh.tail = some nd := hl.1
    exact ⟨by rw [hnd]; rfl, hlinked⟩
  refine ⟨hok h, fun act c' hre hs => ⟨fun htail o ho hto => ?_, fun hahead => ?_⟩⟩
  · exact takes_tail h hre hs (hto ▸ ho) htail
  · exact hok (.step h ⟨hre, hahead⟩ hs)

/-- A push and a pop, one after the other, keep `tail` on the list. -/
theorem tail_ok_push_pop : ∃ c : State (Fin 1) ℕ, (prog (Fin 1) true).lts.ReachIf Careful c ∧
    c.sh.results = [some 7] ∧ TailOK c := by
  obtain ⟨c, hc, hres⟩ := Lts.exists_reachIf (prog (Fin 1) true).lts Careful
    (pushAlone 0 7 1 ++ popAlone 0) (fun c => c.sh.results == [some 7]) (by decide)
  exact ⟨c, hc, by simpa using hres, (tail_ok hc).1⟩

/-- **`head` passes `tail`.** Thread 0 has linked its node and not swung `tail` yet; thread 1
pops the node, deleting the one that `tail` points to. -/
theorem head_passes_tail : ∃ c : State (Fin 2) ℕ, (prog (Fin 2) true).lts.Reach c ∧ ¬ TailOK c := by
  obtain ⟨c, hc, hgone⟩ := Lts.exists_reachIf (prog (Fin 2) true).lts (fun _ _ => True)
    ((0, .push 7 1) :: go 0 3 ++ popAlone 1) (fun c => (c.sh.heap c.sh.tail).isNone) (by decide)
  refine ⟨c, hc, fun hok => ?_⟩
  have := hok.1
  simp only [Option.isNone_iff_eq_none] at hgone
  rw [hgone] at this; simp at this

end BackendTasks.LockFreeQueue
