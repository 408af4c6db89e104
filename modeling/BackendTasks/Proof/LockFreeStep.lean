import BackendTasks.Sched.Trace
import BackendTasks.Spec.LockFreeQueue
import Mathlib.Data.List.Basic

/-!
# What a step of the lock-free queue can do

`Move` lists the atomic steps of `push` and `pop` with what each one knows and
changes (`step_move`); `conf_move` places such a step among the other threads. The
rest of the file says how the accesses to memory act on the nodes' `next` fields, and which
slots of `results` are not filled (`slots_ok`).
-/

namespace BackendTasks.LockFreeQueue

open Sched

variable {ι T : Type*} {reclaim : Bool} {s s' : Shared T} {p p' : Pc} {x : Choice T} {a b n : Addr}

/-- The node at `a` has `next` equal to `o`, if one is allocated there. -/
def Shared.NextIs (s : Shared T) (a : Addr) (o : Option Addr) : Prop :=
  ∀ nd, s.heap a = some nd → nd.next = o

theorem Shared.nextIs_loadNext (s : Shared T) (a : Addr) (l : Luck T) :
    s.NextIs a (s.loadNext a l) := by
  intro nd h
  simp [loadNext, h]

/-- `b` is the `next` of the node at `a`. -/
def Succ (heap : Addr → Option (Node T)) (a b : Addr) : Prop :=
  ∃ nd, heap a = some nd ∧ nd.next = some b

/-- Following `next` from `a` leads to `b`. -/
abbrev Linked (heap : Addr → Option (Node T)) : Addr → Addr → Prop :=
  Relation.ReflTransGen (Succ heap)

/-- The nodes behind `a`, following `next` to null, are `l`. -/
inductive After (heap : Addr → Option (Node T)) : Addr → List Addr → Prop
  | last {a nd} : heap a = some nd → nd.next = none → After heap a []
  | cons {a b l} : Succ heap a b → After heap b l → After heap a (b :: l)

/-- The atomic steps of a thread. -/
inductive Move (reclaim : Bool) (s : Shared T) : Pc → Choice T → Shared T → Pc → Prop
  | push {v n} : s.heap n = none → Move reclaim s .idle (.push v n) (s.alloc n v) (.pushTail n)
  | pop : Move reclaim s .idle .pop s .popHead
  | loadTail {n l} : Move reclaim s (.pushTail n) (.run l) s (.pushNext n s.tail)
  | loadNull {n t l} : s.NextIs t none → Move reclaim s (.pushNext n t) (.run l) s (.pushLink n t)
  | loadNext {n t x l} : s.NextIs t (some x) →
      Move reclaim s (.pushNext n t) (.run l) s (.pushHelp n t x)
  | link {n t l nd} : s.heap t = some nd → nd.next = none →
      Move reclaim s (.pushLink n t) (.run l) (s.link t n) (.pushSwing n t)
  | linkGone {n t l} : s.heap t = none → Move reclaim s (.pushLink n t) (.run l) s (.pushSwing n t)
  | linkFail {n t l} : Move reclaim s (.pushLink n t) (.run l) s (.pushTail n)
  | help {n t x l} : Move reclaim s (.pushHelp n t x) (.run l) (s.casTail t x l) (.pushTail n)
  | swing {n t l} : Move reclaim s (.pushSwing n t) (.run l) (s.casTail t n l) .idle
  | loadHead {l} : Move reclaim s .popHead (.run l) s (.popNext s.head)
  | empty {h l} : s.NextIs h none → Move reclaim s (.popNext h) (.run l) s .idle
  | loadSucc {h x l} : s.NextIs h (some x) →
      Move reclaim s (.popNext h) (.run l) s (.popSwing h x)
  | advance {h x l} : s.head = h → l.spurious = false →
      Move reclaim s (.popSwing h x) (.run l) (s.advance x) (.popValue h x s.results.length)
  | retry {h x l} : ¬ (s.head = h ∧ l.spurious = false) →
      Move reclaim s (.popSwing h x) (.run l) s .popHead
  | read {h x k l} : Move reclaim s (.popValue h x k) (.run l) (s.read x k l) (.popDelete h)
  | delete {h l} : Move reclaim s (.popDelete h) (.run l) (s.delete reclaim h) .idle

theorem step_move (h : step reclaim s p x = some (s', p')) : Move reclaim s p x s' p' := by
  cases p <;> cases x <;> simp only [step, reduceCtorEq] at h
  case idle.push v n =>
    split at h
    · rename_i hfree
      cases h; exact .push (by simpa using hfree)
    · simp at h
  case idle.pop => cases h; exact .pop
  case pushTail.run n l => cases h; exact .loadTail
  case pushNext.run n t l =>
    have hload := s.nextIs_loadNext t l
    split at h
    · rename_i hl; cases h; exact .loadNull (hl ▸ hload)
    · rename_i y hl; cases h; exact .loadNext (hl ▸ hload)
  case pushLink.run n t l =>
    split at h
    · rename_i hlink; cases h
      cases ht : s.heap t with
      | none => simp only [Shared.link, ht]; exact .linkGone ht
      | some nd =>
        have hnull : l.spurious = false ∧ nd.next = none := by
          simpa [Shared.linkable, ht] using hlink
        exact .link ht hnull.2
    · cases h; exact .linkFail
  case pushHelp.run n t y l => cases h; exact .help
  case pushSwing.run n t l => cases h; exact .swing
  case popHead.run l => cases h; exact .loadHead
  case popNext.run o l =>
    have hload := s.nextIs_loadNext o l
    split at h
    · rename_i hl; cases h; exact .empty (hl ▸ hload)
    · rename_i y hl; cases h; exact .loadSucc (hl ▸ hload)
  case popSwing.run o y l =>
    split at h
    · rename_i hcas; cases h; exact .advance hcas.1 hcas.2
    · rename_i hcas; cases h; exact .retry hcas
  case popValue.run o y k l => cases h; exact .read
  case popDelete.run o l => cases h; exact .delete

/-! ## The calls -/

/-- The value of the node that a step creates. -/
def Choice.newValue : Choice T → List T
  | .push v _ => [v]
  | _ => []

@[simp] theorem Choice.newValue_pop : (Choice.pop : Choice T).newValue = [] := rfl

@[simp] theorem Choice.newValue_run (l : Luck T) : (Choice.run l).newValue = [] := rfl

/-- The steps of a run. -/
abbrev Trace (ι T : Type*) := List (Edge (State ι T) (ι × Choice T))

/-- The values that `push` was called with, in order. -/
abbrev pushCalls (tr : Trace ι T) : List T := recorded (fun e => e.label.2.newValue) tr

/-! ## The accesses to memory -/

namespace Shared

@[simp] theorem alloc_heap (s : Shared T) (a : Addr) (v : T) :
    (s.alloc a v).heap = Function.update s.heap a (some ⟨v, none⟩) := rfl

/-- A CAS on `tail` changes nothing else. -/
theorem casTail_eq (s : Shared T) (a b : Addr) (l : Luck T) :
    s.casTail a b l = { s with tail := (s.casTail a b l).tail } := by
  unfold casTail
  split <;> rfl

@[simp] theorem casTail_heap (s : Shared T) (a b : Addr) (l : Luck T) :
    (s.casTail a b l).heap = s.heap := by rw [casTail_eq]

@[simp] theorem casTail_head (s : Shared T) (a b : Addr) (l : Luck T) :
    (s.casTail a b l).head = s.head := by rw [casTail_eq]

/-- A CAS on `tail` leaves it or finds it at the expected node. -/
theorem casTail_tail (s : Shared T) (a b : Addr) (l : Luck T) :
    (s.casTail a b l).tail = s.tail ∨ (s.tail = a ∧ (s.casTail a b l).tail = b) := by
  unfold casTail
  split
  · rename_i h; exact .inr ⟨h.1, rfl⟩
  · exact .inl rfl

theorem link_heap {nd : Node T} (h : s.heap a = some nd) :
    (s.link a n).heap = Function.update s.heap a (some { nd with next := some n }) := by
  simp [link, h]

@[simp] theorem link_head (s : Shared T) (a n : Addr) : (s.link a n).head = s.head := by
  unfold link; split <;> rfl

@[simp] theorem link_tail (s : Shared T) (a n : Addr) : (s.link a n).tail = s.tail := by
  unfold link; split <;> rfl

@[simp] theorem delete_head (s : Shared T) (a : Addr) : (s.delete reclaim a).head = s.head := by
  unfold delete; split <;> rfl

@[simp] theorem delete_tail (s : Shared T) (a : Addr) : (s.delete reclaim a).tail = s.tail := by
  unfold delete; split <;> rfl

theorem delete_heap (s : Shared T) (a : Addr) :
    (s.delete true a).heap = Function.update s.heap a none := rfl

end Shared

/-! ## A step among the threads -/

variable [Inhabited T] [DecidableEq ι] [Fintype ι] {c c' : State ι T} {act : ι × Choice T}

/-- A step of the threads together is a move of one of them. -/
theorem conf_move (h : (prog ι reclaim).lts.step c act = some c') :
    ∃ s p, Move reclaim c.sh (c.pc act.1) act.2 s p ∧
      c' = ⟨c.owner, s, Function.update c.pc act.1 p⟩ := by
  obtain ⟨s, p, hs, rfl⟩ := Prog.plain_inv (fun _ _ _ _ => rfl) h
  exact ⟨s, p, step_move hs, rfl⟩

/-! ## The slots -/

/-- The slots that are not filled are those of the `pop`s that have still to read, each its own. -/
structure SlotsOK (c : State ι T) : Prop where
  unread : ∀ {slot : ℕ}, c.sh.results[slot]? = some none ↔ ∃ t o y, c.pc t = .popValue o y slot
  apart : ∀ {t u o o' y y' slot}, c.pc t = .popValue o y slot → c.pc u = .popValue o' y' slot → t = u

namespace SlotsOK

variable {t : ι} {s : Shared T} {p : Pc} {o y : Addr}

omit [Inhabited T] [Fintype ι] in
/-- A step of a thread that neither begins nor ends with a value to read. -/
theorem quiet (h : SlotsOK c) (hresults : s.results = c.sh.results)
    (hbefore : ∀ o y slot, c.pc t ≠ .popValue o y slot) (hafter : ∀ o y slot, p ≠ .popValue o y slot) :
    SlotsOK ⟨c.owner, s, Function.update c.pc t p⟩ := by
  have hsame : ∀ {u o y slot}, Function.update c.pc t p u = .popValue o y slot ↔
      c.pc u = .popValue o y slot := by
    intro u o y slot
    by_cases hu : u = t
    · subst hu
      rw [Function.update_self]
      exact iff_of_false (hafter o y slot) (hbefore o y slot)
    · rw [Function.update_of_ne hu]
  constructor
  · intro slot
    simp only [hresults, hsame]
    exact h.unread
  · intro u u' o o' y y' slot hu hu'
    exact h.apart (hsame.1 hu) (hsame.1 hu')

omit [Inhabited T] [DecidableEq ι] [Fintype ι] in
theorem lt_length (h : SlotsOK c) {slot : ℕ} (ht : c.pc t = .popValue o y slot) :
    slot < c.sh.results.length :=
  (List.getElem?_eq_some_iff.1 (h.unread.2 ⟨t, o, y, ht⟩)).1

omit [Inhabited T] [Fintype ι] in
/-- The CAS on `head` has the first slot behind those there are. -/
theorem advance (h : SlotsOK c) (ht : ∀ o y slot, c.pc t ≠ .popValue o y slot) :
    SlotsOK ⟨c.owner, c.sh.advance y,
      Function.update c.pc t (.popValue o y c.sh.results.length)⟩ := by
  have hsame : ∀ {u o' y' slot},
      Function.update c.pc t (.popValue o y c.sh.results.length) u = .popValue o' y' slot ↔
        c.pc u = .popValue o' y' slot ∨ u = t ∧ o' = o ∧ y' = y ∧ slot = c.sh.results.length := by
    intro u o' y' slot
    by_cases hu : u = t
    · subst hu
      rw [Function.update_self]
      simp only [Pc.popValue.injEq, ht o' y' slot, false_or, true_and]
      exact ⟨fun ⟨ho, hy, hslot⟩ => ⟨ho.symm, hy.symm, hslot.symm⟩,
        fun ⟨ho, hy, hslot⟩ => ⟨ho.symm, hy.symm, hslot.symm⟩⟩
    · simp only [Function.update_of_ne hu, hu, false_and, or_false]
  constructor
  · intro slot
    simp only [Shared.advance, hsame]
    rcases Nat.lt_trichotomy slot c.sh.results.length with hlt | rfl | hgt
    · rw [List.getElem?_append_left hlt, h.unread]
      simp [Nat.ne_of_lt hlt]
    · refine iff_of_true (by simp) ⟨t, o, y, .inr ⟨rfl, rfl, rfl, rfl⟩⟩
    · rw [List.getElem?_eq_none (by rw [List.length_append, List.length_singleton]; omega)]
      refine iff_of_false (by simp) ?_
      rintro ⟨u, o', y', hu | ⟨-, -, -, hend⟩⟩
      · exact absurd (h.lt_length hu) (by omega)
      · omega
  · intro u u' o₁ o₂ y₁ y₂ slot hu hu'
    rcases hsame.1 hu with hold | ⟨rfl, -, -, rfl⟩ <;> rcases hsame.1 hu' with hold' | ⟨rfl, -, -, hend⟩
    · exact h.apart hold hold'
    · exact absurd (h.lt_length hold) (by omega)
    · exact absurd (h.lt_length hold') (lt_irrefl _)
    · rfl

omit [Inhabited T] [Fintype ι] in
/-- The read fills the slot of its `pop`. -/
theorem read (h : SlotsOK c) {k : ℕ} (ht : c.pc t = .popValue o y k) (l : Luck T) :
    SlotsOK ⟨c.owner, c.sh.read y k l, Function.update c.pc t (.popDelete o)⟩ := by
  have hsame : ∀ {u o' y' slot}, Function.update c.pc t (.popDelete o) u = .popValue o' y' slot ↔
      c.pc u = .popValue o' y' slot ∧ u ≠ t := by
    intro u o' y' slot
    by_cases hu : u = t
    · subst hu
      simp
    · simp [hu]
  constructor
  · intro slot
    simp only [Shared.read, hsame]
    by_cases hk : k = slot
    · subst hk
      refine iff_of_false ?_ ?_
      · rw [List.getElem?_set_self']
        intro hnone
        obtain ⟨_, -, hsome⟩ := Option.map_eq_some_iff.1 hnone
        simp at hsome
      · rintro ⟨u, o', y', hu, hne⟩
        exact hne (h.apart hu ht)
    · rw [List.getElem?_set_ne hk, h.unread]
      refine exists_congr fun u => exists_congr fun o' => exists_congr fun y' => ?_
      refine ⟨fun hu => ⟨hu, ?_⟩, And.left⟩
      rintro rfl
      rw [ht] at hu
      cases hu
      exact hk rfl
  · intro u u' o₁ o₂ y₁ y₂ slot hu hu'
    exact h.apart (hsame.1 hu).1 (hsame.1 hu').1

end SlotsOK

/-- **The slots of every run.** -/
theorem slots_ok {ok : State ι T → ι × Choice T → Prop} (h : (prog ι reclaim).lts.ReachIf ok c) :
    SlotsOK c := by
  refine h.invariant (I := fun c : State ι T => SlotsOK c) ?_ fun c act c' _ ih _ hs => ?_
  · constructor
    · intro slot
      simp [Prog.lts, prog, construct]
    · intro t u o o' y y' slot ht
      simp [Prog.lts, prog] at ht
  obtain ⟨s, p, hm, rfl⟩ := conf_move hs
  obtain ⟨t, x⟩ := act
  dsimp only at hm ⊢
  generalize hp : c.pc t = p₀ at hm
  cases hm with
  | advance hhead hspur => exact ih.advance (by simp [hp])
  | read => exact ih.read hp _
  | help | swing =>
    refine ih.quiet ?_ (by simp [hp]) (by simp)
    rw [Shared.casTail_eq]
  | link ht hnull => exact ih.quiet (by simp only [Shared.link, ht]) (by simp [hp]) (by simp)
  | delete =>
    refine ih.quiet ?_ (by simp [hp]) (by simp)
    unfold Shared.delete
    split <;> rfl
  | _ => exact ih.quiet rfl (by simp [hp]) (by simp)

end BackendTasks.LockFreeQueue
