import BackendTasks.Proof.LockFreeAlone
import BackendTasks.Sched.Potential
import BackendTasks.Sched.Trace
import Mathlib.Tactic.Ring

/-!
# How much the threads of the lock-free queue can hold each other up

A round of a loop fails only because another thread has got on since the round took its
snapshot: it has linked a node, or moved `tail` or `head`. A thread that gets on spoils at most one
round of each other thread, so the failed rounds can be charged to the progress.

* `failed_rounds`: the failed rounds of all threads together, in every run.
* `steps_bounded`: so all calls together take a bounded number of steps, whatever the schedule.
-/

namespace BackendTasks.LockFreeQueue

open Sched

variable {ι T : Type*} {reclaim : Bool} {s s' : Shared T} {p p' q : Pc} {x : Choice T} {lk : Luck T}
  {a n t y : Addr} {l : List Addr}

/-- A `compare_exchange_weak` that the step makes does not fail spuriously. -/
def Choice.Strong : Choice T → Prop
  | .run l => l.spurious = false
  | _ => True

instance : DecidablePred (Choice.Strong (T := T))
  | .run l => decEq l.spurious false
  | .push _ _ => .isTrue trivial
  | .pop => .isTrue trivial

/-- A snapshot that the thread holds is out of date. -/
abbrev Pc.stale (s : Shared T) (p : Pc) : ℕ := p.more s 0

/-- From one control point to the other a node is linked. -/
def links : Pc → Pc → Bool
  | .pushLink _ _, .pushSwing _ _ => true
  | _, _ => false

/-- `head` is moved. -/
def movesHead : Pc → Pc → Bool
  | .popSwing _ _, .popValue _ _ _ => true
  | _, _ => false

/-- `tail` is moved, if the CAS does not fail spuriously. -/
def movesTail (s : Shared T) : Pc → Bool
  | .pushHelp _ t _ | .pushSwing _ t => s.tail = t
  | _ => false

/-- The round has failed: the thread is back at the top of its loop. -/
def fails : Pc → Pc → Bool
  | .idle, _ => false
  | _, p' => p'.top

/-- A call begins. -/
def begins : Pc → Pc → Bool
  | .idle, .pushTail _ | .idle, .popHead => true
  | _, _ => false

/-- In the loop of `push` or `pop`. -/
def Pc.looping : Pc → Bool
  | .pushTail _ | .pushNext _ _ | .pushLink _ _ | .pushHelp _ _ _ => true
  | .popHead | .popNext _ | .popSwing _ _ => true
  | _ => false

/-- The thread gets on. -/
def progress (s : Shared T) (p p' : Pc) : ℕ :=
  (links p p').toNat + (movesHead p p').toNat + (movesTail s p).toNat

theorem Pc.stale_le_one (s : Shared T) (p : Pc) : p.stale s ≤ 1 := by
  unfold Pc.stale Pc.more
  split
  · exact Nat.zero_le 1
  all_goals first | exact Nat.zero_le 1 | (split <;> omega)

/-- What makes no snapshot stale. -/
theorem stale_mono (hhead : s'.head = s.head) (htail : s'.tail = s.tail)
    (hend : ∀ a, s.AtEnd a = true → s'.AtEnd a = true) (q : Pc) : q.stale s' ≤ q.stale s := by
  cases q with
  | pushLink n t =>
    simp only [Pc.stale, Pc.more]
    by_cases h : s.AtEnd t = true
    · rw [if_pos h, if_pos (hend t h)]
    · rw [if_neg h]
      split <;> omega
  | _ => simp only [Pc.stale, Pc.more, hhead, htail, Nat.le_refl]

theorem atEnd_alloc {n : Addr} (hfree : s.heap n = none) (v : T) (h : s.AtEnd a = true) :
    (s.alloc n v).AtEnd a = true := by
  unfold Shared.AtEnd at h ⊢
  rw [Shared.alloc_heap]
  by_cases han : a = n
  · subst han
    rw [Function.update_self]
    rfl
  · rwa [Function.update_of_ne han]

theorem atEnd_delete (h : s.AtEnd a = true) : (s.delete reclaim t).AtEnd a = true := by
  unfold Shared.AtEnd Shared.delete at *
  split
  · dsimp only
    by_cases hat : a = t
    · subst hat
      rw [Function.update_self]
      rfl
    · rwa [Function.update_of_ne hat]
  · exact h

/-! ## One step -/

/-- A step that makes nobody else's snapshot stale. A failed round uses up a stale one. -/
def Quiet (s : Shared T) (p : Pc) (s' : Shared T) (p' : Pc) : Prop :=
  (fails p p').toNat + p'.stale s' ≤ p.stale s ∧ ∀ q : Pc, q.stale s' ≤ q.stale s

/-- A step by which the thread gets on, and after which it holds no stale snapshot itself. -/
def GetsOn (s : Shared T) (p : Pc) (s' : Shared T) (p' : Pc) : Prop :=
  1 ≤ progress s p p' ∧ p'.stale s' = 0

/-- The memory is not changed. -/
theorem quiet_of_same (h : (fails p p').toNat + p'.stale s ≤ p.stale s) : Quiet s p s p' :=
  ⟨h, fun q => Nat.le_refl (q.stale s)⟩

theorem pushLink_quiet_or_getsOn (hs : step reclaim s (.pushLink n t) (.run lk) = some (s', p'))
    (hlk : lk.spurious = false) :
    Quiet s (.pushLink n t) s' p' ∨ GetsOn s (.pushLink n t) s' p' := by
  simp only [step, linkable_eq hlk] at hs
  by_cases hend : s.AtEnd t = true
  · rw [if_pos hend] at hs
    cases hs
    exact .inr ⟨Nat.le_refl 1, rfl⟩
  · rw [if_neg hend] at hs
    cases hs
    have hstale : (Pc.pushLink n t).stale s = 1 := if_neg hend
    have hspent : (fails (.pushLink n t) (.pushTail n)).toNat + (Pc.pushTail n).stale s = 1 := rfl
    exact .inl (quiet_of_same (by omega))

/-- A CAS on `tail` moves it or changes nothing. -/
theorem casTail_quiet_or_getsOn (htail : movesTail s p = decide (s.tail = t))
    (hfresh : ∀ s' : Shared T, p'.stale s' = 0)
    (hstale : s.tail ≠ t → (fails p p').toNat ≤ p.stale s) :
    Quiet s p (s.casTail t y lk) p' ∨ GetsOn s p (s.casTail t y lk) p' := by
  by_cases h : s.tail = t
  · have hmoves : movesTail s p = true := by rw [htail, decide_eq_true h]
    refine .inr ⟨?_, hfresh _⟩
    unfold progress
    rw [hmoves]
    exact Nat.le_add_left 1 _
  · have hsame : s.casTail t y lk = s := if_neg fun hcas => h hcas.1
    rw [hsame]
    have hspent := hstale h
    exact .inl (quiet_of_same (by rw [hfresh]; exact hspent))

/-- **One step** is quiet, or the thread gets on. -/
theorem quiet_or_getsOn (hs : step reclaim s p x = some (s', p')) (hx : x.Strong) :
    Quiet s p s' p' ∨ GetsOn s p s' p' := by
  have hm := step_move hs
  cases hm with
  | @push v n hfree =>
    have hend : ∀ a, s.AtEnd a = true → (s.alloc n v).AtEnd a = true := fun a => atEnd_alloc hfree v
    exact .inl ⟨Nat.le_refl 0, stale_mono rfl rfl hend⟩
  | pop => exact .inl (quiet_of_same (Nat.le_refl 0))
  | @loadTail n l =>
    -- the snapshot is taken now, so it is not out of date
    have hfresh : (Pc.pushNext n s.tail).stale s = 0 := if_pos rfl
    exact .inl (quiet_of_same (Nat.le_of_eq ((Nat.zero_add _).trans hfresh)))
  | @loadNull n t l hnull =>
    have hfresh : (Pc.pushLink n t).stale s = 0 := if_pos (atEnd_of_nextIs hnull)
    refine .inl (quiet_of_same ?_)
    rw [hfresh]
    exact Nat.zero_le _
  | loadNext _ => exact .inl (quiet_of_same (Nat.le_of_eq (Nat.zero_add _)))
  | link _ _ => exact pushLink_quiet_or_getsOn hs hx
  | linkGone _ => exact pushLink_quiet_or_getsOn hs hx
  | linkFail => exact pushLink_quiet_or_getsOn hs hx
  | @help n t y l =>
    refine casTail_quiet_or_getsOn rfl (fun _ => rfl) fun htail => ?_
    have hstale : (Pc.pushHelp n t y).stale s = 1 := if_neg htail
    rw [hstale]
    exact Nat.le_refl 1
  | swing => exact casTail_quiet_or_getsOn rfl (fun _ => rfl) fun _ => Nat.le_refl 0
  | loadHead =>
    have hfresh : (Pc.popNext s.head).stale s = 0 := if_pos rfl
    exact .inl (quiet_of_same (Nat.le_of_eq ((Nat.zero_add _).trans hfresh)))
  | empty _ => exact .inl (quiet_of_same (Nat.zero_le _))
  | loadSucc _ => exact .inl (quiet_of_same (Nat.le_of_eq (Nat.zero_add _)))
  | advance _ _ => exact .inr ⟨Nat.le_refl 1, rfl⟩
  | @retry h y l hmiss =>
    have hhead : s.head ≠ h := fun heq => hmiss ⟨heq, hx⟩
    have hstale : (Pc.popSwing h y).stale s = 1 := if_neg hhead
    refine .inl (quiet_of_same ?_)
    rw [hstale]
    exact Nat.le_refl 1
  | read => exact .inl ⟨Nat.zero_le _, stale_mono rfl rfl fun _ => id⟩
  | @delete h l =>
    have hend : ∀ a, s.AtEnd a = true → (s.delete reclaim h).AtEnd a = true := fun a => atEnd_delete
    exact .inl ⟨Nat.zero_le _, stale_mono (Shared.delete_head _ _) (Shared.delete_tail _ _) hend⟩

/-! ## How often a thread gets on -/

theorem pushed_move (hT : ThreadOK s p) (hS : Spine s l) (hm : Move false s p x s' p') :
    s'.pushed.length = s.pushed.length + (links p p').toNat := by
  cases hm with
  | @link n t lk nd ht _ =>
    obtain ⟨v, hv⟩ := hT.1.node
    have hpushed : (s.link t n).pushed = s.pushed ++ [v] := by simp [Shared.link, ht, hv]
    rw [hpushed, List.length_append]
    rfl
  | linkGone ht =>
    obtain ⟨nd, hnd⟩ := hS.allocated hT.2
    rw [ht] at hnd
    simp at hnd
  | help | swing =>
    rw [Shared.casTail_eq]
    rfl
  | _ => rfl

theorem results_move (hm : Move false s p x s' p') :
    s'.results.length = s.results.length + (movesHead p p').toNat := by
  cases hm with
  | link ht _ =>
    simp only [Shared.link, ht]
    rfl
  | help | swing =>
    rw [Shared.casTail_eq]
    rfl
  | advance _ _ => exact List.length_append
  | read => exact List.length_set
  | _ => rfl

/-- Every move of `tail` passes a node that has been linked. -/
theorem movesTail_move (hS : Spine s l) (hT : ThreadOK s p) (hm : Move false s p x s' p')
    (hx : x.Strong) {k : List Addr} (hk : After s.heap s.tail k) :
    ∃ k', After s'.heap s'.tail k' ∧
      (movesTail s p).toNat + k'.length ≤ k.length + (links p p').toNat := by
  -- a CAS on `tail` passes the first of the nodes behind it
  have hcas : ∀ {t y lk}, Succ s.heap t y → lk.spurious = false → ∃ k',
      After (s.casTail t y lk).heap (s.casTail t y lk).tail k' ∧
        (decide (s.tail = t)).toNat + k'.length ≤ k.length := by
    intro t y lk hty hlk
    rcases casTail_cases hk hty hlk with ⟨htail, k', rfl, hk'⟩ | ⟨htail, hsame⟩
    · refine ⟨k', hk', ?_⟩
      rw [decide_eq_true htail, List.length_cons, Bool.toNat_true]
      omega
    · refine ⟨k, by rw [hsame]; exact hk, ?_⟩
      rw [decide_eq_false htail, Bool.toNat_false]
      omega
  cases hm with
  | @push v n hfree =>
    refine ⟨k, hk.keep fun a nd hnd => ?_, Nat.le_of_eq (Nat.zero_add _)⟩
    have hne : a ≠ n := by
      intro han
      rw [han, hfree] at hnd
      simp at hnd
    rw [Shared.alloc_heap, Function.update_of_ne hne]
    exact hnd
  | @link n t lk nd ht hnull =>
    obtain ⟨v, hv⟩ := hT.1.node
    have hlast : ∀ b, ¬ Succ s.heap t b := fun b => not_succ ht hnull
    have hbehind : Linked s.heap s.tail t := by
      rcases Linked.total hS.tail hT.2 with h | h
      · exact h
      · rw [h.last hlast]
    have hn : (s.link t n).heap n = some ⟨v, none⟩ := by
      rw [Shared.link_heap ht, Function.update_of_ne (hT.1.not_linked hT.2).symm]
      exact hv
    refine ⟨k ++ [n], ?_, ?_⟩
    · rw [Shared.link_tail]
      exact hk.link hbehind hlast (keeps_link ht hnull) (link_succ ht) hn rfl
    · rw [List.length_append]
      exact Nat.le_of_eq (Nat.zero_add _)
  | help => exact hcas hT.2.2 hx
  | swing => exact hcas hT.2 hx
  | linkGone _ => exact ⟨k, hk, Nat.le_trans (Nat.le_of_eq (Nat.zero_add _)) (Nat.le_add_right _ _)⟩
  | _ => exact ⟨k, hk, Nat.le_of_eq (Nat.zero_add _)⟩

/-- No step is too many: it comes nearer to the end of a round, or begins a call or another round. -/
theorem rank_move (hm : Move reclaim s p x s' p') :
    1 + p'.rank ≤ p.rank + (6 * (begins p p').toNat + 3 * (fails p p').toNat) := by
  cases hm with
  | push _ | pop => simp [Pc.rank, begins, fails]
  | linkFail | help | retry _ => simp [Pc.rank, begins, fails, Pc.top]
  | _ => exact Nat.le_add_right_of_le (by simp [Pc.rank])

/-- A call leaves its loop once. -/
theorem looping_move (hm : Move reclaim s p x s' p') :
    (links p p').toNat + (movesHead p p').toNat + p'.looping.toNat ≤
      p.looping.toNat + (begins p p').toNat := by
  cases hm with
  | empty _ => exact Nat.zero_le _
  | _ => exact Nat.le_refl _

/-- No access waits for another thread. -/
theorem exists_step (reclaim : Bool) (s : Shared T) (lk : Luck T) (hp : p ≠ .idle) :
    (step reclaim s p (.run lk)).isSome = true := by
  cases p with
  | idle => exact absurd rfl hp
  | pushNext n t | popNext o =>
    simp only [step]
    split <;> rfl
  | pushLink n t | popSwing o y =>
    simp only [step]
    split <;> rfl
  | _ => rfl

/-! ## Failed rounds -/
variable [Inhabited T] [DecidableEq ι] [Fintype ι] {c c' : State ι T} {act : ι × Choice T}
  {tr : List (Edge (State ι T) (ι × Choice T))}

/-- No `compare_exchange_weak` of the step fails spuriously. -/
abbrev Strong (_ : State ι T) (act : ι × Choice T) : Prop := act.2.Strong

/-- What the stepping thread does, from one control point to the other. -/
abbrev stepping {β : Type*} (f : Shared T → Pc → Pc → β)
    (e : Edge (State ι T) (ι × Choice T)) : β :=
  f e.before.sh (e.before.pc e.label.1) (e.after.pc e.label.1)

/-- The step ends a round that has failed. -/
abbrev FailsAt : Edge (State ι T) (ι × Choice T) → Bool := stepping fun _ => fails

/-- The step begins a call. -/
abbrev BeginsAt : Edge (State ι T) (ι × Choice T) → Bool := stepping fun _ => begins

/-- The step links a node. -/
abbrev LinksAt : Edge (State ι T) (ι × Choice T) → Bool := stepping fun _ => links

/-- The step moves `head`. -/
abbrev MovesHeadAt : Edge (State ι T) (ι × Choice T) → Bool := stepping fun _ => movesHead

/-- The step moves `tail`. -/
abbrev MovesTailAt : Edge (State ι T) (ι × Choice T) → Bool := stepping fun s p _ => movesTail s p

/-- The snapshots that are stale. -/
def staleness (c : State ι T) : ℕ := total (Pc.stale c.sh) c.pc

/-- A failed round is paid for by the progress of others: who gets on makes the snapshots of all
threads stale but its own. -/
theorem fails_amortized (hs : (prog ι reclaim).lts.step c act = some c') (hok : Strong c act) :
    (FailsAt ⟨c, act, c'⟩).toNat + staleness c' ≤
      staleness c + Fintype.card ι * stepping progress ⟨c, act, c'⟩ := by
  obtain ⟨s, p, hstep, rfl⟩ := Prog.plain_inv (fun _ _ _ _ => rfl) hs
  simp only [FailsAt, stepping, staleness, Function.update_self]
  rcases quiet_or_getsOn hstep hok with ⟨hspent, hmono⟩ | ⟨hgain, hfresh⟩
  · have hsum := total_reweigh c.pc act.1 p hmono
    omega
  · have hlt : total (Pc.stale s) (Function.update c.pc act.1 p) < Fintype.card ι :=
      total_lt_card act.1 (Pc.stale_le_one s) (by rw [Function.update_self]; exact hfresh)
    have hone : (fails (c.pc act.1) p).toNat ≤ 1 := Bool.toNat_le _
    have hpaid := Nat.mul_le_mul_left (Fintype.card ι) hgain
    omega

/-- The failed rounds of a run are at most what its threads have got on, times their number. -/
theorem fails_le_progress (h : (prog ι reclaim).lts.Traced Strong tr c) :
    times FailsAt tr ≤ Fintype.card ι * spent (stepping progress) tr := by
  have hcost := h.amortized (fun e => (FailsAt e).toNat)
    (fun e => Fintype.card ι * stepping progress e) staleness
    fun _ _ _ _ hok hs => fails_amortized hs hok
  have hinit : staleness (prog ι reclaim : Prog ι Empty (Shared T) Pc (Choice T)).lts.init = 0 :=
    Finset.sum_eq_zero fun _ _ => rfl
  rw [spent_mul, hinit, Nat.zero_add] at hcost
  exact Nat.le_trans (Nat.le_add_right _ _) hcost

omit [Inhabited T] [DecidableEq ι] [Fintype ι] in
theorem spent_progress (tr : List (Edge (State ι T) (ι × Choice T))) :
    spent (stepping progress) tr = times LinksAt tr + times MovesHeadAt tr + times MovesTailAt tr := by
  unfold times
  rw [← spent_add, ← spent_add]
  rfl

theorem pushed_eq_times (h : (prog ι false).lts.Traced Strong tr c) :
    c.sh.pushed.length = times LinksAt tr := by
  refine (h.counted (A := fun c => c.sh.pushed.length) fun c act c' hc _ hs => ?_).trans (Nat.zero_add _)
  obtain ⟨s, p, hm, rfl⟩ := conf_move hs
  obtain ⟨l, hS⟩ := (listed (hc.mono fun _ _ _ => trivial)).spine
  simp only [LinksAt, stepping, Function.update_self]
  exact pushed_move ((listed (hc.mono fun _ _ _ => trivial)).threads act.1) hS hm

theorem results_eq_times (h : (prog ι false).lts.Traced Strong tr c) :
    c.sh.results.length = times MovesHeadAt tr := by
  refine (h.counted (A := fun c => c.sh.results.length) fun c act c' _ _ hs => ?_).trans (Nat.zero_add _)
  obtain ⟨s, p, hm, rfl⟩ := conf_move hs
  simp only [MovesHeadAt, stepping, Function.update_self]
  exact results_move hm

/-- `tail` has been moved once for each node linked, except for those still behind it. -/
theorem movesTail_le_links (h : (prog ι false).lts.Traced Strong tr c) :
    ∃ k, After c.sh.heap c.sh.tail k ∧ times MovesTailAt tr + k.length ≤ times LinksAt tr := by
  induction h with
  | init => exact ⟨[], .last rfl rfl, Nat.le_refl 0⟩
  | @step tr c c' act htr hok hs ih =>
    obtain ⟨k, hk, hle⟩ := ih
    have hL := listed (htr.reach.mono fun _ _ _ => trivial)
    obtain ⟨l, hS⟩ := hL.spine
    obtain ⟨s, p, hm, rfl⟩ := conf_move hs
    obtain ⟨k', hk', hle'⟩ := movesTail_move hS (hL.threads act.1) hm hok hk
    refine ⟨k', hk', ?_⟩
    simp only [times, spent_cons, MovesTailAt, LinksAt, stepping, Function.update_self] at hle ⊢
    omega

/-- **Failed rounds.** Whatever the schedule, as long as no `compare_exchange_weak` fails spuriously,
the failed rounds of all threads together are at most the number of threads times twice the values
pushed and once the values popped. -/
theorem failed_rounds (h : (prog ι false).lts.Traced Strong tr c) :
    times FailsAt tr ≤ Fintype.card ι * (2 * c.sh.pushed.length + c.sh.results.length) := by
  obtain ⟨k, -, htail⟩ := movesTail_le_links h
  have hpushed := pushed_eq_times h
  have hresults := results_eq_times h
  have hprogress := spent_progress tr
  calc times FailsAt tr
      ≤ Fintype.card ι * spent (stepping progress) tr := fails_le_progress h
    _ ≤ Fintype.card ι * (2 * c.sh.pushed.length + c.sh.results.length) :=
        Nat.mul_le_mul_left _ (by omega)

/-- Thread 0 has linked its node between thread 1's look at `next` and its CAS, which fails. -/
theorem failed_rounds_two : ∃ (tr : List (Edge (State (Fin 2) ℕ) _)) (c : State (Fin 2) ℕ),
    (prog (Fin 2) false).lts.Traced Strong tr c ∧ times FailsAt tr = 1 ∧
    1 ≤ 2 * (2 * c.sh.pushed.length + c.sh.results.length) := by
  obtain ⟨tr, c, htr, hone⟩ := Lts.exists_traced (prog (Fin 2) false).lts Strong
    ((1, .push 8 2) :: go 1 2 ++ (0, .push 7 1) :: go 0 3 ++ go 1 1)
    (fun tr _ => times FailsAt tr == 1) (by decide)
  have hle := failed_rounds htr
  rw [beq_iff_eq] at hone
  rw [hone] at hle
  exact ⟨tr, c, htr, hone, hle⟩

/-! ## Steps -/

theorem steps_amortized (h : (prog ι reclaim).lts.Traced Strong tr c) :
    tr.length ≤ 6 * times BeginsAt tr + 3 * times FailsAt tr := by
  have hcost := h.amortized (fun _ => 1)
    (fun e => 6 * (BeginsAt e).toNat + 3 * (FailsAt e).toNat) (fun c => total Pc.rank c.pc)
    fun c act c' _ _ hs => by
      obtain ⟨s, p, hm, rfl⟩ := conf_move hs
      have hrank := rank_move hm
      have hsum := total_update Pc.rank c.pc act.1 p
      simp only [BeginsAt, FailsAt, stepping, Function.update_self]
      omega
  have hinit : total Pc.rank (prog ι reclaim : Prog ι Empty (Shared T) Pc (Choice T)).lts.init.pc = 0 :=
    Finset.sum_eq_zero fun _ _ => rfl
  rw [spent_one, spent_add, spent_mul, spent_mul, hinit, Nat.zero_add] at hcost
  exact Nat.le_trans (Nat.le_add_right _ _) hcost

/-- No more values are pushed and popped than calls are made. -/
theorem calls_suffice (h : (prog ι false).lts.Traced Strong tr c) :
    c.sh.pushed.length + c.sh.results.length ≤ times BeginsAt tr := by
  have hcost := h.amortized (fun e => (LinksAt e).toNat + (MovesHeadAt e).toNat)
    (fun e => (BeginsAt e).toNat) (fun c => total (fun p => p.looping.toNat) c.pc)
    fun c act c' _ _ hs => by
      obtain ⟨s, p, hm, rfl⟩ := conf_move hs
      have hloop := looping_move hm
      have hsum := total_update (fun p => p.looping.toNat) c.pc act.1 p
      simp only [LinksAt, MovesHeadAt, BeginsAt, stepping, Function.update_self]
      omega
  have hinit : total (fun p => p.looping.toNat)
      (prog ι false : Prog ι Empty (Shared T) Pc (Choice T)).lts.init.pc = 0 :=
    Finset.sum_eq_zero fun _ _ => rfl
  have hpushed := pushed_eq_times h
  have hresults := results_eq_times h
  rw [spent_add, hinit, Nat.zero_add] at hcost
  unfold times at hpushed hresults ⊢
  omega

/-- **All calls together take a bounded number of steps.** Whatever the schedule, as long as no
`compare_exchange_weak` fails spuriously, a run takes at most six steps for each call it makes, and
six more for each call and thread; and no thread in a call is ever kept from its next step. So a run
that makes no further call ends with every call completed. -/
theorem steps_bounded (h : (prog ι false).lts.Traced Strong tr c) :
    tr.length ≤ 6 * (Fintype.card ι + 1) * times BeginsAt tr ∧
      ∀ i lk, c.pc i ≠ .idle → ∃ c', (prog ι false).lts.step c (i, .run lk) = some c' := by
  have hcalls : 2 * c.sh.pushed.length + c.sh.results.length ≤ 2 * times BeginsAt tr := by
    have := calls_suffice h
    omega
  have hfails : times FailsAt tr ≤ Fintype.card ι * (2 * times BeginsAt tr) :=
    Nat.le_trans (failed_rounds h) (Nat.mul_le_mul_left _ hcalls)
  refine ⟨?_, fun i lk hi => ?_⟩
  · calc tr.length
        ≤ 6 * times BeginsAt tr + 3 * (Fintype.card ι * (2 * times BeginsAt tr)) := by
          have := steps_amortized h
          omega
      _ = 6 * (Fintype.card ι + 1) * times BeginsAt tr := by ring
  · obtain ⟨r, hr⟩ := Option.isSome_iff_exists.1 (exists_step false c.sh lk hi)
    exact ⟨_, Prog.plain_of (M := prog ι false) (fun _ _ _ _ => rfl) hr⟩

/-- The run of `failed_rounds_two` to its end: two calls in thirteen steps. -/
theorem steps_bounded_two : ∃ (tr : List (Edge (State (Fin 2) ℕ) _)) (c : State (Fin 2) ℕ),
    (prog (Fin 2) false).lts.Traced Strong tr c ∧ c.pc = (fun _ => .idle) ∧ tr.length = 13 ∧
    tr.length ≤ 6 * (2 + 1) * times BeginsAt tr := by
  obtain ⟨tr, c, htr, hend⟩ := Lts.exists_traced (prog (Fin 2) false).lts Strong
    ((1, .push 8 2) :: go 1 2 ++ (0, .push 7 1) :: go 0 3 ++ go 1 1 ++ go 0 1 ++ go 1 4)
    (fun tr c => decide (c.pc = fun _ => .idle) && tr.length == 13) (by decide)
  rw [Bool.and_eq_true, decide_eq_true_eq, beq_iff_eq] at hend
  exact ⟨tr, c, htr, hend.1, hend.2, (steps_bounded htr).1⟩

end BackendTasks.LockFreeQueue
