import BackendTasks.Proof.LockFreeFifo
import BackendTasks.Sched.Rounds

/-!
# A thread of the lock-free queue left alone

Memory is never reclaimed, and a `compare_exchange_weak` fails on a mismatch only. The other
threads have stopped anywhere, a `push` between its two CASes among them, so `tail` may be
any number of nodes behind the last one, and what the thread has loaded may be out of date.

* `Pc.more`: the rounds of its loop the thread may still need. A snapshot out of date costs
  the round it is in; then each round of `push` moves `tail` to the next node until it is at
  the last one, and `pop` succeeds at once.
* `step_needs`: each step uses up a round or comes nearer to the end of one.
* `completes_alone`: so the call completes.
-/

namespace BackendTasks.LockFreeQueue

open Sched

variable {ι T : Type*} {s s' : Shared T} {p p' : Pc} {m t x : Addr} {l : List Addr} {n : ℕ} {lk : Luck T}

/-! ## The loops -/

/-- At the top of the loop of `push` or `pop`. -/
def Pc.top : Pc → Bool
  | .pushTail _ | .popHead => true
  | _ => false

/-- Inside the loop of `push`. -/
def Pc.InPush : Pc → Prop
  | .pushTail _ | .pushNext _ _ | .pushLink _ _ | .pushHelp _ _ _ => True
  | _ => False

/-- Inside the loop of `pop`. -/
def Pc.InPop : Pc → Prop
  | .popHead | .popNext _ | .popSwing _ _ => True
  | _ => False

/-- No more steps than this are left of the round, or of the call if no further round is needed. -/
def Pc.rank : Pc → ℕ
  | .idle => 0
  | .pushSwing _ _ | .popDelete _ => 1
  | .pushLink _ _ | .pushHelp _ _ _ | .popValue _ _ _ => 2
  | .pushNext _ _ | .popSwing _ _ => 3
  | .pushTail _ | .popNext _ => 4
  | .popHead => 5

/-- The CAS on the `next` of the node at `t` would find null. -/
def Shared.AtEnd (s : Shared T) (t : Addr) : Bool :=
  (s.heap t).all fun nd => nd.next.isNone

/-- The rounds a thread may need after the one it is in, with `k` nodes behind the one `tail`
points to. -/
def Pc.more (s : Shared T) (k : ℕ) : Pc → ℕ
  | .pushTail _ => k
  | .pushNext _ t | .pushHelp _ t _ => if s.tail = t then k else k + 1
  | .pushLink _ t => if s.AtEnd t then 0 else k + 1
  | .popNext h | .popSwing h _ => if s.head = h then 0 else 1
  | _ => 0

/-- At `p` no more than `n` rounds are needed after this one. -/
def Needs (s : Shared T) (p : Pc) (n : ℕ) : Prop :=
  ∃ l, After s.heap s.tail l ∧ p.more s l.length ≤ n

theorem Pc.InPush.more_le (h : p.InPush) (s : Shared T) (k : ℕ) : p.more s k ≤ k + 1 := by
  cases p with
  | pushTail n => exact Nat.le_succ k
  | pushNext n t | pushLink n t | pushHelp n t y =>
    simp only [Pc.more]
    split <;> omega
  | _ => exact absurd h id

theorem Pc.InPop.more_le (h : p.InPop) (s : Shared T) (k : ℕ) : p.more s k ≤ 1 := by
  cases p with
  | popHead => exact Nat.zero_le 1
  | popNext o | popSwing o y =>
    simp only [Pc.more]
    split <;> omega
  | _ => exact absurd h id

/-! ## The list behind `tail` -/

/-- `tail` may be before or behind `head`; a list starts from it either way. -/
theorem Spine.behind_tail (hS : Spine s l) : ∃ l', After s.heap s.tail l' := by
  rcases Linked.total hS.head hS.tail with h | h
  · exact hS.chain.behind h
  · exact hS.chain.before h

/-- A CAS that finds `tail` where it expects it moves it to the next node, and one that does not
changes nothing. -/
theorem casTail_cases (hl : After s.heap s.tail l) (htx : Succ s.heap t x) (hlk : lk.spurious = false) :
    (s.tail = t ∧ ∃ l', l = x :: l' ∧ After (s.casTail t x lk).heap (s.casTail t x lk).tail l') ∨
      (s.tail ≠ t ∧ s.casTail t x lk = s) := by
  by_cases htail : s.tail = t
  · have hcas : s.casTail t x lk = { s with tail := x } := if_pos ⟨htail, hlk⟩
    rw [hcas]
    rw [htail] at hl
    cases hl with
    | last hnd hnull => exact absurd htx (not_succ hnd hnull)
    | cons hs hrest =>
      obtain rfl := succ_unique hs htx
      exact .inl ⟨htail, _, rfl, hrest⟩
  · exact .inr ⟨htail, if_neg fun h => htail h.1⟩

theorem linkable_eq (hlk : lk.spurious = false) (s : Shared T) (t : Addr) :
    s.linkable t lk = s.AtEnd t := by
  unfold Shared.linkable Shared.AtEnd
  cases s.heap t <;> simp [hlk]

theorem atEnd_of_nextIs (h : s.NextIs t none) : s.AtEnd t = true := by
  unfold Shared.AtEnd
  rw [Option.all_eq_true]
  intro nd hnd
  rw [h nd hnd]
  rfl

/-! ## One step -/

/-- The step to `p'` begins a new round, of those allowed, or comes nearer to the end of the round
it is in. -/
def Progress (p : Pc) (n : ℕ) (s' : Shared T) (p' : Pc) : Prop :=
  if p'.top then ∃ n' < n, Needs s' p' n' else Needs s' p' n ∧ p'.rank < p.rank

/-- The thread can take a step, and it makes progress. -/
def Advances (s : Shared T) (p : Pc) (n : ℕ) (lk : Luck T) : Prop :=
  ∃ s' p', step false s p (.run lk) = some (s', p') ∧ Progress p n s' p'

theorem Progress.again (htop : p'.top = true) (h : ∃ n' < n, Needs s' p' n') : Progress p n s' p' := by
  unfold Progress
  rw [if_pos htop]
  exact h

theorem Progress.on (htop : p'.top = false) (hrank : p'.rank < p.rank) (h : Needs s' p' n) :
    Progress p n s' p' := by
  unfold Progress
  rw [if_neg (by simp [htop])]
  exact ⟨h, hrank⟩

/-- A null `next` leads to the CAS that links, and no further round. -/
theorem Needs.pushNext (hn : Needs s (.pushNext m t) n) : Advances s (.pushNext m t) n lk := by
  obtain ⟨k, hk, hle⟩ := hn
  have hload := s.nextIs_loadNext t lk
  cases hnext : s.loadNext t lk with
  | none =>
    rw [hnext] at hload
    have hend : (Pc.pushLink m t).more s k.length = 0 := if_pos (atEnd_of_nextIs hload)
    refine ⟨s, .pushLink m t, by simp only [step, hnext], .on rfl (by simp [Pc.rank]) ⟨k, hk, ?_⟩⟩
    rw [hend]
    exact Nat.zero_le n
  | some y =>
    exact ⟨s, .pushHelp m t y, by simp only [step, hnext], .on rfl (by simp [Pc.rank]) ⟨k, hk, hle⟩⟩

/-- The CAS that links succeeds, or another thread has linked its node there. -/
theorem Needs.pushLink (hS : Spine s l) (hT : ThreadOK s (.pushLink m t)) (hn : Needs s (.pushLink m t) n)
    (hlk : lk.spurious = false) : Advances s (.pushLink m t) n lk := by
  obtain ⟨k, hk, hle⟩ := hn
  by_cases hend : s.AtEnd t = true
  · have hs : step false s (.pushLink m t) (.run lk) = some (s.link t m, .pushSwing m t) := by
      rw [step, linkable_eq hlk, if_pos hend]
    obtain ⟨⟨l', hS'⟩, -⟩ := hS.move hT (step_move hs)
    obtain ⟨k', hk'⟩ := hS'.behind_tail
    exact ⟨_, _, hs, .on rfl (by simp [Pc.rank]) ⟨k', hk', Nat.zero_le n⟩⟩
  · have hs : step false s (.pushLink m t) (.run lk) = some (s, .pushTail m) := by
      rw [step, linkable_eq hlk, if_neg hend]
    have hmore : (Pc.pushLink m t).more s k.length = k.length + 1 := if_neg hend
    rw [hmore] at hle
    exact ⟨_, _, hs, .again rfl ⟨k.length, by omega, k, hk, Nat.le_refl _⟩⟩

/-- The CAS that helps brings `tail` one node nearer to the last one, unless `tail` is elsewhere. -/
theorem Needs.pushHelp (hT : ThreadOK s (.pushHelp m t x)) (hn : Needs s (.pushHelp m t x) n)
    (hlk : lk.spurious = false) : Advances s (.pushHelp m t x) n lk := by
  obtain ⟨k, hk, hle⟩ := hn
  refine ⟨_, _, rfl, .again rfl ?_⟩
  rcases casTail_cases hk hT.2.2 hlk with ⟨htail, k', rfl, hk'⟩ | ⟨htail, hsame⟩
  · have hmore : (Pc.pushHelp m t x).more s (x :: k').length = k'.length + 1 := if_pos htail
    rw [hmore] at hle
    exact ⟨k'.length, by omega, k', hk', Nat.le_refl _⟩
  · have hmore : (Pc.pushHelp m t x).more s k.length = k.length + 1 := if_neg htail
    rw [hmore] at hle
    rw [hsame]
    exact ⟨k.length, by omega, k, hk, Nat.le_refl _⟩

/-- The CAS on `head` succeeds, unless `head` is elsewhere. -/
theorem Needs.popSwing (hn : Needs s (.popSwing t x) n) (hlk : lk.spurious = false) :
    Advances s (.popSwing t x) n lk := by
  obtain ⟨k, hk, hle⟩ := hn
  by_cases hhead : s.head = t
  · refine ⟨s.advance x, .popValue t x s.results.length, if_pos ⟨hhead, hlk⟩, ?_⟩
    exact .on rfl (by simp [Pc.rank]) ⟨k, hk, Nat.zero_le n⟩
  · have hmore : (Pc.popSwing t x).more s k.length = 1 := if_neg hhead
    rw [hmore] at hle
    refine ⟨s, .popHead, if_neg fun h => hhead h.1, .again rfl ⟨0, by omega, k, hk, ?_⟩⟩
    exact Nat.le_refl 0

/-- **One step of a thread left alone.** -/
theorem step_needs (hS : Spine s l) (hT : ThreadOK s p) (hn : Needs s p n) (hidle : p ≠ .idle)
    (hlk : lk.spurious = false) : Advances s p n lk := by
  obtain ⟨k, hk, hle⟩ := id hn
  cases p with
  | idle => exact absurd rfl hidle
  | pushTail m =>
    -- the snapshot is taken now, so it is not out of date
    have hfresh : (Pc.pushNext m s.tail).more s k.length ≤ k.length := Nat.le_of_eq (if_pos rfl)
    exact ⟨s, .pushNext m s.tail, rfl, .on rfl (by simp [Pc.rank]) ⟨k, hk, Nat.le_trans hfresh hle⟩⟩
  | pushNext m t => exact hn.pushNext
  | pushLink m t => exact hn.pushLink hS hT hlk
  | pushHelp m t y => exact hn.pushHelp hT hlk
  | pushSwing m t =>
    obtain ⟨k', hk'⟩ := (hS.casTail hT.1 hT.2 lk).behind_tail
    exact ⟨_, _, rfl, .on rfl (by simp [Pc.rank]) ⟨k', hk', Nat.zero_le n⟩⟩
  | popHead =>
    have hfresh : (Pc.popNext s.head).more s k.length ≤ 0 := Nat.le_of_eq (if_pos rfl)
    refine ⟨s, .popNext s.head, rfl, .on rfl (by simp [Pc.rank]) ⟨k, hk, ?_⟩⟩
    exact Nat.le_trans hfresh (Nat.zero_le n)
  | popNext o =>
    cases hnext : s.loadNext o lk with
    | none =>
      refine ⟨s, .idle, by simp only [step, hnext], .on rfl (by simp [Pc.rank]) ⟨k, hk, ?_⟩⟩
      exact Nat.zero_le n
    | some y =>
      exact ⟨s, .popSwing o y, by simp only [step, hnext], .on rfl (by simp [Pc.rank]) ⟨k, hk, hle⟩⟩
  | popSwing o y => exact hn.popSwing hlk
  | popValue o y j => exact ⟨_, _, rfl, .on rfl (by simp [Pc.rank]) ⟨k, hk, Nat.zero_le n⟩⟩
  | popDelete o => exact ⟨_, _, rfl, .on rfl (by simp [Pc.rank]) ⟨k, hk, Nat.zero_le n⟩⟩

/-! ## The run -/

variable [Inhabited T] [DecidableEq ι] [Fintype ι] {c : State ι T} {i : ι}

/-- If thread `i` alone runs on, with this luck, its call is over within `n` rounds of its
loop, the one it is in included. -/
def Completes (i : ι) (luck : ℕ → Luck T) (n : ℕ) (c : State ι T) : Prop :=
  (prog ι false).lts.Within (fun c => (c.pc i).top) (fun c => c.pc i = .idle)
    (fun j => (i, .run (luck j))) n c

/-- Left alone, a thread completes its call within the rounds it needs. -/
theorem Needs.completes (h : (prog ι false).lts.Reach c) (hn : Needs c.sh (c.pc i) n)
    {luck : ℕ → Luck T} (hluck : ∀ j, (luck j).spurious = false) : Completes i luck (n + 1) c := by
  refine Lts.within_of_rank (fun a => ∃ lk : Luck T, lk.spurious = false ∧ a = (i, .run lk))
    (fun n c => (prog ι false).lts.Reach c ∧ Needs c.sh (c.pc i) n) (fun c => (c.pc i).rank)
    ?_ (fun j => ⟨luck j, hluck j, rfl⟩) ⟨h, hn⟩
  rintro n c _ ⟨hc, hn⟩ hidle ⟨lk, hlk, rfl⟩
  obtain ⟨l, hS⟩ := (listed hc).spine
  obtain ⟨s', p', hs, hprogress⟩ := step_needs hS ((listed hc).threads i) hn hidle hlk
  have hstep := Prog.plain_of (M := prog ι false) (fun _ _ _ _ => rfl) (t := i) hs
  have hreach := hc.step trivial hstep
  refine ⟨_, hstep, ?_⟩
  unfold Progress at hprogress
  simp only [Function.update_self]
  split
  · rename_i htop
    rw [if_pos htop] at hprogress
    obtain ⟨n', hn', hneeds⟩ := hprogress
    exact ⟨n', hn', hreach, by simpa using hneeds⟩
  · rename_i htop
    rw [if_neg htop] at hprogress
    exact ⟨⟨hreach, by simpa using hprogress.1⟩, hprogress.2⟩

/-- **A thread left alone completes its call.** From every reachable state, with any thread at any
point inside its loop: if only that thread runs on, and no `compare_exchange_weak` fails
spuriously, its `push` completes within two rounds more than there are nodes behind the one
`tail` points to, and its `pop` within two, the round it is in included. -/
theorem completes_alone (h : (prog ι false).lts.Reach c) (luck : ℕ → Luck T)
    (hluck : ∀ j, (luck j).spurious = false) :
    ∃ l, After c.sh.heap c.sh.tail l ∧ ∀ i,
      ((c.pc i).InPush → Completes i luck (l.length + 2) c) ∧
        ((c.pc i).InPop → Completes i luck 2 c) := by
  obtain ⟨_, hS⟩ := (listed h).spine
  obtain ⟨l, hl⟩ := hS.behind_tail
  refine ⟨l, hl, fun i => ⟨fun hpush => ?_, fun hpop => ?_⟩⟩
  · have hneeds : Needs c.sh (c.pc i) (l.length + 1) := ⟨l, hl, hpush.more_le c.sh l.length⟩
    exact hneeds.completes h hluck
  · have hneeds : Needs c.sh (c.pc i) 1 := ⟨l, hl, hpop.more_le c.sh l.length⟩
    exact hneeds.completes h hluck

/-- Thread 0 has linked its node and not swung `tail`. Thread 1 has found null before that, and
thread 2 is about to take the node off. -/
theorem completes_alone_linked : ∃ c : State (Fin 3) ℕ, (prog (Fin 3) false).lts.Reach c ∧
    c.pc 1 = .pushLink 2 0 ∧ c.pc 2 = .popSwing 0 1 ∧ ∃ l, After c.sh.heap c.sh.tail l ∧
    Completes 1 (fun _ => calm) (l.length + 2) c ∧ Completes 2 (fun _ => calm) 2 c := by
  obtain ⟨c, hc, hpcs⟩ := Lts.exists_reachIf (prog (Fin 3) false).lts (fun _ _ => True)
    ((1, .push 8 2) :: go 1 2 ++ (0, .push 7 1) :: go 0 3 ++ (2, .pop) :: go 2 2)
    (fun c => c.pc 1 = .pushLink 2 0 ∧ c.pc 2 = .popSwing 0 1) (by decide)
  obtain ⟨hpush, hpop⟩ := of_decide_eq_true hpcs
  obtain ⟨l, hl, hall⟩ := completes_alone hc (fun _ => calm) fun _ => rfl
  refine ⟨c, hc, hpush, hpop, l, hl, (hall 1).1 ?_, (hall 2).2 ?_⟩
  · rw [hpush]; trivial
  · rw [hpop]; trivial

end BackendTasks.LockFreeQueue
