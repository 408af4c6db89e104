import BackendTasks.Proof.LoggerStep
import BackendTasks.Sched.Progress
import Mathlib.Data.Fintype.BigOperators
import Mathlib.Tactic.IntervalCases

/-!
# The output of the logger

* `output_lines`: at every moment the output is whole lines, of the messages logged, and then a part of
  the line of the thread that holds the mutex; each thread's messages come in their order.
* `logger_completes`: the threads and calls take a bounded number of steps; when `stop` returns, and
  when nobody can go on, every thread made has logged all its messages. `stop` sets `running_` but
  cuts nothing short.
-/

namespace BackendTasks.Logger

open Sched Net

variable {n : ℕ} {t : Option (Fin n)} {k : Fin n} {s s' : Shared n} {p p' q : Pc} {x : Choice}
  {e : Effect (Option (Fin n)) Empty} {i j : ℕ} {c : State n}

/-! ## Lines -/

/-- The line of a message. -/
def text (m : Fin n × ℕ × ℕ) : Bytes := line m.2.1 m.2.2

/-- The lines of messages. -/
def texts (ms : List (Fin n × ℕ × ℕ)) : Bytes := (ms.map text).flatten

theorem texts_concat (ms : List (Fin n × ℕ × ℕ)) (m : Fin n × ℕ × ℕ) :
    texts (ms ++ [m]) = texts ms ++ text m := by
  unfold texts
  rw [List.map_append, List.flatten_append, List.map_singleton, List.flatten_singleton]

/-- The output, with the mutex free: the lines logged. -/
def Whole (c : State n) : Prop := c.owner = none ∧ c.sh.out = texts c.sh.logged

/-- The output while a thread writes: `part` of the last line, with `rest` to come. -/
def Torn (c : State n) : Prop :=
  ∃ k i j rest whole part, c.owner = some (some k) ∧ c.pc (some k) = .write i j rest ∧
    c.sh.logged = whole ++ [(k, i, j)] ∧ line i j = part ++ rest ∧ c.sh.out = texts whole ++ part

/-- A step outside the critical section that does not lock the mutex. -/
theorem quiet_move (hm : Move s t p x s' p' e) (hout : p.inside = false) (hin : p'.inside = false) :
    s'.out = s.out ∧ s'.logged = s.logged ∧ e = .tau := by
  cases hm with
  | lock _ => simp [Pc.inside] at hin
  | write | unlock => simp [Pc.inside] at hout
  | _ => exact ⟨rfl, rfl, rfl⟩

/-- A step of a thread that is not writing and does not begin to. -/
theorem whole_or_torn_quiet (h : Whole c ∨ Torn c) (hout : (c.pc t).inside = false)
    (hsame : s.out = c.sh.out ∧ s.logged = c.sh.logged) (p : Pc) :
    Whole ⟨c.owner, s, fun i => if i = t then p else (prog n).woken .tau i (c.pc i)⟩ ∨
      Torn ⟨c.owner, s, fun i => if i = t then p else (prog n).woken .tau i (c.pc i)⟩ := by
  rcases h with ⟨hfree, hwhole⟩ | ⟨k, i, j, rest, whole, part, howner, hpc, hlogged, hline, hpart⟩
  · exact .inl ⟨hfree, by rw [hsame.1, hsame.2]; exact hwhole⟩
  · have hne : some k ≠ t := by
      rintro rfl
      rw [hpc] at hout
      simp [Pc.inside] at hout
    refine .inr ⟨k, i, j, rest, whole, part, howner, ?_, hsame.2.trans hlogged, hline, hsame.1.trans hpart⟩
    dsimp only
    rw [if_neg hne, woken_eq]
    exact hpc

/-- The thread that writes is the one the output is torn by. -/
theorem torn_of_inside (h : Whole c ∨ Torn c) (howner : c.owner = some t) (rest : Bytes)
    (hpc : c.pc t = .write i j rest) : ∃ k whole part, t = some k ∧
      c.sh.logged = whole ++ [(k, i, j)] ∧ line i j = part ++ rest ∧ c.sh.out = texts whole ++ part := by
  rcases h with ⟨hfree, -⟩ | ⟨k, i', j', rest', whole, part, howner', hpc', hlogged, hline, hpart⟩
  · rw [hfree] at howner
    simp at howner
  · obtain rfl : some k = t := Option.some.inj (howner'.symm.trans howner)
    rw [hpc] at hpc'
    cases hpc'
    exact ⟨k, whole, part, rfl, hlogged, hline, hpart⟩

/-- **The output is whole lines and a part of one.** -/
theorem whole_or_torn {ok : State n → Option (Fin n) × Choice → Prop}
    (h : (prog n).lts.ReachIf ok c) : Whole c ∨ Torn c := by
  refine h.invariant (I := fun c : State n => Whole c ∨ Torn c) (.inl ⟨rfl, rfl⟩) ?_
  intro c a c' hc ih _ hs
  obtain ⟨s, p, e, hstep, hen, rfl⟩ := Prog.next_inv hs
  have hm := step_move hstep
  obtain ⟨t, x⟩ := a
  have hexcl := (locked n).excl hc t
  dsimp only at hm hen ⊢
  by_cases hquiet : (c.pc t).inside = false ∧ p.inside = false
  · obtain ⟨hout, hlogged, rfl⟩ := quiet_move hm hquiet.1 hquiet.2
    exact whole_or_torn_quiet ih hquiet.1 ⟨hout, hlogged⟩ p
  generalize hq : c.pc t = q at hm hexcl hquiet
  cases hm with
  | @lock k i j _ =>
    have hfree : c.owner = none := hen
    have hwhole : Whole c := by
      refine ih.resolve_right ?_
      rintro ⟨k', i', j', rest, whole, part, howner, -⟩
      rw [hfree] at howner
      simp at howner
    refine .inr ⟨k, i, j, line i j, c.sh.logged, [], rfl, if_pos rfl, rfl, rfl, ?_⟩
    rw [List.append_nil]
    exact hwhole.2
  | @write _ i j b rest =>
    have howner := hexcl.1 rfl
    obtain ⟨k, whole, part, rfl, hlogged, hline, hpart⟩ := torn_of_inside ih howner _ hq
    refine .inr ⟨k, i, j, rest, whole, part ++ [b], howner, if_pos rfl, hlogged, ?_, ?_⟩
    · rw [hline, List.append_assoc]
      rfl
    · dsimp only
      rw [hpart, List.append_assoc]
  | @unlock _ i j =>
    have howner := hexcl.1 rfl
    obtain ⟨k, whole, part, rfl, hlogged, hline, hpart⟩ := torn_of_inside ih howner _ hq
    refine .inl ⟨rfl, ?_⟩
    rw [List.append_nil] at hline
    dsimp only
    rw [hlogged, texts_concat, hpart, ← hline]
    rfl
  | _ => exact absurd ⟨rfl, rfl⟩ hquiet

/-! ## The messages of a thread -/

theorem messages_prefix {i m m' : ℕ} (h : m ≤ m') : messages i m <+: messages i m' := by
  obtain ⟨d, rfl⟩ := Nat.exists_eq_add_of_le h
  induction d with
  | zero => exact List.prefix_refl _
  | succ d ih =>
    have hstep : messages i (m + d) <+: messages i (m + (d + 1)) := by
      rw [← Nat.add_assoc, messages_succ]
      exact List.prefix_append _ _
    exact (ih (Nat.le_add_right m d)).trans hstep

/-- **The output is lines.** In every reachable state the output is the lines of the messages logged
so far, each whole and none inside another, except that the line of the thread that holds the mutex
may not be complete yet; and each thread has logged its messages in order, from the first on and none
twice. -/
theorem output_lines (h : (prog n).lts.Reach c) :
    (∃ whole part, c.sh.out = texts whole ++ part ∧
      ((part = [] ∧ c.sh.logged = whole) ∨
        ∃ m, c.sh.logged = whole ++ [m] ∧ part <+: text m ∧ c.owner = some (some m.1))) ∧
    ∀ k, c.sh.mine k <+: messages (k.val % 5 + 1) 5 := by
  refine ⟨?_, fun k => ?_⟩
  · rcases whole_or_torn h with ⟨-, hwhole⟩ | ⟨k, i, j, rest, whole, part, howner, -, hlogged, hline, hpart⟩
    · exact ⟨c.sh.logged, [], by rw [List.append_nil]; exact hwhole, .inl ⟨rfl, rfl⟩⟩
    · exact ⟨whole, part, hpart, .inr ⟨_, hlogged, ⟨rest, hline.symm⟩, howner⟩⟩
  · obtain ⟨hS, hT⟩ := thread_ok h (some k)
    cases hp : c.pc (some k) with
    | begin =>
      rw [hp] at hT
      rw [hT.2]
      exact List.nil_prefix
    | lock i j =>
      rw [hp] at hT
      obtain ⟨-, hi, hj, hj6, hmine⟩ := hT
      rw [hmine, hS.numbered k i hi]
      exact messages_prefix (by omega)
    | write i j rest =>
      rw [hp] at hT
      obtain ⟨-, hi, hj, hj5, hmine⟩ := hT
      rw [hmine, hS.numbered k i hi]
      exact messages_prefix hj5
    | done =>
      rw [hp] at hT
      rw [hS.complete k hT]
    | _ =>
      rw [hp] at hT
      exact hT.elim

/-- Two threads; the second has the mutex and has written three characters of its line. -/
theorem output_lines_two : ∃ (c : State 5) (whole : List (Fin 5 × ℕ × ℕ)) (part : Bytes),
    (prog 5).lts.Reach c ∧ c.owner = some (some 1) ∧ c.sh.out = texts whole ++ part ∧
    c.sh.out.length = 21 := by
  obtain ⟨c, hc, hend⟩ := Lts.exists_reachIf (prog 5).lts (fun _ _ => True)
    (startAlone ++ go (some 0) 21 ++ go (some 1) 5)
    (fun c => c.owner == some (some 1) && c.sh.out.length == 21) (by decide)
  rw [Bool.and_eq_true, beq_iff_eq, beq_iff_eq] at hend
  obtain ⟨⟨whole, part, hout, -⟩, -⟩ := output_lines hc
  exact ⟨c, whole, part, hc, hend.1, hout, hend.2⟩

/-! ## Steps -/

theorem length_toDecimal {m : ℕ} (h : m < 10) : (toDecimal m).length = 1 := by
  interval_cases m <;> decide

theorem length_line (hi : i < 10) (hj : j < 10) : (line i j).length = 18 := by
  have hthreads : (ascii "Threads ").length = 8 := by decide
  have hmsg : (ascii ": msg: ").length = 7 := by decide
  unfold line
  rw [List.length_append, List.length_append, List.length_append, List.length_append, hthreads, hmsg,
    length_toDecimal hi, length_toDecimal hj]
  rfl

/-- The steps a thread may still take, or the owner until its call is over. -/
def Pc.left (n : ℕ) : Pc → ℕ
  | .idle | .done => 0
  | .startFlag => 7
  | .startThread i => 7 - i
  | .stopFlag => n + 2
  | .stopJoin k => n - k + 1
  | .begin => 102
  | .lock _ j => 20 * (6 - j) + 1
  | .write _ j rest => rest.length + 20 * (5 - j) + 2

/-- The steps that a call pays for. -/
def Choice.pay (n : ℕ) : Choice → ℕ
  | .start => 8
  | .stop => n + 3
  | .go => 0

/-- **One step** uses up one of those left. -/
theorem left_move (hm : Move s t p x s' p' e) (hS : SharedOK s) (hT : ThreadOK s t p) :
    1 + p'.left n ≤ p.left n + x.pay n := by
  cases hm with
  | @lock k i j hj =>
    obtain ⟨-, hi, hj1, -, -⟩ := hT
    have hnum := hS.numbered _ _ hi
    have hlen : (line i j).length = 18 := length_line (by omega) (by omega)
    simp only [Pc.left, hlen]
    omega
  | @started _ i hi =>
    cases t with
    | none =>
      obtain ⟨-, hi6, -⟩ := hT
      simp only [Pc.left]
      omega
    | some k => exact hT.elim
  | write =>
    simp only [Pc.left, List.length_cons]
    omega
  | _ =>
    simp only [Pc.left, Choice.pay]
    omega

/-- No step is left over but a call, the beginning of a thread, or a loop that waits. -/
def Pc.rests : Pc → Bool
  | .idle | .begin | .done | .startThread _ | .stopJoin _ => true
  | _ => false

theorem goes_on (hT : ∀ t, ThreadOK c.sh t (c.pc t)) (t : Option (Fin n)) (hrest : (c.pc t).rests = false)
    (hmutex : (c.pc t).inside = true ∨ c.owner = none) :
    ∃ x s p e, (x == Choice.go) = true ∧ step t c.sh (c.pc t) x = some (s, p, e) ∧
      (prog n).Enabled c t e := by
  have hTt := hT t
  generalize c.pc t = p at hrest hmutex hTt
  cases p with
  | startFlag | stopFlag => exact ⟨.go, _, _, .tau, rfl, rfl, trivial⟩
  | lock i j =>
    have hfree : c.owner = none := hmutex.resolve_left (by simp [Pc.inside])
    cases t with
    | none => exact hTt.elim
    | some k =>
      by_cases hj : j ≤ 5
      · exact ⟨.go, _, _, .acquire, rfl, by rw [step, if_pos hj], hfree⟩
      · exact ⟨.go, _, _, .tau, rfl, by rw [step, if_neg hj], trivial⟩
  | write i j rest =>
    cases rest with
    | nil => exact ⟨.go, _, _, .release, rfl, rfl, trivial⟩
    | cons b rest => exact ⟨.go, _, _, .tau, rfl, rfl, trivial⟩
  | _ => simp [Pc.rests] at hrest

/-- Every thread made has returned and logged its five messages, nobody else has logged any, and the
output is the lines of those logged. -/
def Complete (c : State n) : Prop :=
  (∀ k : Fin n, k.val < c.sh.threads.length →
    c.pc (some k) = .done ∧ c.sh.mine k = messages (k.val % 5 + 1) 5) ∧
  (∀ k : Fin n, c.sh.threads.length ≤ k.val → c.sh.mine k = []) ∧
  c.sh.threads.length % 5 = 0 ∧ c.sh.out = texts c.sh.logged

/-- A thread that was not made has logged nothing. -/
theorem mine_of_unmade (hS : SharedOK s) (hT : ThreadOK s (some k) p) (hk : s.threads.length ≤ k.val) :
    s.mine k = [] := by
  cases p with
  | begin => exact hT.2
  | lock i j | write i j rest =>
    have hmade := (List.getElem?_eq_some_iff.1 hT.2.1).1
    omega
  | done =>
    have hmade := hS.made k hT
    omega
  | _ => exact hT.elim

/-- With all threads made returned, nobody is in the middle of a line. -/
theorem complete_of_finished {ok : State n → Option (Fin n) × Choice → Prop}
    (h : (prog n).lts.ReachIf ok c) (hmod : c.sh.threads.length % 5 = 0)
    (hfin : ∀ k : Fin n, k.val < c.sh.threads.length → c.sh.finished k = true) : Complete c := by
  have hOK := thread_ok h
  have hdone : ∀ k : Fin n, k.val < c.sh.threads.length → c.pc (some k) = .done := by
    intro k hk
    have hT := (hOK (some k)).2
    have hf := hfin k hk
    cases hp : c.pc (some k) with
    | done => rfl
    | begin | lock i j | write i j rest =>
      rw [hp] at hT
      have hnot := hT.1
      rw [hf] at hnot
      simp at hnot
    | _ =>
      rw [hp] at hT
      exact hT.elim
  refine ⟨fun k hk => ⟨hdone k hk, (hOK none).1.complete k (hfin k hk)⟩, fun k hk => ?_, hmod, ?_⟩
  · obtain ⟨hS, hT⟩ := hOK (some k)
    exact mine_of_unmade hS hT hk
  rcases whole_or_torn h with ⟨-, hwhole⟩ | ⟨k, i, j, rest, whole, part, -, hpc, -⟩
  · exact hwhole
  · have hT := (hOK (some k)).2
    rw [hpc] at hT
    have hk : k.val < c.sh.threads.length := (List.getElem?_eq_some_iff.1 hT.2.1).1
    rw [hdone k hk] at hpc
    simp at hpc

/-- When `stop` returns, it has joined every thread made. -/
theorem stop_complete {ok : State n → Option (Fin n) × Choice → Prop} {m : ℕ} {c' : State n}
    (h : (prog n).lts.ReachIf ok c) (hpc : c.pc none = .stopJoin m)
    (hs : (prog n).lts.step c (none, .go) = some c') (hidle : c'.pc none = .idle) : Complete c := by
  obtain ⟨hS, hT⟩ := thread_ok h none
  obtain ⟨s, p, e, hstep, -, rfl⟩ := Prog.next_inv hs
  dsimp only at hstep hidle
  rw [hpc] at hT hstep
  rw [if_pos rfl] at hidle
  have hm : Move c.sh none (.stopJoin m) .go s p e := step_move hstep
  cases hm with
  | stopped hend =>
    refine complete_of_finished h hT.1 fun k hk => hT.2 k ?_
    have hkn := k.isLt
    have hroom := hS.room
    omega
  | _ => simp at hidle

/-- In a state in which nobody can go on no step is open. -/
theorem no_step (hstuck : (prog n).Stuck (· == .go) c)
    (hs : step t c.sh (c.pc t) .go = some (s, p, .tau)) : False := by
  have hnone := hstuck t .go rfl
  have hsome := Prog.next_tau (M := prog n) hs
  rw [hsome] at hnone
  simp at hnone

/-- In such a state a thread that was made has returned. -/
theorem stuck_done {ok : State n → Option (Fin n) × Choice → Prop} (h : (prog n).lts.ReachIf ok c)
    (hstuck : (prog n).Stuck (· == .go) c) (k : Fin n) (hk : k.val < c.sh.threads.length) :
    c.sh.finished k = true := by
  have hT := fun t => (thread_ok h t).2
  obtain ⟨-, hrest⟩ := Prog.stuck_rests Pc.rests (locked n)
    (fun p hin => by cases p <;> simp [Pc.inside, Pc.rests] at hin ⊢) (goes_on hT) h hstuck
  have hr := hrest (some k)
  have hTk := hT (some k)
  cases hp : c.pc (some k) with
  | done =>
    rw [hp] at hTk
    exact hTk
  | begin =>
    obtain ⟨i, hi⟩ : ∃ i, c.sh.threads[k.val]? = some i := ⟨_, List.getElem?_eq_getElem hk⟩
    exact (no_step hstuck (t := some k) (by rw [hp, step, hi]; rfl)).elim
  | idle | startThread i | stopJoin m =>
    rw [hp] at hTk
    exact hTk.elim
  | _ =>
    rw [hp] at hr
    simp [Pc.rests] at hr

/-- **The logger completes.** Whatever the schedule, a run takes at most 102 steps for each thread,
eight for each `start`, and `n + 3` for each `stop`. When `stop` returns, every thread made has logged
its five messages, in order, nobody else has logged any, and the output is the lines of all of them,
whole. And in a state in which nobody can go on, with room for another thread, no call is left over and
the same holds. -/
theorem logger_completes {ok : State n → Option (Fin n) × Choice → Prop}
    {tr : List (Edge (State n) (Option (Fin n) × Choice))} (h : (prog n).lts.Traced ok tr c) :
    tr.length ≤ 102 * n + spent (fun e => e.label.2.pay n) tr ∧
    (∀ m c', c.pc none = .stopJoin m → (prog n).lts.step c (none, .go) = some c' →
      c'.pc none = .idle → Complete c) ∧
    ((prog n).Stuck (· == .go) c → c.sh.threads.length < n → c.pc none = .idle ∧ Complete c) := by
  refine ⟨?_, fun m c' => stop_complete h.reach, fun hstuck hroom => ?_⟩
  · have hpaid : tr.length ≤ total (Pc.left n) (prog n).start + 0 + spent (fun e => e.label.2.pay n) tr :=
      Prog.steps_le (Pc.left n) (fun _ => 0) 0 (Choice.pay n) (fun {v} _ => v.elim)
        (fun {c t x s p e} hc _ hs => by
          obtain ⟨hS, hT⟩ := thread_ok hc t
          have hmove := left_move (step_move hs) hS hT
          omega) h
    have hinit : total (Pc.left n) (prog n).start = 102 * n := by
      unfold total
      rw [Fintype.sum_option, Nat.mul_comm]
      simp [prog, Pc.left]
    rw [hinit] at hpaid
    exact hpaid
  · have hfin := stuck_done h.reach hstuck
    obtain ⟨hS, hT⟩ := thread_ok h.reach none
    obtain ⟨-, hrest⟩ := Prog.stuck_rests Pc.rests (locked n)
      (fun p hin => by cases p <;> simp [Pc.inside, Pc.rests] at hin ⊢)
      (goes_on fun t => (thread_ok h.reach t).2) h.reach hstuck
    have hr := hrest none
    have hidle : c.pc none = .idle := by
      cases hp : c.pc none with
      | idle => rfl
      | startThread i =>
        by_cases hi : i ≤ 5
        · exact (no_step hstuck (t := none) (by rw [hp, step, if_pos hi, dif_pos hroom])).elim
        · exact (no_step hstuck (t := none) (by rw [hp, step, if_neg hi])).elim
      | stopJoin m =>
        by_cases hm : m < c.sh.threads.length ∧ m < n
        · by_cases hj : c.sh.joinable ⟨m, hm.2⟩ = true
          · have hf := hfin ⟨m, hm.2⟩ hm.1
            exact (no_step hstuck (t := none) (by rw [hp, step, dif_pos hm, if_pos hj, if_pos hf])).elim
          · exact (no_step hstuck (t := none) (by rw [hp, step, dif_pos hm, if_neg hj])).elim
        · exact (no_step hstuck (t := none) (by rw [hp, step, dif_neg hm])).elim
      | begin | done =>
        rw [hp] at hT
        exact hT.elim
      | _ =>
        rw [hp] at hr
        simp [Pc.rests] at hr
    rw [hidle] at hT
    exact ⟨hidle, complete_of_finished h.reach hT hfin⟩

/-- A `start`, the first message of one of its threads, and a `stop` that waits for that thread. -/
theorem logger_completes_one : ∃ (c : State 5) (tr : List (Edge (State 5) (Option (Fin 5) × Choice))),
    (prog 5).lts.Traced (fun _ _ => True) tr c ∧ tr.length = 31 ∧
    tr.length ≤ 510 + spent (fun e => e.label.2.pay 5) tr ∧ c.pc none = .stopJoin 0 ∧
    ∀ m c', c.pc none = .stopJoin m → (prog 5).lts.step c (none, .go) = some c' →
      c'.pc none = .idle → Complete c := by
  obtain ⟨tr, c, htr, hend⟩ := Lts.exists_traced (prog 5).lts (fun _ _ => True)
    (startAlone ++ go (some 0) 21 ++ [(none, .stop), (none, .go)])
    (fun tr c => tr.length == 31 && c.pc none == .stopJoin 0) (by decide)
  rw [Bool.and_eq_true, beq_iff_eq, beq_iff_eq] at hend
  obtain ⟨hbound, hstop, -⟩ := logger_completes htr
  exact ⟨c, tr, htr, hend.1, hbound, hend.2, hstop⟩

end BackendTasks.Logger
