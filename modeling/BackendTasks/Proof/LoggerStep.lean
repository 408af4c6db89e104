import BackendTasks.Spec.Logger
import BackendTasks.Sched.Potential
import Mathlib.Data.Fintype.Option
import Mathlib.Data.List.Basic

/-!
# What a step of the logger can do

`Move` lists the steps of the owner and of the threads it makes (`step_move`). `ThreadOK` is what a
thread knows: the owner how many threads there are, a thread which messages it has logged
(`thread_ok`).
-/

namespace BackendTasks.Logger

open Sched Net

variable {n : ℕ} {s s' : Shared n} {p p' q : Pc} {x : Choice} {e : Effect (Option (Fin n)) Empty}

/-- The steps of a thread. -/
inductive Move (s : Shared n) : Option (Fin n) → Pc → Choice → Shared n → Pc →
    Effect (Option (Fin n)) Empty → Prop
  | callStart {t} : Move s t .idle .start s .startFlag .tau
  | callStop {t} : Move s t .idle .stop s .stopFlag .tau
  | startFlag {t} : Move s t .startFlag .go { s with running := true } (.startThread 1) .tau
  | emplace {t i} (h : s.threads.length < n) : i ≤ 5 → Move s t (.startThread i) .go
      { s with
        threads := s.threads ++ [i]
        joinable := Function.update s.joinable ⟨s.threads.length, h⟩ true } (.startThread (i + 1)) .tau
  | started {t i} : 5 < i → Move s t (.startThread i) .go s .idle .tau
  | stopFlag {t} : Move s t .stopFlag .go { s with running := false } (.stopJoin 0) .tau
  | join {t k} (h : k < n) : k < s.threads.length → s.finished ⟨k, h⟩ = true → Move s t (.stopJoin k) .go
      { s with joinable := Function.update s.joinable ⟨k, h⟩ false } (.stopJoin (k + 1)) .tau
  | skip {t k} (h : k < n) : k < s.threads.length → s.joinable ⟨k, h⟩ = false →
      Move s t (.stopJoin k) .go s (.stopJoin (k + 1)) .tau
  | stopped {t k} : ¬ (k < s.threads.length ∧ k < n) → Move s t (.stopJoin k) .go s .idle .tau
  | begin {k i} : s.threads[k.val]? = some i → Move s (some k) .begin .go s (.lock i 1) .tau
  | lock {k i j} : j ≤ 5 → Move s (some k) (.lock i j) .go
      { s with logged := s.logged ++ [(k, i, j)] } (.write i j (line i j)) .acquire
  | finish {k i j} : 5 < j → Move s (some k) (.lock i j) .go
      { s with finished := Function.update s.finished k true } .done .tau
  | write {t i j b rest} :
      Move s t (.write i j (b :: rest)) .go { s with out := s.out ++ [b] } (.write i j rest) .tau
  | unlock {t i j} : Move s t (.write i j []) .go s (.lock i (j + 1)) .release

variable {t : Option (Fin n)} {k : Fin n} {i j : ℕ}

theorem step_move (h : step t s p x = some (s', p', e)) : Move s t p x s' p' e := by
  cases p <;> cases x <;> simp only [step, reduceCtorEq] at h
  case startThread.go i =>
    split at h
    · rename_i hi
      split at h
      · rename_i hn
        cases h
        exact .emplace hn hi
      · simp at h
    · rename_i hi
      cases h
      exact .started (by omega)
  case stopJoin.go k =>
    split at h
    · rename_i hk
      split at h
      · rename_i hj
        split at h
        · rename_i hf
          cases h
          exact .join hk.2 hk.1 hf
        · simp at h
      · rename_i hj
        cases h
        exact .skip hk.2 hk.1 (by simpa using hj)
    · rename_i hk
      cases h
      exact .stopped hk
  case begin.go =>
    cases t with
    | none => simp at h
    | some k =>
      obtain ⟨i, hi, heq⟩ := Option.map_eq_some_iff.1 h
      cases heq
      exact .begin hi
  case lock.go i j =>
    cases t with
    | none => simp at h
    | some k =>
      simp only at h
      split at h
      · rename_i hj
        cases h
        exact .lock hj
      · rename_i hj
        cases h
        exact .finish (by omega)
  case write.go i j rest =>
    cases rest with
    | nil =>
      cases h
      exact .unlock
    | cons b rest =>
      cases h
      exact .write
  all_goals
    cases h
    constructor

/-- A thread holds the mutex while it writes. -/
def Pc.inside : Pc → Bool
  | .write _ _ _ => true
  | _ => false

theorem locked (n : ℕ) : (prog n).Locked Pc.inside where
  start t := by cases t <;> rfl
  step h := by
    cases step_move h with
    | unlock => exact ⟨rfl, rfl⟩
    | _ => rfl
  wake := by
    intro v
    exact v.elim

/-! ## What the threads know -/

/-- The messages that a thread has logged: `i` and `j` of each. -/
def Shared.mine (s : Shared n) (k : Fin n) : List (ℕ × ℕ) := (s.logged.filter (·.1 = k)).map Prod.snd

/-- The first `m` messages of a thread that has captured `i`. -/
def messages (i m : ℕ) : List (ℕ × ℕ) := (List.range' 1 m).map (i, ·)

theorem messages_succ (i m : ℕ) : messages i (m + 1) = messages i m ++ [(i, m + 1)] := by
  unfold messages
  rw [List.range'_concat, List.map_append, List.map_singleton, Nat.one_mul, Nat.add_comm]

/-- What holds of the fields. A thread that was joined has returned, and a thread that has returned
was made and has logged its five messages. -/
structure SharedOK (s : Shared n) : Prop where
  room : s.threads.length ≤ n
  made : ∀ k : Fin n, s.finished k = true → k.val < s.threads.length
  numbered : ∀ k i, s.threads[k]? = some i → i = k % 5 + 1
  joined : ∀ k : Fin n, k.val < s.threads.length → s.joinable k = true ∨ s.finished k = true
  complete : ∀ k : Fin n, s.finished k = true → s.mine k = messages (k.val % 5 + 1) 5

/-- What a thread knows. -/
def ThreadOK (s : Shared n) : Option (Fin n) → Pc → Prop
  | none, .startThread i => 1 ≤ i ∧ i ≤ 6 ∧ s.threads.length % 5 = (i - 1) % 5
  | none, .stopJoin m => s.threads.length % 5 = 0 ∧ ∀ k : Fin n, k.val < m → s.finished k = true
  | none, .idle | none, .startFlag | none, .stopFlag => s.threads.length % 5 = 0
  | some k, .begin => s.finished k = false ∧ s.mine k = []
  | some k, .lock i j =>
    s.finished k = false ∧ s.threads[k.val]? = some i ∧ 1 ≤ j ∧ j ≤ 6 ∧ s.mine k = messages i (j - 1)
  | some k, .write i j _ =>
    s.finished k = false ∧ s.threads[k.val]? = some i ∧ 1 ≤ j ∧ j ≤ 5 ∧ s.mine k = messages i j
  | some k, .done => s.finished k = true
  | _, _ => False

theorem mine_concat (s : Shared n) (k l : Fin n) (m : ℕ × ℕ) :
    Shared.mine { s with logged := s.logged ++ [(l, m)] } k =
      if l = k then s.mine k ++ [m] else s.mine k := by
  unfold Shared.mine
  dsimp only
  rw [List.filter_append, List.map_append]
  by_cases hlk : l = k
  · rw [if_pos hlk, List.filter_cons_of_pos (by simpa using hlk)]
    rfl
  · rw [if_neg hlk, List.filter_cons_of_neg (by simpa using hlk), List.filter_nil, List.map_nil,
      List.append_nil]

/-- A `start` gives its threads the numbers from 1 to 5. -/
theorem SharedOK.emplace (hS : SharedOK s) (hn : s.threads.length < n) (hi : 1 ≤ i) (hi5 : i ≤ 5)
    (hmod : s.threads.length % 5 = (i - 1) % 5) :
    SharedOK { s with
      threads := s.threads ++ [i]
      joinable := Function.update s.joinable ⟨s.threads.length, hn⟩ true } := by
  refine ⟨?_, fun k hk => ?_, fun k j hk => ?_, fun k hk => ?_, hS.complete⟩
  · rw [List.length_append]
    exact hn
  · rw [List.length_append]
    exact Nat.lt_add_right 1 (hS.made k hk)
  · by_cases hlt : k < s.threads.length
    · rw [List.getElem?_append_left hlt] at hk
      exact hS.numbered k j hk
    · rw [List.getElem?_append_right (by omega)] at hk
      obtain ⟨hzero, hj⟩ := List.getElem?_eq_some_iff.1 hk
      simp only [List.length_singleton] at hzero
      rw [List.getElem_singleton] at hj
      omega
  · dsimp only at hk ⊢
    rw [List.length_append, List.length_singleton] at hk
    by_cases hlast : k = ⟨s.threads.length, hn⟩
    · rw [hlast]
      exact .inl (Function.update_self ..)
    · rw [Function.update_of_ne hlast]
      have hne : k.val ≠ s.threads.length := fun heq => hlast (Fin.ext heq)
      exact hS.joined k (by omega)

/-- **A thread's own step.** -/
theorem ThreadOK.own (hS : SharedOK s) (hT : ThreadOK s t p) (hm : Move s t p x s' p' e) :
    SharedOK s' ∧ ThreadOK s' t p' := by
  cases hm with
  | callStart | callStop => cases t <;> exact ⟨hS, hT⟩
  | startFlag =>
    cases t with
    | none => exact ⟨⟨hS.room, hS.made, hS.numbered, hS.joined, hS.complete⟩, Nat.le_refl 1, by omega, hT⟩
    | some k => exact hT.elim
  | @emplace _ i hn hi5 =>
    cases t with
    | none =>
      obtain ⟨hi, -, hmod⟩ := hT
      refine ⟨hS.emplace hn hi hi5 hmod, by omega, by omega, ?_⟩
      dsimp only
      rw [List.length_append, List.length_singleton]
      omega
    | some k => exact hT.elim
  | @started _ i hi =>
    cases t with
    | none =>
      obtain ⟨-, hi6, hmod⟩ := hT
      have hfive : s.threads.length % 5 = 0 := by omega
      exact ⟨hS, hfive⟩
    | some k => exact hT.elim
  | stopFlag =>
    cases t with
    | none =>
      exact ⟨⟨hS.room, hS.made, hS.numbered, hS.joined, hS.complete⟩, hT,
        fun k hk => absurd hk (Nat.not_lt_zero _)⟩
    | some k => exact hT.elim
  | @join _ m hn hm hfin =>
    cases t with
    | none =>
      refine ⟨⟨hS.room, hS.made, hS.numbered, fun k hk => ?_, hS.complete⟩, hT.1, fun k hk => ?_⟩
      · dsimp only
        by_cases hkm : k = ⟨m, hn⟩
        · exact .inr (hkm ▸ hfin)
        · rw [Function.update_of_ne hkm]
          exact hS.joined k hk
      · rcases Nat.lt_succ_iff_lt_or_eq.1 hk with hlt | heq
        · exact hT.2 k hlt
        · have hkm : k = ⟨m, hn⟩ := Fin.ext heq
          exact hkm ▸ hfin
    | some k => exact hT.elim
  | @skip _ m hn hm hnot =>
    cases t with
    | none =>
      refine ⟨hS, hT.1, fun k hk => ?_⟩
      rcases Nat.lt_succ_iff_lt_or_eq.1 hk with hlt | heq
      · exact hT.2 k hlt
      · have hkm : k = ⟨m, hn⟩ := Fin.ext heq
        have hjoined := hS.joined k (by omega)
        rw [hkm, hnot] at hjoined
        exact hkm ▸ hjoined.resolve_left (by decide)
    | some k => exact hT.elim
  | stopped _ =>
    cases t with
    | none => exact ⟨hS, hT.1⟩
    | some k => exact hT.elim
  | begin hi => exact ⟨hS, hT.1, hi, Nat.le_refl 1, by omega, hT.2⟩
  | @lock k i j hj =>
    obtain ⟨hfin, hi, hj1, -, hmine⟩ := hT
    refine ⟨⟨hS.room, hS.made, hS.numbered, hS.joined, fun l hl => ?_⟩, hfin, hi, hj1, hj, ?_⟩
    · have hkl : k ≠ l := by
        rintro rfl
        rw [hfin] at hl
        simp at hl
      rw [mine_concat, if_neg hkl]
      exact hS.complete l hl
    · obtain ⟨m, rfl⟩ : ∃ m, j = m + 1 := ⟨j - 1, by omega⟩
      rw [mine_concat, if_pos rfl, hmine, messages_succ, Nat.add_sub_cancel]
  | @finish k i j hj =>
    obtain ⟨hfin, hi, hj1, hj6, hmine⟩ := hT
    have hjsix : j = 6 := by omega
    subst hjsix
    refine ⟨⟨hS.room, fun l hl => ?_, hS.numbered, fun l hl => ?_, fun l hl => ?_⟩,
      Function.update_self ..⟩
    · by_cases hlk : l = k
      · rw [hlk]
        exact (List.getElem?_eq_some_iff.1 hi).1
      · exact hS.made l ((Function.update_of_ne hlk ..).symm.trans hl)
    · dsimp only
      by_cases hlk : l = k
      · rw [hlk]
        exact .inr (Function.update_self ..)
      · rw [Function.update_of_ne hlk]
        exact hS.joined l hl
    · by_cases hlk : l = k
      · rw [hlk, ← hS.numbered k i hi]
        exact hmine
      · have hold : s.finished l = true := (Function.update_of_ne hlk ..).symm.trans hl
        exact hS.complete l hold
  | write =>
    cases t with
    | none => exact hT.elim
    | some k => exact ⟨⟨hS.room, hS.made, hS.numbered, hS.joined, hS.complete⟩, hT⟩
  | unlock =>
    cases t with
    | none => exact hT.elim
    | some k =>
      obtain ⟨hfin, hi, hj1, hj5, hmine⟩ := hT
      exact ⟨hS, hfin, hi, by omega, by omega, hmine⟩

/-- What a step does not touch: the threads there are, and what belongs to another thread. -/
theorem Move.frame (hm : Move s t p x s' p' e) :
    (∀ (m i : ℕ), s.threads[m]? = some i → s'.threads[m]? = some i) ∧
      ∀ k, t ≠ some k → s'.mine k = s.mine k ∧ s'.finished k = s.finished k := by
  cases hm with
  | emplace _ _ =>
    refine ⟨fun m i hm => ?_, fun _ _ => ⟨rfl, rfl⟩⟩
    have hlt := (List.getElem?_eq_some_iff.1 hm).1
    rw [List.getElem?_append_left hlt]
    exact hm
  | lock _ =>
    refine ⟨fun _ _ => id, fun k hk => ⟨?_, rfl⟩⟩
    rw [mine_concat, if_neg fun heq => hk (by rw [heq])]
  | finish _ =>
    refine ⟨fun _ _ => id, fun k hk => ⟨rfl, ?_⟩⟩
    exact Function.update_of_ne (fun heq => hk (by rw [heq])) ..
  | _ => exact ⟨fun _ _ => id, fun _ _ => ⟨rfl, rfl⟩⟩

/-- A thread of `threads_` makes no threads, and a thread that has returned stays so. -/
theorem Move.grows (hm : Move s (some k) p x s' p' e) (hT : ThreadOK s (some k) p) :
    s'.threads = s.threads ∧ ∀ l, s.finished l = true → s'.finished l = true := by
  cases hm with
  | emplace _ _ => exact hT.elim
  | finish _ =>
    refine ⟨rfl, fun l hl => ?_⟩
    by_cases hlk : l = k
    · rw [hlk]
      exact Function.update_self ..
    · exact (Function.update_of_ne hlk ..).trans hl
  | _ => exact ⟨rfl, fun _ => id⟩

/-- **A step of another thread.** -/
theorem ThreadOK.other {t' : Option (Fin n)} (hT : ThreadOK s t q) (hm : Move s t' p x s' p' e)
    (hne : t ≠ t') (hT' : ThreadOK s t' p) : ThreadOK s' t q := by
  obtain ⟨hthreads, hown⟩ := hm.frame
  cases t with
  | none =>
    obtain ⟨l, rfl⟩ := Option.ne_none_iff_exists'.1 hne.symm
    obtain ⟨hsame, hgrows⟩ := hm.grows hT'
    cases q with
    | stopJoin m =>
      obtain ⟨hmod, hjoined⟩ := hT
      exact ⟨hsame ▸ hmod, fun k hk => hgrows k (hjoined k hk)⟩
    | startThread i =>
      obtain ⟨hi, hi6, hmod⟩ := hT
      exact ⟨hi, hi6, hsame ▸ hmod⟩
    | idle | startFlag | stopFlag =>
      have hmod : s.threads.length % 5 = 0 := hT
      have hmod' : s'.threads.length % 5 = 0 := hsame ▸ hmod
      exact hmod'
    | _ => exact hT.elim
  | some k =>
    obtain ⟨hmine, hfin⟩ := hown k hne.symm
    cases q with
    | begin => exact ⟨hfin.trans hT.1, hmine.trans hT.2⟩
    | lock i j | write i j rest =>
      obtain ⟨hnot, hi, hj, hj', hlogged⟩ := hT
      exact ⟨hfin.trans hnot, hthreads _ _ hi, hj, hj', hmine.trans hlogged⟩
    | done => exact hfin.trans hT
    | _ => exact hT.elim

theorem woken_eq (e : Effect (Option (Fin n)) Empty) (t : Option (Fin n)) (q : Pc) :
    (prog n).woken e t q = q := by
  rcases (prog n).woken_cases e t q with heq | ⟨v, -⟩
  · exact heq
  · exact v.elim

theorem thread_ok {c : State n} {ok : State n → Option (Fin n) × Choice → Prop}
    (h : (prog n).lts.ReachIf ok c) : ∀ t, SharedOK c.sh ∧ ThreadOK c.sh t (c.pc t) := by
  refine Prog.thread_invariant (locked n) (fun t s p => SharedOK s ∧ ThreadOK s t p) (fun t => ?_) ?_ ?_ h
  · refine ⟨⟨Nat.zero_le n, nofun, nofun, nofun, nofun⟩, ?_⟩
    cases t with
    | none => exact Nat.zero_mod 5
    | some k => exact ⟨rfl, rfl⟩
  · intro c t x s p e _ _ hs hL
    exact hL.2.own hL.1 (step_move hs)
  · intro c t x s p e i _ _ hs hLt hne _ hL
    rw [woken_eq]
    exact ⟨(hLt.2.own hLt.1 (step_move hs)).1, hL.2.other (step_move hs) hne hLt.2⟩

end BackendTasks.Logger
