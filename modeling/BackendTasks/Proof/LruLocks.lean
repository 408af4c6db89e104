import BackendTasks.Spec.LruLocks
import BackendTasks.Proof.LruSize

/-!
# The locks of the cache make its calls atomic

`rest` is what is still done of a lock section, run to its end without anybody else in between.
While a thread is in its section, this gives what the whole call gives in the cache of the calls
that have ended (`Settled.inside`); so the last access of a call is the call, and all others are
nothing.

* `locks_refine`: the threads with their locks refine those whose calls are single steps.
* `locks_atomic`: so the calls return what they return one after the other, in the order of their
  last accesses, and no access has undefined behaviour.
* `size_atomic`: `size` and `empty` answer what was true between two of these calls.
-/

namespace BackendTasks.ConcurrentLru

open Sched

variable {ι Key Value : Type*} [DecidableEq Key] {hash : Key → ℕ} {capacity : ℕ}

/-- The lock section of a call: the stripe afterwards, and what the call returns. -/
def Call.locked (capacity : ℕ) (s : Striped Key Value) :
    Call Key Value → Option (Striped Key Value × Option Value)
  | .insert key value => (s.insert capacity key value).map fun s => (s, none)
  | .get key => s.get key

namespace Locks

theorem call_eq (c : Cache Key Value) (x : Call Key Value) :
    call hash capacity c x = (x.locked capacity (c (stripe hash x))).map fun r =>
      (Function.update c (stripe hash x) r.1, r.2) := by
  cases x with
  | insert key value =>
    simp only [call, Call.locked, stripe, Option.map_map]
    rfl
  | get key => rfl

/-- One more call. -/
theorem run_concat (c : Cache Key Value) (log : Log Key Value) (calls : List (Call Key Value))
    (x : Call Key Value) :
    run hash capacity c log (calls ++ [x]) = (run hash capacity c log calls).bind fun r =>
      (call hash capacity r.1 x).map fun r' => (r'.1, (x, r'.2) :: r.2) := by
  induction calls generalizing c log with
  | nil =>
    simp only [List.nil_append, run, Option.bind_some]
    cases call hash capacity c x <;> rfl
  | cons y calls ih =>
    simp only [List.cons_append, run]
    cases call hash capacity c y with
    | none => rfl
    | some r => exact ih r.1 _

/-! ## The rest of a lock section -/

/-- `insert` from `list_.emplace_front` on. -/
def tail (capacity : ℕ) (s : Striped Key Value) (key : Key) (value : Value) :
    Option (Striped Key Value) :=
  let s := (s.emplaceFront key value).setBegin key
  if s.list.length > capacity then s.evict else some s

/-- What is still done of a lock section. -/
def rest (capacity : ℕ) (s : Striped Key Value) :
    Point Key Value → Option (Striped Key Value × Option Value)
  | .contains key value => (s.insert capacity key value).map fun s => (s, none)
  | .lookup key value =>
    (s.data key).bind fun it =>
      (s.erase it).bind fun s => (tail capacity s key value).map fun s => (s, none)
  | .erase key value it =>
    (s.erase it).bind fun s => (tail capacity s key value).map fun s => (s, none)
  | .emplace key value => (tail capacity s key value).map fun s => (s, none)
  | .assign key _ =>
    (if (s.setBegin key).list.length > capacity then (s.setBegin key).evict
      else some (s.setBegin key)).map fun s => (s, none)
  | .test _ _ => (if s.list.length > capacity then s.evict else some s).map fun s => (s, none)
  | .back _ _ => s.evict.map fun s => (s, none)
  | .pop _ _ => s.list.getLast?.map fun _ => ({ s with list := s.list.dropLast }, none)
  | .getContains key | .find key => s.get key
  | .splice _ it => (s.splice it).bind fun s => (s.deref it).map fun nd => (s, some nd.value)
  | .read _ it => (s.deref it).map fun nd => (s, some nd.value)

theorem rest_begin (s : Striped Key Value) (x : Call Key Value) :
    rest capacity s (begin x) = x.locked capacity s := by
  cases x <;> rfl

/-- **One access** leaves the rest as it is. -/
theorem rest_access (s : Striped Key Value) (p : Point Key Value) :
    rest capacity s p = (access capacity s p).bind fun r =>
      r.2.elim (rest capacity r.1) fun result => some (r.1, result) := by
  cases p with
  | contains key value =>
    simp only [rest, access, Striped.insert, Striped.eraseKey, Option.bind_some, Sum.elim_inl]
    cases hdata : s.data key with
    | none => simp [tail]
    | some it =>
      simp only [Option.isSome_some, if_true, hdata, Option.bind_some]
      cases s.erase it <;> rfl
  | lookup key value =>
    simp only [rest, access]
    cases s.data key <;> rfl
  | erase key value it =>
    simp only [rest, access]
    cases s.erase it <;> rfl
  | emplace key value => rfl
  | assign key value => rfl
  | test key value =>
    simp only [rest, access, Option.bind_some]
    split <;> rfl
  | back key value =>
    simp only [rest, access, Striped.evict]
    cases hlast : s.list.getLast? <;> simp [rest, hlast]
  | pop key value =>
    simp only [rest, access]
    cases s.list.getLast? <;> rfl
  | getContains key =>
    simp only [rest, access, Option.bind_some]
    cases hdata : s.data key with
    | none => simp [Striped.get, hdata]
    | some it => simp [rest]
  | find key =>
    simp only [rest, access, Striped.get]
    cases s.data key <;> rfl
  | splice key it =>
    simp only [rest, access]
    cases s.splice it <;> rfl
  | read key it =>
    simp only [rest, access]
    cases s.deref it <;> rfl

omit [DecidableEq Key] in
@[simp] theorem begin_call (x : Call Key Value) : (begin x).call = x := by
  cases x <;> rfl

/-- An access stays in its call. -/
theorem access_call {s s' : Striped Key Value} {p p' : Point Key Value}
    (h : access capacity s p = some (s', .inl p')) : p'.call = p.call := by
  cases p <;> simp only [access] at h
  case contains =>
    split at h
    all_goals
      cases h
      rfl
  case getContains | find =>
    split at h
    · cases h
      rfl
    · cases h
  case test =>
    split at h
    · cases h
      rfl
    · cases h
  case emplace | assign =>
    cases h
    rfl
  case pop | read =>
    obtain ⟨r, -, heq⟩ := Option.map_eq_some_iff.1 h
    cases heq
  all_goals
    obtain ⟨r, -, heq⟩ := Option.map_eq_some_iff.1 h
    cases heq
    rfl

/-! ## The threads -/

/-- The lock on stripe `i` alone, in this mode. -/
def onStripe (i : Fin 16) (mode : LockMode) : Fin 16 → Option LockMode :=
  fun j => if j = i then some mode else none

@[simp] theorem onStripe_self (i : Fin 16) (mode : LockMode) : onStripe i mode i = some mode :=
  if_pos rfl

theorem onStripe_of_ne {i j : Fin 16} (mode : LockMode) (h : j ≠ i) : onStripe i mode j = none :=
  if_neg h

/-- A stripe held shared is held exclusively nowhere. -/
theorem onStripe_shared (i j : Fin 16) : onStripe i .shared j ≠ some .exclusive := by
  unfold onStripe
  split <;> simp

/-- Where the thread holds a lock, and how. -/
def Pc.holds (hash : Key → ℕ) : Pc Key Value → Fin 16 → Option LockMode
  | .outside _ => fun _ => none
  | .inside p => onStripe (stripe hash p.call) .exclusive
  | .leaving x => onStripe (stripe hash x) .exclusive
  | .sizeLook i _ _ | .emptyLook i _ | .unlook i _ => onStripe i .shared

omit [DecidableEq Key] in
theorem holds_outside (p : ConcurrentLru.Pc) (i : Fin 16) :
    (Pc.outside p : Pc Key Value).holds hash i ≠ some .exclusive := by
  simp [Pc.holds]

/-- Where the thread is when an `insert` and a `get` are one step. -/
def Pc.abs : Pc Key Value → ConcurrentLru.Pc
  | .outside p | .unlook _ p => p
  | .inside _ | .leaving _ => .idle
  | .sizeLook i total start => .size i total start
  | .emptyLook i start => .empty i start

variable [DecidableEq ι] {s s' : Shared ι Key Value} {p p' q : Pc Key Value} {x : Choice Key Value}
  {t u : ι} {i : Fin 16} {m : SharedMutex ι} {mode : LockMode}

/-- **What a step of a thread can do.** In a `calm` one it reads under a shared lock, or touches no
stripe; it is one of the same thread without the locks. -/
inductive Move (hash : Key → ℕ) (capacity : ℕ) (t : ι) (s : Shared ι Key Value) :
    Pc Key Value → Shared ι Key Value → Pc Key Value → Prop
  | begin (x : Call Key Value) (m : SharedMutex ι)
    (h : (s.shm (stripe hash x)).acquire t .exclusive = some m) :
    Move hash capacity t s (.outside .idle) (s.setShm (stripe hash x) m) (.inside (begin x))
  | access (p p' : Point Key Value) (st : Striped Key Value)
    (h : access capacity (s.striped (stripe hash p.call)) p = some (st, .inl p')) :
    Move hash capacity t s (.inside p) (s.setStriped (stripe hash p.call) st) (.inside p')
  | finish (p : Point Key Value) (st : Striped Key Value) (r : Option Value)
    (h : access capacity (s.striped (stripe hash p.call)) p = some (st, .inr r)) :
    Move hash capacity t s (.inside p) ((s.setStriped (stripe hash p.call) st).finish t p.call r)
      (.leaving p.call)
  | share (p : Pc Key Value) (i : Fin 16) (m : SharedMutex ι)
    (h : (s.shm i).acquire t .shared = some m) (hp : p.holds hash = onStripe i .shared) :
    Move hash capacity t s (.outside p.abs) (s.setShm i m) p
  | calm (p p' : Pc Key Value) (hmode : ∀ i, p.holds hash i ≠ some .exclusive)
    (hholds : p'.holds hash = p.holds hash)
    (h : ∀ a : ConcurrentLru.Shared Key Value, a.past.length = s.log.length →
      (∀ i, p.holds hash i = some .shared → a.striped i = s.striped i) →
      ∃ x, ConcurrentLru.step hash capacity a p.abs x = some (a, p'.abs)) :
    Move hash capacity t s p s p'
  | unlock (p : Pc Key Value) (i : Fin 16) (mode : LockMode) (hin : ∀ q, p ≠ .inside q)
    (hp : p.holds hash = onStripe i mode) :
    Move hash capacity t s p (s.setShm i ((s.shm i).release t)) (.outside p.abs)

theorem step_move (h : step hash capacity t s p x = some (s', p')) :
    Move hash capacity t s p s' p' := by
  cases p with
  | outside p =>
    cases p <;> cases x <;> simp only [step, reduceCtorEq] at h
    case idle.call y =>
      obtain ⟨m, hm, heq⟩ := Option.map_eq_some_iff.1 h
      cases heq
      exact .begin y m hm
    case idle.size =>
      cases h
      refine .calm _ _ (holds_outside _) rfl fun a hlen _ => ⟨.size, ?_⟩
      simp only [ConcurrentLru.step, Pc.abs, hlen]
    case idle.empty =>
      cases h
      refine .calm _ _ (holds_outside _) rfl fun a hlen _ => ⟨.empty, ?_⟩
      simp only [ConcurrentLru.step, Pc.abs, hlen]
    case size.go i total start =>
      split at h
      · rename_i hi
        obtain ⟨m, hm, heq⟩ := Option.map_eq_some_iff.1 h
        cases heq
        exact .share (.sizeLook ⟨i, hi⟩ total start) _ m hm rfl
      · rename_i hi
        cases h
        refine .calm _ _ (holds_outside _) rfl fun a _ _ => ⟨.go, ?_⟩
        simp only [ConcurrentLru.step, Pc.abs, hi, dite_false]
    case empty.go i start =>
      split at h
      · rename_i hi
        obtain ⟨m, hm, heq⟩ := Option.map_eq_some_iff.1 h
        cases heq
        exact .share (.emptyLook ⟨i, hi⟩ start) _ m hm rfl
      · rename_i hi
        cases h
        refine .calm _ _ (holds_outside _) rfl fun a _ _ => ⟨.go, ?_⟩
        simp only [ConcurrentLru.step, Pc.abs, hi, dite_false]
    case sizeReturn.go | emptyReturn.go =>
      cases h
      exact .calm _ _ (holds_outside _) rfl fun a _ _ => ⟨.go, rfl⟩
  | inside p =>
    cases x <;> simp only [step, reduceCtorEq] at h
    obtain ⟨⟨st, next⟩, hst, heq⟩ := Option.map_eq_some_iff.1 h
    cases next with
    | inl p' =>
      cases heq
      exact .access p p' st hst
    | inr r =>
      cases heq
      exact .finish p st r hst
  | leaving y =>
    cases x <;> simp only [step, reduceCtorEq] at h
    cases h
    exact .unlock (.leaving y) (stripe hash y) .exclusive (by simp) rfl
  | sizeLook i total start =>
    cases x <;> simp only [step, reduceCtorEq] at h
    cases h
    refine .calm _ _ (onStripe_shared i) rfl fun a _ hread => ⟨.go, ?_⟩
    rw [← hread i (onStripe_self i .shared)]
    simp only [ConcurrentLru.step, Pc.abs, i.isLt, dite_true]
  | emptyLook i start =>
    cases x <;> simp only [step, reduceCtorEq] at h
    have hcoarse : ∀ a : ConcurrentLru.Shared Key Value,
        (∀ j, onStripe i .shared j = some .shared → a.striped j = s.striped j) →
        ConcurrentLru.step hash capacity a (.empty i start) .go =
          if !(s.striped i).list.isEmpty then some (a, .emptyReturn false start)
          else some (a, .empty (i + 1) start) := by
      intro a hread
      rw [← hread i (onStripe_self i .shared)]
      simp only [ConcurrentLru.step, i.isLt, dite_true]
    split at h
    · rename_i hne
      cases h
      refine .calm _ _ (onStripe_shared i) rfl fun a _ hread => ⟨.go, ?_⟩
      exact (hcoarse a hread).trans (if_pos hne)
    · rename_i hempty
      cases h
      refine .calm _ _ (onStripe_shared i) rfl fun a _ hread => ⟨.go, ?_⟩
      exact (hcoarse a hread).trans (if_neg hempty)
  | unlook i p =>
    cases x <;> simp only [step, reduceCtorEq] at h
    cases h
    exact .unlock (.unlook i p) i .shared (by simp) rfl

/-- The thread holds the locks that its control point says. -/
def Holding (hash : Key → ℕ) (t : ι) (s : Shared ι Key Value) (p : Pc Key Value) : Prop :=
  ∀ i, (s.shm i).held t = p.holds hash i

omit [DecidableEq Key] in
theorem held_setShm (s : Shared ι Key Value) (hm : m.held u = (s.shm i).held u) (j : Fin 16) :
    ((s.setShm i m).shm j).held u = (s.shm j).held u := by
  unfold Shared.setShm
  by_cases hj : j = i
  · subst hj
    simp [hm]
  · simp [hj]

/-- A thread's own step. -/
theorem Holding.own (h : Holding hash t s p) (hmove : Move hash capacity t s p s' p') :
    Holding hash t s' p' := by
  have hlock : ∀ {i m mode}, (s.shm i).acquire t mode = some m → (∀ j, (s.shm j).held t = none) →
      ∀ j, ((s.setShm i m).shm j).held t = onStripe i mode j := by
    intro i m mode hm hnone j
    by_cases hj : j = i
    · subst hj
      simp [Shared.setShm, SharedMutex.held_acquire hm]
    · simpa [Shared.setShm, hj, onStripe_of_ne mode hj] using hnone j
  cases hmove with
  | begin x m hm =>
    intro i
    rw [Pc.holds, begin_call]
    exact hlock hm h i
  | access p p' st hst =>
    intro i
    rw [Pc.holds, access_call hst]
    exact h i
  | finish p st r hst => exact h
  | share p i m hm hp =>
    intro j
    rw [hp]
    exact hlock hm h j
  | calm p p' hmode hholds hstep =>
    intro i
    rw [hholds]
    exact h i
  | unlock p i mode hin hp =>
    intro j
    by_cases hj : j = i
    · subst hj
      simp [Shared.setShm, Pc.holds, SharedMutex.held_release]
    · have hnone := h j
      rw [hp, onStripe_of_ne mode hj] at hnone
      simpa [Shared.setShm, Pc.holds, hj] using hnone

/-- Another thread's step. -/
theorem Holding.other (h : Holding hash u s q) (hu : u ≠ t)
    (hmove : Move hash capacity t s p s' p') :
    Holding hash u s' q := by
  cases hmove with
  | begin x m hm =>
    intro i
    exact (held_setShm s (SharedMutex.held_acquire_of_ne hm hu) i).trans (h i)
  | share p i m hm hp =>
    intro j
    exact (held_setShm s (SharedMutex.held_acquire_of_ne hm hu) j).trans (h j)
  | unlock p i mode hin hp =>
    intro j
    exact (held_setShm s (SharedMutex.held_release_of_ne hu) j).trans (h j)
  | access p p' st hst => exact h
  | finish p st r hst => exact h
  | calm p p' hmode hholds hstep => exact h

/-! ## The refinement -/

/-- The calls in the log, the first one first. -/
def calls (log : List (ι × Call Key Value × Option Value)) : List (Call Key Value) :=
  (log.map fun e => e.2.1).reverse

/-- The instants are those of the calls in the log, one after the other. -/
structure History (hash : Key → ℕ) (capacity : ℕ) (log : List (ι × Call Key Value × Option Value))
    (a : ConcurrentLru.Shared Key Value) : Prop where
  length : a.past.length = log.length
  ran : run hash capacity construct [] (calls log) = some (a.striped, log.map Prod.snd)
  instants : ∀ k d, a.instants[k]? = some d →
    ∃ l, run hash capacity construct [] ((calls log).take k) = some (d, l)

omit [DecidableEq ι] in
theorem History.init :
    History hash capacity ([] : List (ι × Call Key Value × Option Value)) ⟨construct, []⟩ := by
  refine ⟨rfl, rfl, fun k d hd => ⟨[], ?_⟩⟩
  obtain ⟨hlt, heq⟩ := List.getElem?_eq_some_iff.1 hd
  obtain rfl : k = 0 := by
    simp only [Shared.instants, List.nil_append, List.length_singleton] at hlt
    omega
  rw [← heq]
  rfl

omit [DecidableEq ι] in
theorem History.finish {log : List (ι × Call Key Value × Option Value)}
    {a : ConcurrentLru.Shared Key Value} {d : Cache Key Value} {r : Option Value}
    {x : Call Key Value}
    (h : History hash capacity log a) (hx : call hash capacity a.striped x = some (d, r)) (t : ι) :
    History hash capacity ((t, x, r) :: log) ⟨d, a.instants⟩ := by
  have hcalls : calls ((t, x, r) :: log) = calls log ++ [x] := by simp [calls]
  have hran : run hash capacity construct [] (calls ((t, x, r) :: log)) =
      some (d, ((t, x, r) :: log).map Prod.snd) := by
    rw [hcalls, run_concat, h.ran, Option.bind_some, hx]
    rfl
  have hinstants : a.instants.length = log.length + 1 := by
    rw [Shared.instants, List.length_append, h.length]
    rfl
  have hlen : (calls log).length = log.length := by simp [calls]
  refine ⟨hinstants, hran, fun k e he => ?_⟩
  by_cases hk : k < a.instants.length
  · obtain ⟨l, hl⟩ := h.instants k e (by rwa [Shared.instants, List.getElem?_append_left hk] at he)
    refine ⟨l, ?_⟩
    rw [hcalls, List.take_append_of_le_length (by omega)]
    exact hl
  · obtain ⟨hlt, heq⟩ := List.getElem?_eq_some_iff.1 he
    have hk' : k = a.instants.length := by
      simp only [Shared.instants, List.length_append, List.length_singleton] at hlt hk ⊢
      omega
    subst hk'
    have hde : d = e := by simpa [Shared.instants] using heq
    subst hde
    refine ⟨((t, x, r) :: log).map Prod.snd, ?_⟩
    rw [List.take_of_length_le (by rw [hcalls, List.length_append, hlen, hinstants]; rfl)]
    exact hran

/-- A stripe in which no thread is between two accesses is that of the calls that have ended. What
is still done in the others gives what the whole call gives. -/
structure Settled (hash : Key → ℕ) (capacity : ℕ) (c d : Cache Key Value) (pc : ι → Pc Key Value) :
    Prop where
  outside : ∀ i, (∀ t p, pc t = .inside p → stripe hash p.call ≠ i) → c i = d i
  inside : ∀ t p, pc t = .inside p →
    rest capacity (c (stripe hash p.call)) p = p.call.locked capacity (d (stripe hash p.call))

namespace Settled

variable {c d : Cache Key Value} {pc : ι → Pc Key Value}

omit [DecidableEq ι] in
/-- Nobody is in a call. -/
theorem idle (h : ∀ t, pc t = .outside .idle) : Settled hash capacity c c pc := by
  refine ⟨fun _ _ => rfl, fun t p hp => ?_⟩
  rw [h t] at hp
  cases hp

theorem calm (h : Settled hash capacity c d pc) (ht : ∀ q, pc t ≠ .inside q)
    (hp : ∀ q, p ≠ .inside q) :
    Settled hash capacity c d (Function.update pc t p) := by
  refine ⟨fun i hi => h.outside i fun u q hu => hi u q ?_, fun u q hu => h.inside u q ?_⟩
  · have hne : u ≠ t := by
      rintro rfl
      exact ht q hu
    rwa [Function.update_of_ne hne]
  · have hne : u ≠ t := by
      rintro rfl
      rw [Function.update_self] at hu
      exact hp q hu
    rwa [Function.update_of_ne hne] at hu

theorem begin (h : Settled hash capacity c d pc) {x : Call Key Value} (ht : ∀ q, pc t ≠ .inside q)
    (hfree : ∀ u q, pc u = .inside q → stripe hash q.call ≠ stripe hash x) :
    Settled hash capacity c d (Function.update pc t (.inside (begin x))) := by
  refine ⟨fun i hi => h.outside i fun u q hu => hi u q ?_, fun u q hu => ?_⟩
  · have hne : u ≠ t := by
      rintro rfl
      exact ht q hu
    rwa [Function.update_of_ne hne]
  · by_cases hne : u = t
    · subst hne
      rw [Function.update_self] at hu
      cases hu
      rw [rest_begin, begin_call, h.outside _ hfree]
    · rw [Function.update_of_ne hne] at hu
      exact h.inside u q hu

theorem access (h : Settled hash capacity c d pc) {p p' : Point Key Value} {st : Striped Key Value}
    (ht : pc t = .inside p)
    (hexcl : ∀ u q, u ≠ t → pc u = .inside q → stripe hash q.call ≠ stripe hash p.call)
    (hst : Locks.access capacity (c (stripe hash p.call)) p = some (st, .inl p')) :
    Settled hash capacity (Function.update c (stripe hash p.call) st) d
      (Function.update pc t (.inside p')) := by
  have hcall := access_call hst
  refine ⟨fun i hi => ?_, fun u q hu => ?_⟩
  · have hne : stripe hash p.call ≠ i := by
      rw [← hcall]
      exact hi t p' (Function.update_self ..)
    rw [Function.update_of_ne hne.symm]
    refine h.outside i fun u q hu => ?_
    by_cases hut : u = t
    · subst hut
      rw [ht] at hu
      cases hu
      exact hne
    · exact hi u q (by rwa [Function.update_of_ne hut])
  · by_cases hut : u = t
    · subst hut
      rw [Function.update_self] at hu
      cases hu
      have hrest := h.inside _ p ht
      rw [rest_access, hst] at hrest
      rw [hcall, Function.update_self]
      exact hrest
    · rw [Function.update_of_ne hut] at hu
      rw [Function.update_of_ne (hexcl u q hut hu)]
      exact h.inside u q hu

/-- **The last access of a call is the call.** -/
theorem finish (h : Settled hash capacity c d pc) {p : Point Key Value} {st : Striped Key Value}
    {r : Option Value} (ht : pc t = .inside p)
    (hexcl : ∀ u q, u ≠ t → pc u = .inside q → stripe hash q.call ≠ stripe hash p.call)
    (hst : Locks.access capacity (c (stripe hash p.call)) p = some (st, .inr r)) :
    ∃ d', call hash capacity d p.call = some (d', r) ∧
      Settled hash capacity (Function.update c (stripe hash p.call) st) d'
        (Function.update pc t (.leaving p.call)) := by
  have hlocked : p.call.locked capacity (d (stripe hash p.call)) = some (st, r) := by
    rw [← h.inside _ p ht, rest_access, hst]
    rfl
  refine ⟨Function.update d (stripe hash p.call) st, by rw [call_eq, hlocked]; rfl, fun i hi => ?_,
    fun u q hu => ?_⟩
  · by_cases hi' : i = stripe hash p.call
    · subst hi'
      rw [Function.update_self, Function.update_self]
    · rw [Function.update_of_ne hi', Function.update_of_ne hi']
      refine h.outside i fun u q hu => ?_
      by_cases hut : u = t
      · subst hut
        rw [ht] at hu
        cases hu
        exact Ne.symm hi'
      · exact hi u q (by rwa [Function.update_of_ne hut])
  · have hut : u ≠ t := by
      rintro rfl
      rw [Function.update_self] at hu
      cases hu
    rw [Function.update_of_ne hut] at hu
    rw [Function.update_of_ne (hexcl u q hut hu), Function.update_of_ne (hexcl u q hut hu)]
    exact h.inside u q hu

end Settled

/-- What a state of the threads with their locks is without them. -/
structure Refines (hash : Key → ℕ) (capacity : ℕ) (c : State ι Key Value)
    (a : ConcurrentLru.State ι Key Value) : Prop where
  pcs : ∀ t, a.pc t = (c.pc t).abs
  history : History hash capacity c.sh.log a.sh
  settled : Settled hash capacity c.sh.striped a.sh.striped c.pc

variable {c : State ι Key Value} {a : ConcurrentLru.State ι Key Value}

omit [DecidableEq Key] in
theorem abs_update {pc : ι → Pc Key Value} {apc : ι → ConcurrentLru.Pc}
    (h : ∀ u, apc u = (pc u).abs) (t : ι) (p : Pc Key Value) (u : ι) :
    Function.update apc t p.abs u = (Function.update pc t p u).abs := by
  by_cases hu : u = t
  · subst hu
    simp
  · simp [hu, h u]

/-- A step that is nothing without the locks. -/
theorem Refines.stutter (h : Refines hash capacity c a) (hlog : s.log = c.sh.log)
    (habs : p.abs = (c.pc t).abs)
    (hsettled : Settled hash capacity s.striped a.sh.striped (Function.update c.pc t p)) :
    Refines hash capacity ⟨c.owner, s, Function.update c.pc t p⟩ a := by
  refine ⟨fun u => ?_, hlog ▸ h.history, hsettled⟩
  rw [← abs_update h.pcs t p u, habs, ← h.pcs t, Function.update_eq_self]

variable [Fintype ι]

theorem holding (h : (prog ι Value hash capacity).lts.Reach c) (t : ι) :
    Holding hash t c.sh (c.pc t) := by
  refine (Prog.plain_invariant (f := step hash capacity) (fun _ _ _ _ => rfl) (fun _ => True)
    (fun t s p => Holding hash t s p) trivial (fun t i => SharedMutex.held_free) ?_ ?_ h).2 t
  · intro c t x s p _ _ hs _ hL
    exact ⟨trivial, hL.own (step_move hs)⟩
  · intro c t x s p u _ _ hs _ _ hu hL
    exact hL.other hu (step_move hs)

/-- **Exclusion.** Only one thread is between two accesses of a stripe. -/
theorem inside_exclusive (h : (prog ι Value hash capacity).lts.Reach c) {p q : Point Key Value}
    (ht : c.pc t = .inside p) (hu : u ≠ t) (hq : c.pc u = .inside q) :
    stripe hash q.call ≠ stripe hash p.call := by
  intro heq
  have hheld : (c.sh.shm (stripe hash p.call)).held t = some .exclusive := by
    rw [holding h t, ht]
    exact onStripe_self ..
  have hnone := SharedMutex.held_exclusive hheld hu
  rw [holding h u, hq, ← heq] at hnone
  simp [Pc.holds] at hnone

/-- A thread that may read or write a stripe finds nobody between two accesses of it. -/
theorem nobody_inside (h : (prog ι Value hash capacity).lts.Reach c)
    (hi : ∀ u, (c.sh.shm i).held u ≠ some .exclusive) (u : ι) (q : Point Key Value)
    (hq : c.pc u = .inside q) : stripe hash q.call ≠ i := by
  rintro rfl
  refine hi u ?_
  rw [holding h u, hq]
  exact onStripe_self ..

/-- **The threads with their locks refine those whose `insert` and `get` are single steps.** -/
theorem locks_refine (h : (prog ι Value hash capacity).lts.Reach c) :
    ∃ a, (ConcurrentLru.prog ι Value hash capacity).lts.Reach a ∧ Refines hash capacity c a := by
  refine h.invariant (I := fun c => ∃ a, (ConcurrentLru.prog ι Value hash capacity).lts.Reach a ∧
    Refines hash capacity c a) ⟨_, .init, fun _ => rfl, History.init, .idle fun _ => rfl⟩ ?_
  rintro c ⟨t, x⟩ c' hc ⟨a, ha, href⟩ - hstep
  obtain ⟨s, p, hs, rfl⟩ := Prog.plain_inv (f := step hash capacity) (fun _ _ _ _ => rfl) hstep
  have hmove := step_move hs
  generalize hp : c.pc t = q at hmove
  have hexcl : ∀ r, q = .inside r → ∀ u q, u ≠ t → c.pc u = .inside q →
      stripe hash q.call ≠ stripe hash r.call :=
    fun r hr u q hu hq => inside_exclusive hc (hp.trans hr) hu hq
  have hcoarse : ∀ {y b p'}, ConcurrentLru.step hash capacity a.sh q.abs y = some (b, p') →
      (ConcurrentLru.prog ι Value hash capacity).lts.Reach
        ⟨a.owner, b, Function.update a.pc t p'⟩ := by
    intro y b p' hy
    refine .step (a := (t, y)) ha trivial ?_
    refine Prog.plain_of (f := fun _ => ConcurrentLru.step hash capacity) (fun _ _ _ _ => rfl) ?_
    rw [href.pcs, hp]
    exact hy
  cases hmove with
  | begin x m hm =>
    refine ⟨a, ha, href.stutter rfl (by rw [hp]; rfl) (href.settled.begin (by simp [hp]) ?_)⟩
    refine nobody_inside hc fun u => ?_
    rw [SharedMutex.held_of_acquire hm]
    simp
  | access p p' st hst =>
    exact ⟨a, ha, href.stutter rfl (by rw [hp]; rfl) (href.settled.access hp (hexcl p rfl) hst)⟩
  | finish p st r hst =>
    obtain ⟨d, hd, hsettled⟩ := href.settled.finish hp (hexcl p rfl) hst
    have hy : ConcurrentLru.step hash capacity a.sh (Pc.inside p).abs (.call p.call) =
        some (⟨d, a.sh.instants⟩, .idle) := by
      simp only [ConcurrentLru.step, Pc.abs, hd, Option.map_some]
    exact ⟨_, hcoarse hy, abs_update href.pcs t (.leaving p.call),
      href.history.finish hd t, hsettled⟩
  | share p i m hm hholds =>
    refine ⟨a, ha, href.stutter rfl (by rw [hp]; rfl) (href.settled.calm (by simp [hp]) ?_)⟩
    rintro q rfl
    have hmode := congrFun hholds (stripe hash q.call)
    rw [Pc.holds, onStripe_self] at hmode
    exact onStripe_shared _ _ hmode.symm
  | calm _ _ hmode hholds hread =>
    have hin : ∀ r, q ≠ .inside r := by
      rintro r rfl
      exact hmode _ (onStripe_self (stripe hash r.call) .exclusive)
    have hin' : ∀ r, p ≠ .inside r := by
      rintro r rfl
      rw [← hholds] at hmode
      exact hmode _ (onStripe_self (stripe hash r.call) .exclusive)
    -- a stripe that the thread holds shared has no writer
    have hsame : ∀ i, q.holds hash i = some .shared → a.sh.striped i = c.sh.striped i := by
      intro i hi
      refine (href.settled.outside i (nobody_inside hc fun u hu => ?_)).symm
      have hheld : (c.sh.shm i).held t = some .shared := by rw [holding hc t, hp, hi]
      by_cases hut : u = t
      · subst hut
        rw [hheld] at hu
        cases hu
      · rw [SharedMutex.held_exclusive hu (Ne.symm hut)] at hheld
        cases hheld
    obtain ⟨y, hy⟩ := hread a.sh href.history.length hsame
    exact ⟨_, hcoarse hy, abs_update href.pcs t p, href.history,
      href.settled.calm (by rw [hp]; exact hin) hin'⟩
  | unlock p i mode hin hholds =>
    exact ⟨a, ha, href.stutter rfl (by rw [hp]; rfl)
      (href.settled.calm (by rw [hp]; exact hin) (by simp))⟩

/-! ## Every run -/

/-- No access has undefined behaviour: otherwise the call would have it in the cache of the calls
that have ended. -/
theorem access_isSome (h : (prog ι Value hash capacity).lts.Reach c) {p : Point Key Value}
    (hp : c.pc t = .inside p) :
    (access capacity (c.sh.striped (stripe hash p.call)) p).isSome = true := by
  obtain ⟨a, ha, href⟩ := locks_refine h
  obtain ⟨log, hcached⟩ := (threads_ok ha).1.cached
  obtain ⟨d, r, hcall, -⟩ := hcached.call p.call
  rw [Option.isSome_iff_ne_none]
  intro hnone
  have hrest := href.settled.inside t p hp
  rw [rest_access, hnone, Option.bind_none] at hrest
  rw [call_eq, ← hrest] at hcall
  cases hcall

/-- **`insert` and `get` are atomic.** The calls return what they return one after the other, in the
order of their last accesses; a stripe that nobody is writing is the one after these calls; and no
access has undefined behaviour. -/
theorem locks_atomic (h : (prog ι Value hash capacity).lts.Reach c) :
    ∃ d, run hash capacity construct [] (calls c.sh.log) = some (d, c.sh.log.map Prod.snd) ∧
      (∀ i, (∀ t, (c.sh.shm i).held t ≠ some .exclusive) → c.sh.striped i = d i) ∧
      ∀ t p, c.pc t = .inside p →
        (access capacity (c.sh.striped (stripe hash p.call)) p).isSome = true := by
  obtain ⟨a, ha, href⟩ := locks_refine h
  exact ⟨a.sh.striped, href.history.ran,
    fun i hi => href.settled.outside i (nobody_inside h hi), fun t p hp => access_isSome h hp⟩

/-- Thread 0 has erased the node of key 0 for a new one, so stripe 0 is empty; thread 1 calls
meanwhile. -/
theorem locks_atomic_erased : ∃ c : State (Fin 2) ℕ ℕ,
    (prog (Fin 2) ℕ (id : ℕ → ℕ) 5).lts.Reach c ∧ c.pc 0 = .inside (.emplace 0 8) ∧
      (c.sh.striped 0).list.length = 0 ∧
      ∃ d, run (id : ℕ → ℕ) 5 construct [] [.insert 0 7, .insert 1 9] =
          some (d, [(.insert 1 9, none), (.insert 0 7, none)]) ∧
        c.sh.striped 1 = d 1 := by
  obtain ⟨c, hc, hp⟩ := Lts.exists_reachIf (prog (Fin 2) ℕ (id : ℕ → ℕ) 5).lts (fun _ _ => True)
    ((0, .call (.insert 0 7)) :: List.replicate 5 (0, .go) ++
      (0, .call (.insert 0 8)) :: List.replicate 3 (0, .go) ++
      (1, .call (.insert 1 9)) :: List.replicate 5 (1, .go))
    (fun c => c.pc 0 == .inside (.emplace 0 8) && (c.sh.striped 0).list.length == 0 &&
      c.sh.log == [(1, .insert 1 9, none), (0, .insert 0 7, none)] &&
      decide (∀ t, (c.sh.shm 1).held t ≠ some .exclusive)) (by decide +kernel)
  simp only [Bool.and_eq_true, beq_iff_eq, decide_eq_true_eq] at hp
  obtain ⟨⟨⟨hpc, hlen⟩, hlog⟩, hfree⟩ := hp
  obtain ⟨d, hran, hsame, -⟩ := locks_atomic hc
  rw [hlog] at hran
  exact ⟨c, hc, hpc, hlen, d, hran, hsame 1 hfree⟩

/-- **`size` and `empty` among the accesses of other calls** answer what was true after some of the
calls in the log: no fewer than had ended when the thread began. -/
theorem size_atomic (h : (prog ι Value hash capacity).lts.Reach c) (t : ι) :
    (∀ total start, c.pc t = .outside (.sizeReturn total start) →
      ∃ k d l, start ≤ k ∧ k ≤ c.sh.log.length ∧
        run hash capacity construct [] ((calls c.sh.log).take k) = some (d, l) ∧
          elements d = total) ∧
    (∀ answer start, c.pc t = .outside (.emptyReturn answer start) →
      ∃ k d l, start ≤ k ∧ k ≤ c.sh.log.length ∧
        run hash capacity construct [] ((calls c.sh.log).take k) = some (d, l) ∧
        (answer = true ↔ elements d = 0)) := by
  obtain ⟨a, ha, href⟩ := locks_refine h
  have hknows := (threads_ok ha).2 t
  rw [href.pcs] at hknows
  have hinstant : ∀ {start n}, SizeSince a.sh start n →
      ∃ k d l, start ≤ k ∧ k ≤ c.sh.log.length ∧
        run hash capacity construct [] ((calls c.sh.log).take k) = some (d, l) ∧
          elements d = n := by
    rintro start n ⟨k, d, hk, hd, hn⟩
    obtain ⟨l, hl⟩ := href.history.instants k d hd
    have hlt := (List.getElem?_eq_some_iff.1 hd).1
    rw [Shared.instants, List.length_append, List.length_singleton, href.history.length] at hlt
    exact ⟨k, d, l, hk, by omega, hl, hn⟩
  constructor
  · intro total start hp
    rw [hp] at hknows
    exact hinstant hknows
  · intro answer start hp
    rw [hp] at hknows
    obtain ⟨n, hn, hanswer⟩ := hknows
    obtain ⟨k, d, l, hk, hlen, hl, rfl⟩ := hinstant hn
    exact ⟨k, d, l, hk, hlen, hl, hanswer⟩

/-- Thread 1 inserts in stripe 0 after thread 0 has counted it, and in stripe 1 before; thread 0
counts the stripes 2 to 15 while thread 1 is in an `insert` of stripe 0 again. -/
theorem size_atomic_between : ∃ c : State (Fin 2) ℕ ℕ,
    (prog (Fin 2) ℕ (id : ℕ → ℕ) 5).lts.Reach c ∧ c.pc 0 = .outside (.sizeReturn 1 0) ∧
      c.pc 1 = .inside (.emplace 16 3) ∧
      ∃ (k : ℕ) (d : Cache ℕ ℕ) (l : Log ℕ ℕ), k ≤ 2 ∧
        run (id : ℕ → ℕ) 5 construct [] (([.insert 0 7, .insert 1 8] : List (Call ℕ ℕ)).take k) =
          some (d, l) ∧
        elements d = 1 := by
  obtain ⟨c, hc, hp⟩ := Lts.exists_reachIf (prog (Fin 2) ℕ (id : ℕ → ℕ) 5).lts (fun _ _ => True)
    ((0, .size) :: List.replicate 3 (0, .go) ++
      (1, .call (.insert 0 7)) :: List.replicate 5 (1, .go) ++
      (1, .call (.insert 1 8)) :: List.replicate 5 (1, .go) ++
      List.replicate 3 (0, .go) ++ (1, .call (.insert 16 3)) :: [(1, .go)] ++
      List.replicate 43 (0, .go))
    (fun c => c.pc 0 == .outside (.sizeReturn 1 0) && c.pc 1 == .inside (.emplace 16 3) &&
      c.sh.log == [(1, .insert 1 8, none), (1, .insert 0 7, none)]) (by decide +kernel)
  simp only [Bool.and_eq_true, beq_iff_eq] at hp
  obtain ⟨⟨hpc, hpc'⟩, hlog⟩ := hp
  obtain ⟨k, d, l, -, hk, hd, hn⟩ := (size_atomic hc 0).1 1 0 hpc
  rw [hlog] at hk hd
  exact ⟨c, hc, hpc, hpc', k, d, l, hk, hd, hn⟩

end Locks

end BackendTasks.ConcurrentLru
