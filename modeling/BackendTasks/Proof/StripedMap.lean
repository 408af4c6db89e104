import BackendTasks.Spec.StripedUm
import BackendTasks.Sched.Serial
import BackendTasks.Sched.Trace

/-!
# Striped_UM is one map

A thread that holds a stripe shared keeps the writers out, so a key that `contains` has found
is still there when `operator[]` reads it, and a `get` changes nothing (`Guarded`). The
threads' lock sections are therefore the calls one after the other (`serial_log`), and on the
contents those are the calls on a single map (`Stored.call`). Each thread's part of the log is
what it has called and what its calls have returned (`calls_logged`).
-/

namespace BackendTasks.StripedUm

open Sched

variable {ι T : Type*} {hash : T → ℕ} {t u : ι} {i : Fin 16}

/-! ## A single map -/

/-- The call is an `insert` or an `erase` of the key. -/
def Call.Writes : Call T → T → Prop
  | .get _, _ => False
  | .insert k _, key | .erase k, key => k = key

/-- The last `insert` of the key has this value, and no `erase` of the key follows it. -/
def Written (calls : List (Call T)) (key value : T) : Prop :=
  ∃ before after, calls = before ++ .insert key value :: after ∧ ∀ x ∈ after, ¬ x.Writes key

theorem written_concat {calls : List (Call T)} {x : Call T} {key value : T} (hx : ¬ x.Writes key) :
    Written (calls ++ [x]) key value ↔ Written calls key value := by
  constructor
  · rintro ⟨before, after, heq, hafter⟩
    rcases List.eq_nil_or_concat after with rfl | ⟨after, y, rfl⟩
    · obtain ⟨-, hy⟩ := List.append_inj' heq rfl
      have hins : x = .insert key value := (List.cons.inj hy).1
      exact absurd (by rw [hins]; rfl) hx
    · rw [List.concat_eq_append, ← List.cons_append, ← List.append_assoc] at heq
      obtain ⟨heq, -⟩ := List.append_inj' heq rfl
      exact ⟨before, after, heq, fun z hz => hafter z (by simp [hz])⟩
  · rintro ⟨before, after, rfl, hafter⟩
    refine ⟨before, after ++ [x], by simp, fun z hz => ?_⟩
    rcases List.mem_append.1 hz with hz | hz
    · exact hafter z hz
    · exact List.mem_singleton.1 hz ▸ hx

theorem written_concat_of_writes {calls : List (Call T)} {x : Call T} {key value : T}
    (hx : x.Writes key) : Written (calls ++ [x]) key value ↔ x = .insert key value := by
  constructor
  · rintro ⟨before, after, heq, hafter⟩
    rcases List.eq_nil_or_concat after with rfl | ⟨after, y, rfl⟩
    · obtain ⟨-, hy⟩ := List.append_inj' heq rfl
      exact (List.cons.inj hy).1
    · rw [List.concat_eq_append, ← List.cons_append, ← List.append_assoc] at heq
      obtain ⟨-, hy⟩ := List.append_inj' heq rfl
      have hy : x = y := (List.cons.inj hy).1
      exact absurd (hy ▸ hx) (hafter y (by simp))
  · rintro rfl
    exact ⟨calls, [], rfl, by simp⟩

variable [DecidableEq T]

/-- A call on a single map. -/
def single (m : T → Option T) : Call T → (T → Option T) × Option T
  | .get key => (m, m key)
  | .insert key value => (Function.update m key (some value), none)
  | .erase key => (Function.update m key none, none)

/-- The single map after the calls. -/
def singleAfter (calls : List (Call T)) : T → Option T :=
  calls.foldl (fun m x => (single m x).1) fun _ => none

theorem singleAfter_concat (calls : List (Call T)) (x : Call T) :
    singleAfter (calls ++ [x]) = (single (singleAfter calls) x).1 := by
  rw [singleAfter, List.foldl_append, List.foldl_cons, List.foldl_nil]
  rfl

/-- A call changes the keys it writes. -/
theorem single_of_not_writes {m : T → Option T} {x : Call T} {key : T} (hx : ¬ x.Writes key) :
    (single m x).1 key = m key := by
  cases x with
  | get k => rfl
  | insert k v => exact Function.update_of_ne (Ne.symm hx) _ _
  | erase k => exact Function.update_of_ne (Ne.symm hx) _ _

/-- **What the single map holds for a key.** -/
theorem singleAfter_iff (calls : List (Call T)) (key value : T) :
    singleAfter calls key = some value ↔ Written calls key value := by
  induction calls using List.reverseRecOn with
  | nil => simp [singleAfter, Written]
  | append_singleton calls x ih =>
    rw [singleAfter_concat]
    by_cases hx : x.Writes key
    · rw [written_concat_of_writes hx]
      cases x with
      | get k => exact hx.elim
      | insert k v =>
        obtain rfl : k = key := hx
        simp [single]
      | erase k =>
        obtain rfl : k = key := hx
        simp [single]
    · rw [single_of_not_writes hx, written_concat hx, ih]

/-! ## The stripes together -/

/-- Each stripe holds the map's part of its own keys. -/
def Stored (hash : T → ℕ) (stripes : Stripes T) (m : T → Option T) : Prop :=
  ∀ i key, stripes i key = if getStriped hash key = i then m key else none

omit [DecidableEq T] in
theorem stored_construct : Stored hash construct fun _ => none := by
  intro i key
  simp [construct]

/-- Changing a key in its stripe changes it in the map. -/
theorem Stored.update {stripes : Stripes T} {m : T → Option T} (h : Stored hash stripes m) (key : T)
    (value : Option T) :
    Stored hash (Function.update stripes (getStriped hash key)
      (Function.update (stripes (getStriped hash key)) key value)) (Function.update m key value) := by
  intro i k
  by_cases hi : i = getStriped hash key
  · subst hi
    by_cases hk : k = key
    · subst hk
      simp
    · simp [hk, h (getStriped hash key) k]
  · have hk : getStriped hash k = i → k ≠ key := by
      rintro rfl rfl
      exact hi rfl
    rw [Function.update_of_ne hi, h i k]
    by_cases hki : getStriped hash k = i
    · rw [if_pos hki, if_pos hki, Function.update_of_ne (hk hki)]
    · rw [if_neg hki, if_neg hki]

variable [Inhabited T]

/-- `operator[]` on a key that is there. -/
theorem index_of_contains {data : UnorderedMap T} {key : T} (h : data.contains key = true) :
    (data.index key).1 = data ∧ data key = some (data.index key).2 := by
  obtain ⟨value, hvalue⟩ := Option.isSome_iff_exists.1 h
  simp [UnorderedMap.index, hvalue]

theorem assign_eq (data : UnorderedMap T) (key value : T) :
    data.assign key value = Function.update data key (some value) := by
  unfold UnorderedMap.assign UnorderedMap.index
  cases data key with
  | some v => rfl
  | none => simp

/-- The lock section of a `get`. -/
theorem locked_get (key : T) (data : UnorderedMap T) : (Call.get key).locked data = (data, data key) := by
  unfold Call.locked
  by_cases h : data.contains key = true
  · obtain ⟨hsame, hvalue⟩ := index_of_contains h
    simp only [h, if_true, hsame, hvalue]
  · have hnone : data key = none := by simpa [UnorderedMap.contains] using h
    simp only [h, hnone]
    rfl

/-- What a call does to the entry of its key, and what it returns for it. -/
def Call.entry : Call T → Option T → Option T × Option T
  | .get _, value => (value, value)
  | .insert _ value, _ => (some value, none)
  | .erase _, _ => (none, none)

/-- A lock section is about the entry of its key alone. -/
theorem locked_eq (x : Call T) (data : UnorderedMap T) :
    x.locked data =
      (Function.update data x.key (x.entry (data x.key)).1, (x.entry (data x.key)).2) := by
  cases x with
  | get key => simp only [locked_get, Call.key, Call.entry, Function.update_eq_self]
  | insert key value => simp only [Call.locked, assign_eq, Call.key, Call.entry]
  | erase key => rfl

omit [Inhabited T] in
theorem single_eq (x : Call T) (m : T → Option T) :
    single m x = (Function.update m x.key (x.entry (m x.key)).1, (x.entry (m x.key)).2) := by
  cases x with
  | get key => simp only [single, Call.key, Call.entry, Function.update_eq_self]
  | insert key value => rfl
  | erase key => rfl

/-- **One call** does to the stripes what it does to the single map. -/
theorem Stored.call {stripes : Stripes T} {m : T → Option T} (h : Stored hash stripes m) (x : Call T) :
    Stored hash (call hash stripes x).1 (single m x).1 ∧ (call hash stripes x).2 = (single m x).2 := by
  have hentry : stripes (getStriped hash x.key) x.key = m x.key := by
    rw [h, if_pos rfl]
  simp only [StripedUm.call, locked_eq, single_eq, hentry]
  exact ⟨h.update x.key _, trivial⟩

/-! ## The threads -/

/-- Where the thread holds a lock, and how. -/
def Pc.holds (hash : T → ℕ) : Pc T → Fin 16 → Option LockMode
  | .idle, _ => none
  | .locked x, i | .leaving x _, i => if i = getStriped hash x.key then some x.mode else none
  | .found key, i => if i = getStriped hash key then some .shared else none

variable [DecidableEq ι] {s s' : Shared ι T} {p p' : Pc T} {x : Choice T}

/-- **What a step of a thread can do.** Besides locking and unlocking it makes the one change to `data_`
of its lock section, with the lock held. -/
inductive Move (hash : T → ℕ) (t : ι) (s : Shared ι T) : Pc T → Shared ι T → Pc T → Prop
  | lock (x : Call T) (m : SharedMutex ι)
    (h : (s.shm (getStriped hash x.key)).acquire t x.mode = some m) :
    Move hash t s .idle (s.setShm (getStriped hash x.key) m) (.locked x)
  | find (key : T) (h : (s.data (getStriped hash key)).contains key = true) :
    Move hash t s (.locked (.get key)) s (.found key)
  | access (x : Call T) (p : Pc T)
    (hp : ∀ i, p.holds hash i = if i = getStriped hash x.key then some x.mode else none) :
    Move hash t s p
      (s.finish (getStriped hash x.key) (x.locked (s.data (getStriped hash x.key))).1 t x
        (x.locked (s.data (getStriped hash x.key))).2)
      (.leaving x (x.locked (s.data (getStriped hash x.key))).2)
  | unlock (x : Call T) (r : Option T) :
    Move hash t s (.leaving x r)
      (s.setShm (getStriped hash x.key) ((s.shm (getStriped hash x.key)).release t)) .idle

/-- A key that `contains` has found is there. -/
def Found (hash : T → ℕ) (s : Shared ι T) (p : Pc T) : Prop :=
  ∀ key, p = .found key → (s.data (getStriped hash key)).contains key = true

omit [DecidableEq T] [Inhabited T] [DecidableEq ι] in
theorem Found.of_ne (h : ∀ key, p ≠ .found key) : Found hash s p := fun key hp => absurd hp (h key)

theorem step_move (hfound : Found hash s p) (h : step hash t s p x = some (s', p')) :
    Move hash t s p s' p' := by
  cases x with
  | call x =>
    cases p with
    | idle =>
      obtain ⟨m, hm, heq⟩ := Option.map_eq_some_iff.1 h
      cases heq
      exact .lock x m hm
    | _ => simp [step] at h
  | go =>
    cases p with
    | idle => simp [step] at h
    | found key =>
      obtain ⟨hsame, hvalue⟩ := index_of_contains (hfound key rfl)
      have hmove : Move hash t s (.found key) _ _ := .access (.get key) (.found key) fun _ => rfl
      simp only [locked_get, Call.key, hvalue] at hmove
      simp only [step, Option.some.injEq, Prod.mk.injEq, hsame] at h
      exact h.1 ▸ h.2 ▸ hmove
    | leaving x r =>
      cases h
      exact .unlock x r
    | locked x =>
      have hmove : Move hash t s (.locked x) _ _ := .access x (.locked x) fun _ => rfl
      cases x with
      | insert key value =>
        cases h
        exact hmove
      | erase key =>
        cases h
        exact hmove
      | get key =>
        by_cases hcontains : (s.data (getStriped hash key)).contains key = true
        · simp only [step, hcontains, if_true, Option.some.injEq, Prod.mk.injEq] at h
          exact h.1 ▸ h.2 ▸ .find key hcontains
        · have hnone : s.data (getStriped hash key) key = none := by
            simpa [UnorderedMap.contains] using hcontains
          simp only [locked_get, Call.key, hnone] at hmove
          simp only [step, hcontains, Bool.false_eq_true, if_false, Option.some.injEq, Prod.mk.injEq] at h
          exact h.1 ▸ h.2 ▸ hmove

/-- The thread holds the locks that its control point says, and what it has found is there. -/
def Guarded (hash : T → ℕ) (t : ι) (s : Shared ι T) (p : Pc T) : Prop :=
  (∀ i, (s.shm i).held t = p.holds hash i) ∧ Found hash s p

omit [Inhabited T] [DecidableEq T] in
theorem held_setShm (s : Shared ι T) (m : SharedMutex ι) (hm : m.held u = (s.shm i).held u) (j : Fin 16) :
    ((s.setShm i m).shm j).held u = (s.shm j).held u := by
  unfold Shared.setShm
  by_cases hj : j = i
  · subst hj
    simp [hm]
  · simp [hj]

/-- A thread's own step. -/
theorem Guarded.own (h : Guarded hash t s p) (hmove : Move hash t s p s' p') : Guarded hash t s' p' := by
  obtain ⟨hheld, hfound⟩ := h
  cases hmove with
  | lock x m hm =>
    refine ⟨fun i => ?_, .of_ne (by simp)⟩
    by_cases hi : i = getStriped hash x.key
    · subst hi
      simp [Shared.setShm, Pc.holds, SharedMutex.held_acquire hm]
    · simpa [Shared.setShm, Pc.holds, hi] using hheld i
  | find key hcontains =>
    refine ⟨hheld, fun k hk => ?_⟩
    cases hk
    exact hcontains
  | access x p hp => exact ⟨fun i => (hheld i).trans (hp i), .of_ne (by simp)⟩
  | unlock x r =>
    refine ⟨fun i => ?_, .of_ne (by simp)⟩
    by_cases hi : i = getStriped hash x.key
    · subst hi
      simp [Shared.setShm, Pc.holds, SharedMutex.held_release]
    · simpa [Shared.setShm, Pc.holds, hi] using hheld i

/-- Another thread's step. While the key is held shared, no call of another thread writes its stripe. -/
theorem Guarded.other {q : Pc T} (h : Guarded hash u s q) (ht : Guarded hash t s p) (hu : u ≠ t)
    (hmove : Move hash t s p s' p') : Guarded hash u s' q := by
  obtain ⟨hheld, hfound⟩ := h
  cases hmove with
  | lock x m hm =>
    exact ⟨fun i => (held_setShm s m (SharedMutex.held_acquire_of_ne hm hu) i).trans (hheld i), hfound⟩
  | find key hcontains => exact ⟨hheld, hfound⟩
  | unlock x r =>
    exact ⟨fun i => (held_setShm s _ (SharedMutex.held_release_of_ne hu) i).trans (hheld i), hfound⟩
  | access x p hp =>
    refine ⟨hheld, fun key hq => ?_⟩
    subst hq
    have hcontains := hfound key rfl
    unfold Shared.finish
    by_cases hkey : getStriped hash key = getStriped hash x.key
    · have hshared : (s.shm (getStriped hash x.key)).held u = some .shared := by
        rw [hheld, ← hkey]
        exact if_pos rfl
      have hmode : x.mode ≠ .exclusive := by
        intro hmode
        have hheldt : (s.shm (getStriped hash x.key)).held t = some .exclusive := by
          rw [ht.1, hp, if_pos rfl, hmode]
        rw [SharedMutex.held_exclusive hheldt hu] at hshared
        simp at hshared
      cases x with
      | get k => simpa only [locked_get, Call.key, Function.update_eq_self] using hcontains
      | insert k v => exact absurd rfl hmode
      | erase k => exact absurd rfl hmode
    · simpa only [Function.update_of_ne hkey] using hcontains

/-- The calls in the log. -/
def calls (log : List (ι × Call T × Option T)) : List (ι × Call T) := log.map fun e => (e.1, e.2.1)

/-- The stripes are those after the calls in the log one after the other, and so are the results. -/
def InOrder (hash : T → ℕ) (s : Shared ι T) : Prop :=
  serial (call hash) construct (calls s.log) = (s.data, s.log)

theorem InOrder.move (h : InOrder hash s) (hmove : Move hash t s p s' p') : InOrder hash s' := by
  cases hmove with
  | lock x m hm => exact h
  | find key hcontains => exact h
  | unlock x r => exact h
  | access x p hp =>
    have hcalls : calls (s.finish (getStriped hash x.key) (x.locked (s.data (getStriped hash x.key))).1 t x
        (x.locked (s.data (getStriped hash x.key))).2).log = calls s.log ++ [(t, x)] := by
      simp [calls, Shared.finish]
    unfold InOrder
    rw [hcalls, serial_append, h]
    rfl

variable [Fintype ι] {c : State ι T}

/-- **The threads' lock sections are the calls one after the other.** -/
theorem serial_log (h : (prog ι hash).lts.Reach c) :
    InOrder hash c.sh ∧ ∀ t, Guarded hash t c.sh (c.pc t) := by
  refine Prog.plain_invariant (M := prog ι hash) (f := step hash) (fun _ _ _ _ => rfl) (InOrder hash)
    (Guarded hash)
    rfl (fun t => ⟨fun i => ?_, .of_ne (by simp [prog])⟩) ?_ ?_ h
  · exact SharedMutex.held_free
  · intro c t x s p _ _ hs hG hL
    have hmove := step_move hL.2 hs
    exact ⟨hG.move hmove, hL.own hmove⟩
  · intro c t x s p u _ _ hs hG hL hu hLu
    exact hLu.other hL hu (step_move hL.2 hs)

/-- The control points of a `get`. -/
def Pc.InGet (key : T) : Pc T → Prop
  | .idle => False
  | .locked x | .leaving x _ => x = .get key
  | .found k => k = key

omit [Inhabited T] [DecidableEq T] in
theorem Pc.InGet.holds {key : T} {mode : LockMode} (h : p.InGet key) (hp : p.holds hash i = some mode) :
    mode = .shared := by
  cases p with
  | idle => exact h.elim
  | locked x | leaving x r =>
    obtain rfl : x = .get key := h
    by_cases hi : i = getStriped hash (Call.get key).key
    · simpa [Pc.holds, hi, Call.mode] using hp.symm
    · simp [Pc.holds, hi] at hp
  | found k =>
    by_cases hi : i = getStriped hash k
    · simpa [Pc.holds, hi] using hp.symm
    · simp [Pc.holds, hi] at hp

/-- **A `get` changes no stripe.** -/
theorem get_data {key : T} (h : (prog ι hash).lts.Reach c) (hs : step hash t c.sh (c.pc t) x = some (s, p))
    (hget : (c.pc t).InGet key ∨ p.InGet key) : s.data = c.sh.data := by
  have hmove := step_move ((serial_log h).2 t).2 hs
  generalize c.pc t = q at hmove hget
  cases hmove with
  | lock x m hm => rfl
  | find key hcontains => rfl
  | unlock x r => rfl
  | access x q hq =>
    have hx : x.mode = .shared := by
      rcases hget with hget | rfl
      · have hheld : q.holds hash (getStriped hash x.key) = some x.mode := (hq _).trans (if_pos rfl)
        exact hget.holds hheld
      · rfl
    cases x with
    | get k => simp only [Shared.finish, locked_get, Call.key, Function.update_eq_self]
    | insert k v => simp [Call.mode] at hx
    | erase k => simp [Call.mode] at hx

/-- **A `get` waits for writers only.** -/
theorem get_enters (h : (prog ι hash).lts.Reach c) (key : T) (hidle : c.pc t = .idle)
    (hfree : ∀ u, (c.pc u).holds hash (getStriped hash key) ≠ some .exclusive) :
    ∃ c', (prog ι hash).lts.step c (t, .call (.get key)) = some c' := by
  obtain ⟨m, hm⟩ := SharedMutex.acquire_shared (t := t) (m := c.sh.shm (getStriped hash key)) fun u => by
    rw [((serial_log h).2 u).1]
    exact hfree u
  have hstep : step hash t c.sh (c.pc t) (.call (.get key)) =
      some (c.sh.setShm (getStriped hash key) m, .locked (.get key)) := by
    rw [hidle]
    exact Option.map_eq_some_iff.2 ⟨m, hm, rfl⟩
  exact ⟨_, Prog.plain_of (M := prog ι hash) (f := step hash) (fun _ _ _ _ => rfl) hstep⟩

/-! ## The calls of a thread -/

/-- The call a step begins. -/
def Choice.begun : Choice T → List (Call T)
  | .call x => [x]
  | .go => []

/-- The call of the thread, before its last access. -/
def Pc.pending : Pc T → List (Call T)
  | .locked x => [x]
  | .found key => [.get key]
  | _ => []

/-- The call of the thread and what it returns, behind its last access. -/
def Pc.result : Pc T → List (Call T × Option T)
  | .leaving x r => [(x, r)]
  | _ => []

/-- The steps of a run. -/
abbrev Trace (ι T : Type*) := List (Edge (State ι T) (ι × Choice T))

/-- The calls that the thread begins. -/
def begins (t : ι) (e : Edge (State ι T) (ι × Choice T)) : List (Call T) :=
  if e.label.1 = t then e.label.2.begun else []

/-- The calls that return to the thread, with what they return. -/
def ends (t : ι) (e : Edge (State ι T) (ι × Choice T)) : List (Call T × Option T) :=
  if e.label.1 = t then (e.before.pc t).result else []

/-- The thread's part of a log. -/
def logged (t : ι) (log : List (ι × Call T × Option T)) : List (Call T × Option T) :=
  (log.filter fun e => e.1 = t).map Prod.snd

omit [DecidableEq T] [Inhabited T] [Fintype ι] in
theorem logged_append (t u : ι) (log : List (ι × Call T × Option T)) (new : List (Call T × Option T)) :
    logged u (log ++ new.map (Prod.mk t)) = logged u log ++ if t = u then new else [] := by
  unfold logged
  rw [List.filter_append, List.map_append]
  congr 1
  by_cases htu : t = u
  · subst htu
    simp [List.filter_map, Function.comp_def]
  · simp [List.filter_map, Function.comp_def, htu]

omit [Fintype ι] in
/-- A step logs the call whose last access it makes. -/
theorem step_logs (hfound : Found hash s p) (h : step hash t s p x = some (s', p')) :
    s'.log = s.log ++ p'.result.map (Prod.mk t) ∧
      p.pending ++ x.begun = p'.result.map Prod.fst ++ p'.pending := by
  have hmove := step_move hfound h
  cases x with
  | call x =>
    cases p with
    | idle =>
      obtain ⟨m, -, heq⟩ := Option.map_eq_some_iff.1 h
      cases heq
      exact ⟨by simp [Shared.setShm, Pc.result], rfl⟩
    | _ => simp [step] at h
  | go =>
    cases hmove with
    | lock y m hm => simp [step] at h
    | find key hcontains => exact ⟨by simp [Pc.result], rfl⟩
    | unlock y r => exact ⟨by simp [Shared.setShm, Pc.result], rfl⟩
    | access y p hp =>
      refine ⟨rfl, ?_⟩
      cases p with
      | idle => simp [step] at h
      | locked z =>
        have hz : z = y := by cases z <;> simp [step] at h <;> grind
        subst hz
        rfl
      | found key =>
        have hy : Call.get key = y := by simp [step] at h; grind
        subst hy
        rfl
      | leaving z r => simp [step] at h

/-- **Each thread's part of the log** is what it has called, except for a call before its last access,
and what has been returned to it, and is about to be. -/
theorem calls_logged {tr : Trace ι T} (htr : (prog ι hash).lts.Traced (fun _ _ => True) tr c) (t : ι) :
    (logged t c.sh.log).map Prod.fst ++ (c.pc t).pending = recorded (begins t) tr ∧
      logged t c.sh.log = recorded (ends t) tr ++ (c.pc t).result := by
  have hstep {c c' : State ι T} {a : ι × Choice T} (hc : (prog ι hash).lts.Reach c)
      (hs : (prog ι hash).lts.step c a = some c') :
      logged t c'.sh.log = logged t c.sh.log ++ (if a.1 = t then (c'.pc t).result else []) ∧
        (c.pc t).pending ++ (if a.1 = t then a.2.begun else []) =
          (if a.1 = t then (c'.pc t).result else []).map Prod.fst ++ (c'.pc t).pending ∧
        (a.1 ≠ t → c'.pc t = c.pc t) := by
    obtain ⟨s, p, hstep, rfl⟩ := Prog.plain_inv (M := prog ι hash) (f := step hash) (fun _ _ _ _ => rfl) hs
    obtain ⟨hlog, hpending⟩ := step_logs ((serial_log hc).2 a.1).2 hstep
    simp only [hlog, logged_append]
    by_cases hat : a.1 = t
    · subst hat
      simpa using hpending
    · simp [hat, Ne.symm hat]
  constructor
  · have hcalls := htr.recorded (begins t)
      (fun c => (logged t c.sh.log).map Prod.fst ++ (c.pc t).pending) (fun _ => []) rfl
      fun c a c' hc _ hs past hpast => by
        obtain ⟨hlog, hpending, -⟩ := hstep hc hs
        rw [List.append_nil] at hpast ⊢
        rw [hlog, List.map_append, List.append_assoc, ← hpending, ← List.append_assoc, hpast]
        rfl
    rw [hcalls, List.append_nil]
  · refine htr.recorded (ends t) (fun c => logged t c.sh.log) (fun c => (c.pc t).result) rfl
      fun c a c' hc _ hs past hpast => ?_
    obtain ⟨hlog, -, hother⟩ := hstep hc hs
    rw [hlog, hpast]
    by_cases hat : a.1 = t
    · simp [ends, hat]
    · simp [ends, hat, hother hat]

/-- **Striped_UM is one map.** In every run the calls return what a single map returns for the same
calls in the order of their lock sections, and the stripes hold the contents of that map. In
particular a `get` returns the value of the last `insert` of its key if no `erase` follows it.
A `get` leaves all stripes unchanged at every step, and locks its stripe unless a thread is in
an `insert` or an `erase` on it. A thread's entries in the log are what it has called, except for
a call before its last access, and what its calls have returned, or are about to. -/
theorem striped_map (hash : T → ℕ) (h : (prog ι hash).lts.Reach c) :
    (c.sh.log = (serial single (fun _ => none) (calls c.sh.log)).2 ∧
      Stored hash c.sh.data (serial single (fun _ => none) (calls c.sh.log)).1) ∧
    (∀ before t key r after, c.sh.log = before ++ (t, .get key, r) :: after →
      ∀ value, r = some value ↔ Written (before.map fun e => e.2.1) key value) ∧
    (∀ t key x s p, step hash t c.sh (c.pc t) x = some (s, p) → (c.pc t).InGet key ∨ p.InGet key →
      s.data = c.sh.data) ∧
    (∀ t key, c.pc t = .idle →
      (∀ u, (c.pc u).holds hash (getStriped hash key) ≠ some .exclusive) →
        ∃ c', (prog ι hash).lts.step c (t, .call (.get key)) = some c') ∧
    ∀ tr, (prog ι hash).lts.Traced (fun _ _ => True) tr c → ∀ t,
      (logged t c.sh.log).map Prod.fst ++ (c.pc t).pending = recorded (begins t) tr ∧
        logged t c.sh.log = recorded (ends t) tr ++ (c.pc t).result := by
  have hlog : serial (call hash) construct (calls c.sh.log) = (c.sh.data, c.sh.log) := (serial_log h).1
  have hstored : Stored hash (construct : Stripes T) (fun _ => none) := stored_construct
  have hsim := serial_sim (fun s m x (hs : Stored hash s m) => hs.call x) hstored (calls c.sh.log)
  rw [hlog] at hsim
  refine ⟨⟨hsim.2, hsim.1⟩, fun before t key r after hsplit value => ?_,
    fun t key x s p hs => get_data h hs, fun t key => get_enters h key,
    fun tr htr t => calls_logged htr t⟩
  have hresult := serial_result (hsim.2.symm.trans hsplit)
  rw [serial_fst, List.map_map] at hresult
  rw [← singleAfter_iff, hresult]
  rfl

/-- Two threads read the key with overlapping lock sections. -/
theorem striped_map_overlap : ∃ (tr : Trace (Fin 2) ℕ) (c : State (Fin 2) ℕ),
    (prog (Fin 2) (id : ℕ → ℕ)).lts.Traced (fun _ _ => True) tr c ∧
    c.sh.log = [(0, .insert 0 7, none), (1, .get 0, some 7), (0, .get 0, some 7)] ∧
      Written [.insert 0 7, .get 0] 0 7 ∧
      recorded (ends 0) tr ++ (c.pc 0).result = [(.insert 0 7, none), (.get 0, some 7)] := by
  obtain ⟨tr, c, htr, hlog⟩ := Lts.exists_traced (prog (Fin 2) (id : ℕ → ℕ)).lts (fun _ _ => True)
    [(0, .call (.insert 0 7)), (0, .go), (0, .go), (0, .call (.get 0)), (1, .call (.get 0)), (0, .go),
      (1, .go), (1, .go), (0, .go)]
    (fun _ c => c.sh.log == [(0, .insert 0 7, none), (1, .get 0, some 7), (0, .get 0, some 7)])
    (by decide)
  rw [beq_iff_eq] at hlog
  obtain ⟨-, hvalue, -, -, hcalls⟩ := striped_map id htr.reach
  have hlogged := (hcalls tr htr 0).2
  rw [hlog] at hlogged
  exact ⟨tr, c, htr, hlog,
    (hvalue [(0, .insert 0 7, none), (1, .get 0, some 7)] 0 0 _ [] hlog 7).1 rfl, hlogged.symm⟩

end BackendTasks.StripedUm
