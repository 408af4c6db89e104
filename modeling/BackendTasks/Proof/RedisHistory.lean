import BackendTasks.Proof.RedisAck
import BackendTasks.Proof.RedisSessions
import Mathlib.Data.List.Induction

/-!
# What a GET reads

A session is handled just when all before it were good (`run_at`), and then with a store that is
the first one with the writes of these sessions, one after the other (`handleSession_store`).

* `reads_latest`: so a GET whose command is answered reads what was written last under its key, by a
  POST before it or at first; its own fault says whether its client gets to see it.
-/

namespace BackendTasks.RedisServer

open Net

variable {client : RedisClient} {fate : Fate} {store : Store} {req : Request} {session : Session}
  {sessions : List Session} {n : ℕ}

/-! ## The store as its writes -/

/-- A key and the value written under it. -/
abbrev Write := Bytes × Bytes

/-- The store after the writes, one after the other. -/
def Store.written (store : Store) (writes : List Write) : Store :=
  writes.foldl (fun store write => Function.update store write.1 (some write.2)) store

/-- What was written last under the key, or was there at first. -/
def Store.latest (store : Store) (writes : List Write) (key : Bytes) : Option Bytes :=
  ((writes.reverse.find? fun write => write.1 = key).map Prod.snd).or (store key)

/-- **The last write counts.** -/
theorem Store.written_eq (store : Store) (writes : List Write) (key : Bytes) :
    store.written writes key = store.latest writes key := by
  induction writes using List.reverseRecOn with
  | nil => rfl
  | append_singleton writes write ih =>
    unfold written latest at ih ⊢
    rw [List.foldl_append, List.reverse_append, List.reverse_singleton, List.singleton_append,
      List.find?_cons]
    by_cases hkey : write.1 = key
    · subst hkey
      simp
    · simp only [List.foldl_cons, List.foldl_nil, Function.update_of_ne (Ne.symm hkey), hkey,
        decide_false]
      exact ih

/-! ## What a session writes -/

/-- The command is carried out, whether its reply arrives or not. -/
def Fate.carriedOut : Fate → Bool
  | .done => true
  | .refused _ => false
  | .lost carriedOut => carriedOut

theorem executed_iff : Executed client fate ↔ client.context = true ∧ fate.carriedOut = true := by
  cases fate <;> simp [Executed, Fate.carriedOut]

/-- The key that a GET asks for. -/
def Request.key (req : Request) : Bytes :=
  if req.target.head? = some 47 then req.target.tail else req.target

/-- What a POST asks to be written. -/
def Request.asked (req : Request) : Option Write :=
  if req.method = .post ∧ 61 ∈ req.body then
    some (cstr (req.body.takeWhile (· != 61)), cstr (req.body.dropWhile (· != 61)).tail)
  else none

/-- `do_action` is over, and its command sent. -/
def Session.acted (session : Session) : Bool :=
  match session.fault with
  | some .read | some (.action false) => false
  | _ => true

/-- The response is written. -/
def Session.answered (session : Session) : Bool :=
  match session.fault with
  | none | some .shutdown => true
  | _ => false

/-- What a session writes. -/
def Session.write (client : RedisClient) (session : Session) : Option Write :=
  if client.context && session.fate.carriedOut && session.acted then session.req.asked else none

theorem get_store (client : RedisClient) (fate : Fate) (store : Store) (key : Bytes) :
    (client.get fate store key).1 = store := by
  have hrun : ((Command.get (cstr key)).run store).1 = store := by
    simp only [Command.run]
    split <;> rfl
  unfold RedisClient.get redisCommand
  cases client.context with
  | false => rfl
  | true =>
    cases fate with
    | refused str => rfl
    | done =>
      simp only [hrun, Bool.not_true, Bool.false_eq_true, if_false]
      split <;> simp_all
    | lost carriedOut => simp only [hrun, Bool.not_true, Bool.false_eq_true, ite_self]

/-- What `do_action` does to the store. -/
theorem doAction_store (client : RedisClient) (fate : Fate) (store : Store) (req : Request) :
    (doAction client fate store req).1 =
      store.written (if client.context && fate.carriedOut then req.asked else none).toList := by
  obtain ⟨verb, target, body⟩ := req
  cases verb with
  | get =>
    simp only [doAction, get_store]
    simp [Request.asked, Store.written]
  | other => simp [doAction, Request.asked, Store.written]
  | post =>
    by_cases hsign : 61 ∈ body
    · have hasked : Request.asked ⟨.post, target, body⟩ =
          some (cstr (body.takeWhile (· != 61)), cstr (body.dropWhile (· != 61)).tail) :=
        if_pos ⟨rfl, hsign⟩
      rw [hasked]
      simp only [doAction, if_pos hsign]
      rcases set_store client fate store (body.takeWhile (· != 61)) (body.dropWhile (· != 61)).tail with
        ⟨hexec, hset⟩ | ⟨hexec, hset⟩
      · rw [executed_iff, ← Bool.and_eq_true] at hexec
        rw [hset, if_pos hexec]
        rfl
      · rw [executed_iff, ← Bool.and_eq_true] at hexec
        rw [hset, if_neg hexec]
        rfl
    · have hasked : Request.asked ⟨.post, target, body⟩ = none := if_neg fun h => hsign h.2
      rw [hasked, ite_self]
      simp only [doAction, if_neg hsign]
      rfl

/-- **What a session does to the store.** -/
theorem handleSession_store (client : RedisClient) (store : Store) (session : Session) :
    (handleSession client store session).store = store.written (session.write client).toList := by
  have hdo := doAction_store client session.fate store session.req
  unfold handleSession Session.write Session.acted
  cases session.fault with
  | none => simpa using hdo
  | some fault =>
    cases fault with
    | read => simp [Store.written]
    | action after => cases after <;> simp_all [Store.written]
    | write | shutdown => simpa using hdo

/-! ## What a session answers -/

/-- The command is carried out, and its reply arrives. -/
def Fate.isDone : Fate → Bool
  | .done => true
  | _ => false

/-- What a GET is answered with, when there is a `value` under its key: nothing, unless the
command is done. -/
def Session.reads (client : RedisClient) (session : Session) (value : Option Bytes) : Response :=
  ⟨.ok, if client.context && session.fate.isDone then cstr (value.getD []) else []⟩

theorem doAction_get (hget : session.req.method = .get) (client : RedisClient) (store : Store) :
    (doAction client session.fate store session.req).2 =
      session.reads client (store (cstr session.req.key)) := by
  have hnil : cstr [] = [] := rfl
  have hvalue : (client.get session.fate store session.req.key).2 =
      if client.context && session.fate.isDone then cstr ((store (cstr session.req.key)).getD [])
      else [] := by
    unfold RedisClient.get redisCommand
    cases client.context with
    | false => rfl
    | true =>
      cases session.fate with
      | refused str | lost carriedOut => rfl
      | done =>
        cases hstored : store (cstr session.req.key) <;>
          simp [Command.run, Fate.isDone, hstored, hnil]
  unfold Session.reads
  rw [← hvalue]
  simp only [doAction, hget]
  rfl

theorem handleSession_res (client : RedisClient) (store : Store) (session : Session) :
    (handleSession client store session).res =
      if session.answered then some (doAction client session.fate store session.req).2 else none := by
  unfold handleSession Session.answered
  cases session.fault with
  | none => rfl
  | some fault =>
    cases fault with
    | action after => cases after <;> rfl
    | read | write | shutdown => rfl

/-! ## Every sequence of sessions -/

theorem Store.written_cons (store : Store) (client : RedisClient) (session : Session)
    (sessions : List Session) :
    store.written ((session :: sessions).filterMap (Session.write client)) =
      (store.written (session.write client).toList).written
        (sessions.filterMap (Session.write client)) := by
  cases hwrite : session.write client <;> simp [hwrite, written]

/-- **Which sessions are handled, and with which store.** -/
theorem run_at (client : RedisClient) (store : Store) (sessions : List Session) (n : ℕ) :
    (run client store sessions)[n]? =
      if ∀ earlier ∈ sessions.take n, earlier.Good then
        sessions[n]?.map fun session => (session, (handleSession client
          (store.written ((sessions.take n).filterMap (Session.write client))) session).res)
      else none := by
  induction sessions generalizing store n with
  | nil => simp [run]
  | cons session sessions ih =>
    cases n with
    | zero => simp [run, Store.written]
    | succ n =>
      by_cases hgood : session.Good
      · rw [run_good hgood, List.getElem?_cons_succ, ih, handleSession_store]
        simp only [List.take_succ_cons, List.forall_mem_cons, hgood, true_and,
          List.getElem?_cons_succ, Store.written_cons]
      · rw [run_fault hgood, if_neg]
        · simp
        · intro hall
          exact hgood (hall session (by simp))

/-- **What a GET reads.** The `n`-th session is handled just when no session before it threw. It is
answered just when it does not throw before its response is written; and if it is a GET, with the
C string of what was written last under its key by the sessions before it (or of what was there at
first), unless its own command is not done. -/
theorem reads_latest (client : RedisClient) (store : Store) (hn : sessions[n]? = some session) :
    ((∃ res, (run client store sessions)[n]? = some (session, res)) ↔
      ∀ earlier ∈ sessions.take n, earlier.fault = none) ∧
    ∀ res, (run client store sessions)[n]? = some (session, res) →
      (res ≠ none ↔ session.fault = none ∨ session.fault = some .shutdown) ∧
      (session.req.method = .get → ∀ r, res = some r → r = session.reads client
        (store.latest ((sessions.take n).filterMap (Session.write client)) (cstr session.req.key))) := by
  have hrun := run_at client store sessions n
  rw [hn, Option.map_some] at hrun
  constructor
  · rw [hrun]
    by_cases hall : ∀ earlier ∈ sessions.take n, earlier.Good
    · rw [if_pos hall]
      exact iff_of_true ⟨_, rfl⟩ hall
    · rw [if_neg hall]
      exact iff_of_false (by simp) hall
  · intro res hres
    rw [hrun] at hres
    split at hres
    · simp only [Option.some.injEq, Prod.mk.injEq, true_and] at hres
      rw [handleSession_res] at hres
      have hanswered : session.answered = true ↔
          session.fault = none ∨ session.fault = some .shutdown := by
        unfold Session.answered
        split <;> simp_all
      rw [← hanswered]
      cases hans : session.answered with
      | false =>
        rw [hans] at hres
        simp [← hres]
      | true =>
        rw [hans, if_pos rfl] at hres
        refine ⟨by simp [← hres], fun hget r hr => ?_⟩
        rw [hr, Option.some.injEq] at hres
        rw [← hres, doAction_get hget, Store.written_eq]
    · simp at hres

/-- A POST, one that is refused, one whose reply is lost, and a GET. -/
def threePosts : List Session :=
  [⟨post (ascii "k") (ascii "1"), .done, none⟩, ⟨post (ascii "k") (ascii "2"), .refused [], none⟩,
    ⟨post (ascii "k") (ascii "3"), .lost true, none⟩, ⟨get (ascii "k"), .done, none⟩]

/-- The GET reads what the reply was lost of. -/
theorem reads_latest_lost : ∃ r, (run connected (fun _ => none) threePosts)[3]? =
    some (⟨get (ascii "k"), .done, none⟩, some r) ∧ r = ⟨.ok, ascii "3"⟩ := by
  have hn : threePosts[3]? = some ⟨get (ascii "k"), .done, none⟩ := rfl
  obtain ⟨hhandled, hall⟩ := reads_latest connected (fun _ => none) hn
  obtain ⟨res, hres⟩ := hhandled.2 (by decide)
  obtain ⟨hanswered, hread⟩ := hall res hres
  obtain ⟨r, rfl⟩ := Option.ne_none_iff_exists'.1 (hanswered.2 (.inl rfl))
  exact ⟨r, hres, (hread rfl r rfl).trans (by decide)⟩

end BackendTasks.RedisServer
