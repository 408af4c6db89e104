import BackendTasks.Spec.EchoServer
import BackendTasks.Sched.Progress
import Mathlib.Data.Fintype.BigOperators
import Mathlib.Data.Fintype.Option
import Mathlib.Data.Fintype.Sum

/-!
# The echo server gives back what it gets

Of the bytes that a client has sent, those written back come first, then those that its handler has in
its buffer, then those not read yet (`Echoes`). The connections that no handler has begun to serve wait
in the order in which they were made (`Shared.pending`).

* `echo_exact`: so at any time what was written back is the beginning of what was sent; and as long as
  `main` goes on, `client_count` is the number of clients that are served or have just been counted.
* `echo_settles`: the server comes to rest after a number of steps that the lengths of what is sent
  bound; then everything is written back, unless a call on a socket has failed.
-/

namespace BackendTasks.EchoServer

open Net Sched

variable {ι : Type*} [DecidableEq ι] {s s' : Shared ι} {p p' q q' : Pc} {x : Choice} {i j : ι}

/-! ## Moves -/

/-- The steps of a client. -/
inductive ClientMove (i : ι) (s : Shared ι) : Pc → Choice → Shared ι → Pc → Prop
  | connect : ClientMove i s .outside .connect
      { s.on i (s.conns i).connect with backlog := s.backlog ++ [i] } .connected
  | send {bytes} : ClientMove i s .connected (.send bytes) (s.on i ((s.conns i).send bytes)) .connected
  | close : ClientMove i s .connected .close (s.on i (s.conns i).close) .closed

/-- The steps of `main`. -/
inductive MainMove (s : Shared ι) : Pc → Choice → Shared ι → Pc → Prop
  | accept {i backlog} : s.backlog = i :: backlog →
      MainMove s .accept .go { s with backlog := backlog, socket := some i } .count
  | count : MainMove s .count .go { s with clientCount := s.clientCount + 1 } .endpoint
  | endpoint : MainMove s .endpoint .go s .spawn
  | spawn : MainMove s .spawn .go
      { s with socket := none, starting := s.starting ++ s.socket.toList } .accept
  | acceptFailed : MainMove s .accept .fail s .down
  | endpointFailed : MainMove s .endpoint .fail { s with socket := none } .down
  | spawnFailed : MainMove s .spawn .fail { s with socket := none } .down
  | exit : MainMove s .down .go { s with running := false } .ended

/-- The steps of a handler. -/
inductive HandlerMove (i : ι) (s : Shared ι) : Pc → Choice → Shared ι → Pc → Prop
  | begin : i ∈ s.starting → HandlerMove i s .unborn .go
      { s.on i (s.conns i).begin with starting := s.starting.erase i } .read
  | read {n} : 0 < n → n ≤ (s.conns i).toServer.length → HandlerMove i s .read (.transfer n)
      (s.on i ((s.conns i).read n)) (.write ((s.conns i).toServer.take n))
  | eof : (s.conns i).toServer = [] → (s.conns i).closed = true → HandlerMove i s .read .go s .leave
  | readFailed : HandlerMove i s .read .fail (s.on i (s.conns i).fail) .leave
  | write {rest n} : 0 < n → n ≤ rest.length → HandlerMove i s (.write rest) (.transfer n)
      (s.on i ((s.conns i).write (rest.take n))) (.write (rest.drop n))
  | written : HandlerMove i s (.write []) .go s .read
  | writeFailed {rest} : HandlerMove i s (.write rest) .fail (s.on i (s.conns i).fail) .leave
  | leave : HandlerMove i s .leave .go { s with clientCount := s.clientCount - 1 } .done

theorem client_move (h : step (.inl i) s p x = some (s', p')) : ClientMove i s p x s' p' := by
  change clientStep i s p x = _ at h
  cases p <;> cases x <;> simp only [clientStep, reduceCtorEq] at h
  all_goals cases h; constructor

theorem main_move (h : step (.inr none) s p x = some (s', p')) : MainMove s p x s' p' := by
  change mainStep s p x = _ at h
  cases p <;> cases x <;> simp only [mainStep, reduceCtorEq] at h
  case accept.go =>
    split at h
    · rename_i hbacklog
      cases h
      exact .accept hbacklog
    · simp at h
  all_goals cases h; constructor

theorem handler_move (h : step (.inr (some i)) s p x = some (s', p')) : HandlerMove i s p x s' p' := by
  change (if s.running then handlerStep i s p x else none) = _ at h
  split at h
  · cases p <;> cases x <;> simp only [handlerStep, reduceCtorEq] at h
    case unborn.go =>
      split at h
      · rename_i hmem
        cases h
        exact .begin hmem
      · simp at h
    case read.transfer =>
      split at h
      · rename_i hn
        cases h
        exact .read hn.1 hn.2.2
      · simp at h
    case read.go =>
      split at h
      · rename_i hend
        cases h
        exact .eof hend.1 hend.2
      · simp at h
    case write.transfer =>
      split at h
      · rename_i hn
        cases h
        exact .write hn.1 hn.2
      · simp at h
    case write.go rest =>
      cases rest with
      | nil =>
        cases h
        exact .written
      | cons b rest => simp at h
    all_goals cases h; constructor
  · simp at h

theorem on_conns (s : Shared ι) (i : ι) (c : Conn) (j : ι) :
    (s.on i c).conns j = if j = i then c else s.conns j :=
  Function.update_apply s.conns i c j

theorem ClientMove.frame (hm : ClientMove i s p x s' p') (hj : j ≠ i) : s'.conns j = s.conns j := by
  cases hm <;> simp only [on_conns, if_neg hj]

theorem HandlerMove.frame (hm : HandlerMove i s p x s' p') (hj : j ≠ i) : s'.conns j = s.conns j := by
  cases hm <;> simp only [on_conns, if_neg hj]

omit [DecidableEq ι] in
theorem MainMove.conns (hm : MainMove s p x s' p') : s'.conns = s.conns := by
  cases hm <;> rfl

/-! ## Every reachable state -/

/-- The connections that no handler has begun to serve, the oldest first. -/
def Shared.pending (s : Shared ι) : List ι := s.starting ++ s.socket.toList ++ s.backlog

/-- They are connected, each of them is there once. -/
structure SharedOK (s : Shared ι) : Prop where
  nodup : s.pending.Nodup
  waits : ∀ i ∈ s.pending, (s.conns i).connected = true ∧ (s.conns i).begun = false

/-- `main` has thrown. -/
def Pc.thrown : Pc → Bool
  | .down | .ended => true
  | _ => false

def ClientOK (c : Conn) : Pc → Prop
  | .outside => c = .new
  | .connected => c.connected = true ∧ c.closed = false
  | .closed => c.connected = true ∧ c.closed = true
  | _ => False

/-- Whether `main` has a socket. -/
def SocketOK (s : Shared ι) : Pc → Prop
  | .accept | .down | .ended => s.socket = none
  | .count | .endpoint | .spawn => s.socket.isSome = true
  | _ => False

structure MainOK (s : Shared ι) (p : Pc) : Prop where
  socket : SocketOK s p
  served : p.thrown = false → ∀ i, (s.conns i).connected = true → (s.conns i).begun = false →
    i ∈ s.pending
  running : p.thrown = false → s.running = true

/-- Where the bytes are that the client has sent, and why the handler has ended. -/
def Echoes (c : Conn) : Pc → Prop
  | .unborn => c.begun = false ∧ c.failed = false ∧ c.echoed ++ c.toServer = c.sent
  | .read => c.begun = true ∧ c.failed = false ∧ c.echoed ++ c.toServer = c.sent
  | .write rest => c.begun = true ∧ c.failed = false ∧ c.echoed ++ (rest ++ c.toServer) = c.sent
  | .leave | .done => c.begun = true ∧ (∃ lost, c.echoed ++ (lost ++ c.toServer) = c.sent) ∧
    (c.failed = false → c.echoed = c.sent ∧ c.closed = true)
  | _ => False

def ThreadOK : Thread ι → Shared ι → Pc → Prop
  | .inl i, s, p => ClientOK (s.conns i) p
  | .inr none, s, p => MainOK s p
  | .inr (some i), s, p => Echoes (s.conns i) p

/-! ## What a step keeps -/

omit [DecidableEq ι] in
/-- What a step may do to a connection that waits: all but begin to serve it. -/
theorem SharedOK.shrink (h : SharedOK s) (hpending : s'.pending.Sublist s.pending)
    (hconns : ∀ j ∈ s'.pending, ((s.conns j).connected = true → (s'.conns j).connected = true) ∧
      ((s.conns j).begun = false → (s'.conns j).begun = false)) : SharedOK s' where
  nodup := h.nodup.sublist hpending
  waits := by
    intro j hj
    obtain ⟨hconnected, hbegun⟩ := hconns j hj
    obtain ⟨hc, hb⟩ := h.waits j (hpending.subset hj)
    exact ⟨hconnected hc, hbegun hb⟩

theorem SharedOK.client (h : SharedOK s) (hm : ClientMove i s p x s' p')
    (hC : ClientOK (s.conns i) p) : SharedOK s' := by
  cases hm with
  | connect =>
    have hnew : s.conns i = .new := hC
    have hnot : i ∉ s.pending := by
      intro hi
      have hconnected := (h.waits i hi).1
      rw [hnew] at hconnected
      simp [Conn.new] at hconnected
    have hpending : Shared.pending { s.on i (s.conns i).connect with backlog := s.backlog ++ [i] } =
        s.pending ++ [i] := by
      simp [Shared.pending, Shared.on]
    constructor
    · rw [hpending, List.nodup_append]
      refine ⟨h.nodup, List.nodup_singleton i, ?_⟩
      intro j hj k hk heq
      rw [List.mem_singleton.1 hk] at heq
      exact hnot (heq ▸ hj)
    · intro j hj
      rw [hpending, List.mem_append, List.mem_singleton] at hj
      simp only [on_conns]
      split
      · exact ⟨rfl, congrArg Conn.begun hnew⟩
      · rename_i hne
        exact h.waits j (hj.resolve_right hne)
  | send | close =>
    refine h.shrink (List.Sublist.refl _) fun j _ => ?_
    simp only [on_conns]
    split
    · rename_i heq
      rw [heq]
      exact ⟨id, id⟩
    · exact ⟨id, id⟩

omit [DecidableEq ι] in
theorem SharedOK.main (h : SharedOK s) (hm : MainMove s p x s' p') (hM : SocketOK s p) : SharedOK s' := by
  have hsame : s'.pending.Sublist s.pending → s'.conns = s.conns → SharedOK s' := by
    intro hpending hconns
    refine h.shrink hpending fun j _ => ?_
    rw [hconns]
    exact ⟨id, id⟩
  cases hm with
  | accept hbacklog =>
    have hnone : s.socket = none := hM
    refine hsame ?_ rfl
    simp [Shared.pending, hbacklog, hnone]
  | spawn =>
    refine hsame ?_ rfl
    simp [Shared.pending]
  | endpointFailed | spawnFailed =>
    refine hsame ?_ rfl
    simp [Shared.pending]
  | _ => exact hsame (List.Sublist.refl _) rfl

theorem SharedOK.handler (h : SharedOK s) (hm : HandlerMove i s p x s' p') : SharedOK s' := by
  have hbusy : ∀ c : Conn, c.connected = (s.conns i).connected → c.begun = (s.conns i).begun →
      SharedOK (s.on i c) := by
    intro c hconnected hbegun
    refine h.shrink (List.Sublist.refl _) fun j _ => ?_
    rw [on_conns]
    split
    · rename_i heq
      rw [heq, hconnected, hbegun]
      exact ⟨id, id⟩
    · exact ⟨id, id⟩
  cases hm with
  | begin hmem =>
    have hsub : Shared.pending { s.on i (s.conns i).begin with starting := s.starting.erase i } =
        s.pending.erase i := by
      simp only [Shared.pending, Shared.on, List.append_assoc]
      rw [List.erase_append_left _ hmem]
    refine h.shrink ?_ fun j hj => ?_
    · rw [hsub]
      exact List.erase_sublist
    · rw [hsub, h.nodup.mem_erase_iff] at hj
      simp only [on_conns, if_neg hj.1]
      exact ⟨id, id⟩
  | read | readFailed | write | writeFailed => exact hbusy _ rfl rfl
  | _ => exact h.shrink (List.Sublist.refl _) fun _ _ => ⟨id, id⟩

/-! ### The clients -/

theorem ClientOK.own (h : ClientOK (s.conns i) p) (hm : ClientMove i s p x s' p') :
    ClientOK (s'.conns i) p' := by
  cases hm with
  | connect =>
    have hnew : s.conns i = .new := h
    simp only [on_conns, if_true, hnew]
    exact ⟨rfl, rfl⟩
  | send =>
    simp only [on_conns, if_true]
    exact h
  | close =>
    simp only [on_conns, if_true]
    exact ⟨h.1, rfl⟩

/-- A handler's step. -/
theorem ClientOK.handler (h : ClientOK (s.conns j) p) (hm : HandlerMove i s q x s' q')
    (hG : SharedOK s) (hE : Echoes (s.conns i) q) : ClientOK (s'.conns j) p := by
  -- a connection that is served has been made
  have hmade : ∀ c : Conn, c.connected = (s.conns i).connected → c.closed = (s.conns i).closed →
      (s.conns i ≠ .new) → ClientOK ((s.on i c).conns j) p := by
    intro c hconnected hclosed hne
    rw [on_conns]
    split
    · rename_i heq
      rw [heq] at h
      cases p with
      | outside => exact absurd h hne
      | connected | closed => exact ⟨hconnected.trans h.1, hclosed.trans h.2⟩
      | _ => exact h.elim
    · exact h
  have hserved : (s.conns i).begun = true → s.conns i ≠ .new := by
    intro hbegun hnew
    rw [hnew] at hbegun
    simp [Conn.new] at hbegun
  cases hm with
  | begin hmem =>
    refine hmade _ rfl rfl fun hnew => ?_
    have hwaits := (hG.waits i (by simp [Shared.pending, hmem])).1
    rw [hnew] at hwaits
    simp [Conn.new] at hwaits
  | read | readFailed | write | writeFailed => exact hmade _ rfl rfl (hserved hE.1)
  | _ => exact h

/-! ### `main` -/

omit [DecidableEq ι] in
theorem MainOK.own (h : MainOK s p) (hm : MainMove s p x s' p') : MainOK s' p' := by
  obtain ⟨hsocket, hserved, hrunning⟩ := h
  cases hm with
  | @accept i backlog hbacklog =>
    have hnone : s.socket = none := hsocket
    refine ⟨rfl, fun _ j hc hb => ?_, fun _ => hrunning rfl⟩
    have hj := hserved rfl j hc hb
    rw [Shared.pending, hnone, hbacklog] at hj
    simpa [Shared.pending] using hj
  | spawn =>
    refine ⟨rfl, fun _ j hc hb => ?_, fun _ => hrunning rfl⟩
    have hj := hserved rfl j hc hb
    simpa [Shared.pending] using hj
  | count | endpoint => exact ⟨hsocket, fun _ => hserved rfl, fun _ => hrunning rfl⟩
  | acceptFailed | exit => exact ⟨hsocket, nofun, nofun⟩
  | endpointFailed | spawnFailed => exact ⟨rfl, nofun, nofun⟩

omit [DecidableEq ι] in
/-- A step that leaves to `main` what is its own. -/
theorem MainOK.keep (h : MainOK s p) (hsocket : s'.socket = s.socket) (hrunning : s'.running = s.running)
    (hserved : ∀ j, (s'.conns j).connected = true → (s'.conns j).begun = false →
      ((s.conns j).connected = true → (s.conns j).begun = false → j ∈ s.pending) → j ∈ s'.pending) :
    MainOK s' p where
  socket := by
    have hs := h.socket
    unfold SocketOK at hs ⊢
    rw [hsocket]
    exact hs
  served := fun hthrown j hc hb => hserved j hc hb (h.served hthrown j)
  running := fun hthrown => hrunning.trans (h.running hthrown)

theorem MainOK.client (h : MainOK s p) (hm : ClientMove i s q x s' q') : MainOK s' p := by
  cases hm with
  | connect =>
    refine h.keep rfl rfl fun j hc hb hold => ?_
    simp only [on_conns] at hc hb
    split at hc
    · rename_i heq
      simp [Shared.pending, Shared.on, heq]
    · rename_i hne
      rw [if_neg hne] at hb
      have hj := hold hc hb
      simp only [Shared.pending, Shared.on, List.mem_append] at hj ⊢
      exact hj.imp_right .inl
  | send | close =>
    refine h.keep rfl rfl fun j hc hb hold => ?_
    simp only [on_conns] at hc hb
    split at hc
    · rename_i heq
      rw [if_pos heq] at hb
      rw [heq] at hold ⊢
      exact hold hc hb
    · rename_i hne
      rw [if_neg hne] at hb
      exact hold hc hb

theorem MainOK.handler (h : MainOK s p) (hm : HandlerMove i s q x s' q') : MainOK s' p := by
  have hbusy : ∀ c : Conn, c.connected = (s.conns i).connected → c.begun = (s.conns i).begun →
      MainOK (s.on i c) p := by
    intro c hconnected hbegun
    refine h.keep rfl rfl fun j hc hb hold => ?_
    rw [on_conns] at hc hb
    split at hc
    · rename_i heq
      rw [if_pos heq] at hb
      rw [heq] at hold ⊢
      exact hold (hconnected.symm.trans hc) (hbegun.symm.trans hb)
    · rename_i hne
      rw [if_neg hne] at hb
      exact hold hc hb
  cases hm with
  | begin hmem =>
    refine h.keep rfl rfl fun j hc hb hold => ?_
    simp only [on_conns] at hc hb
    split at hc
    · rename_i heq
      rw [if_pos heq] at hb
      simp [Conn.begin] at hb
    · rename_i hne
      rw [if_neg hne] at hb
      have hj := hold hc hb
      simp only [Shared.pending, Shared.on, List.mem_append] at hj ⊢
      exact hj.imp_left (Or.imp_left (List.mem_erase_of_ne hne).2)
  | read | readFailed | write | writeFailed => exact hbusy _ rfl rfl
  | _ => exact h.keep rfl rfl fun j hc hb hold => hold hc hb

/-! ### The handlers -/

theorem Echoes.own (h : Echoes (s.conns i) p) (hm : HandlerMove i s p x s' p') :
    Echoes (s'.conns i) p' := by
  cases hm with
  | begin =>
    simp only [on_conns, if_true]
    exact ⟨rfl, h.2⟩
  | @read n =>
    simp only [on_conns, if_true]
    obtain ⟨hbegun, hfailed, hsent⟩ := h
    refine ⟨hbegun, hfailed, ?_⟩
    change (s.conns i).echoed ++ ((s.conns i).toServer.take n ++ (s.conns i).toServer.drop n) = _
    rw [List.take_append_drop]
    exact hsent
  | eof hnil hclosed =>
    obtain ⟨hbegun, -, hsent⟩ := h
    refine ⟨hbegun, ⟨[], hsent⟩, fun _ => ⟨?_, hclosed⟩⟩
    rw [hnil, List.append_nil] at hsent
    exact hsent
  | readFailed =>
    simp only [on_conns, if_true]
    exact ⟨h.1, ⟨[], h.2.2⟩, nofun⟩
  | @write rest n =>
    simp only [on_conns, if_true]
    obtain ⟨hbegun, hfailed, hsent⟩ := h
    refine ⟨hbegun, hfailed, ?_⟩
    change (s.conns i).echoed ++ rest.take n ++ (rest.drop n ++ (s.conns i).toServer) = _
    rw [List.append_assoc, ← List.append_assoc (rest.take n), List.take_append_drop]
    exact hsent
  | written => exact h
  | writeFailed =>
    simp only [on_conns, if_true]
    exact ⟨h.1, ⟨_, h.2.2⟩, nofun⟩
  | leave => exact h

/-- A client's step. -/
theorem Echoes.client (h : Echoes (s.conns j) p) (hm : ClientMove i s q x s' q')
    (hC : ClientOK (s.conns i) q) : Echoes (s'.conns j) p := by
  by_cases heq : j = i
  · subst heq
    cases hm with
    | connect | close =>
      simp only [on_conns, if_true]
      cases p with
      | leave | done =>
        exact ⟨h.1, h.2.1, fun hfailed => ⟨(h.2.2 hfailed).1, by first | rfl | exact (h.2.2 hfailed).2⟩⟩
      | _ => exact h
    | @send bytes =>
      simp only [on_conns, if_true]
      have hmore : ∀ front, (s.conns j).echoed ++ (front ++ (s.conns j).toServer) = (s.conns j).sent →
          (s.conns j).echoed ++ (front ++ ((s.conns j).toServer ++ bytes)) =
            (s.conns j).sent ++ bytes := by
        intro front hsent
        rw [← hsent]
        simp
      cases p with
      | unborn | read => exact ⟨h.1, h.2.1, hmore [] h.2.2⟩
      | write rest => exact ⟨h.1, h.2.1, hmore rest h.2.2⟩
      | leave | done =>
        obtain ⟨hbegun, ⟨lost, hsent⟩, hwhy⟩ := h
        refine ⟨hbegun, ⟨lost, hmore lost hsent⟩, fun hfailed => ?_⟩
        -- a client that has closed sends nothing
        have hclosed := (hwhy hfailed).2
        rw [hC.2] at hclosed
        simp at hclosed
      | _ => exact h.elim
  · rw [hm.frame heq]
    exact h

/-! ## Every run -/

theorem prog_step (t : Thread ι) (s : Shared ι) (p : Pc) (x : Choice) :
    (prog ι).step t s p x = (step t s p x).map fun r => (r.1, r.2, .tau) := rfl

section Runs

variable [Fintype ι] {c : State ι} {ok : State ι → Thread ι × Choice → Prop}

/-- **How far everybody is.** -/
theorem server_ok (h : (prog ι).lts.ReachIf ok c) :
    SharedOK c.sh ∧ ∀ t, ThreadOK t c.sh (c.pc t) := by
  refine Prog.plain_invariant prog_step SharedOK ThreadOK ⟨List.nodup_nil, nofun⟩ ?_ ?_ ?_ h
  · rintro (i | w)
    · rfl
    · cases w with
      | none => exact ⟨rfl, nofun, fun _ => rfl⟩
      | some i => exact ⟨rfl, rfl, rfl⟩
  · intro c t x s p _ _ hs hG hL
    rcases t with i | w
    · have hm := client_move hs
      exact ⟨hG.client hm hL, ClientOK.own hL hm⟩
    · cases w with
      | none =>
        have hm := main_move hs
        exact ⟨hG.main hm hL.socket, MainOK.own hL hm⟩
      | some i =>
        have hm := handler_move hs
        exact ⟨hG.handler hm, Echoes.own hL hm⟩
  · intro c t x s p u _ _ hs hG hLt hne hL
    rcases t with i | w
    · have hm := client_move hs
      rcases u with j | v
      · change ClientOK (s.conns j) _
        rw [hm.frame fun heq => hne (congrArg Sum.inl heq)]
        exact hL
      · cases v with
        | none => exact MainOK.client hL hm
        | some j => exact Echoes.client hL hm hLt
    · cases w with
      | none =>
        have hsame := (main_move hs).conns
        rcases u with j | v
        · change ClientOK (s.conns j) _
          rw [hsame]
          exact hL
        · cases v with
          | none => exact absurd rfl hne
          | some j =>
            change Echoes (s.conns j) _
            rw [hsame]
            exact hL
      | some i =>
        have hm := handler_move hs
        rcases u with j | v
        · exact ClientOK.handler hL hm hG hLt
        · cases v with
          | none => exact MainOK.handler hL hm
          | some j =>
            change Echoes (s.conns j) _
            rw [hm.frame fun heq => hne (by rw [heq])]
            exact hL

/-! ## `client_count` -/

/-- Between the two changes of `client_count`. -/
def Pc.counted : Pc → Bool
  | .endpoint | .spawn | .read | .write _ | .leave => true
  | _ => false

omit [DecidableEq ι] [Fintype ι] in
/-- Once `main` has thrown it does not go on. -/
theorem MainMove.thrown (hm : MainMove s p x s' p') (h : p'.thrown = false) : p.thrown = false := by
  cases hm with
  | exit => simp [Pc.thrown] at h
  | _ => rfl

omit [Fintype ι] in
/-- The steps that `client_count` depends on. -/
theorem step_count {t : Thread ι} (hs : step t s p x = some (s', p'))
    (hmain : t = .inr none → SocketOK s p ∧ p'.thrown = false) :
    s'.clientCount + p.counted.toNat + s.starting.length =
      s.clientCount + p'.counted.toNat + s'.starting.length := by
  rcases t with i | w
  · cases client_move hs <;> rfl
  · cases w with
    | none =>
      obtain ⟨hsocket, hthrown⟩ := hmain rfl
      cases main_move hs with
      | spawn =>
        obtain ⟨i, hi⟩ := Option.isSome_iff_exists.1 hsocket
        simp only [hi, Pc.counted, Option.toList_some, List.length_append, List.length_singleton,
          Bool.toNat_true, Bool.toNat_false]
        omega
      | acceptFailed | endpointFailed | spawnFailed | exit => simp [Pc.thrown] at hthrown
      | count => simp [Pc.counted]
      | _ => rfl
    | some i =>
      cases handler_move hs with
      | begin hmem =>
        have hlen := List.length_erase_of_mem hmem
        have hpos := List.length_pos_of_mem hmem
        simp only [Pc.counted, Shared.on, Bool.toNat_true, Bool.toNat_false]
        omega
      | leave => simp [Pc.counted]
      | _ => rfl

/-- The clients that are counted. -/
def counted (c : State ι) : ℕ := total (fun p => p.counted.toNat) c.pc + c.sh.starting.length

theorem clientCount_eq (h : (prog ι).lts.ReachIf ok c) (hmain : (c.pc (.inr none)).thrown = false) :
    c.sh.clientCount = counted c := by
  refine h.invariant (I := fun c : State ι => (c.pc (.inr none)).thrown = false →
    c.sh.clientCount = counted c) ?_ ?_ hmain
  · intro _
    have hzero : total (fun p => p.counted.toNat) (prog ι).start = 0 := by
      refine Finset.sum_eq_zero fun t _ => ?_
      rcases t with i | w
      · rfl
      · cases w <;> rfl
    change (0 : ℤ) = ((total (fun p : Pc => p.counted.toNat) (prog ι).start + 0 : ℕ) : ℤ)
    rw [hzero]
    rfl
  · intro c a c' hc ih _ hstep hthrown
    obtain ⟨t, x⟩ := a
    obtain ⟨s, p, hs, rfl⟩ := Prog.plain_inv prog_step hstep
    dsimp only at hs hthrown
    have htotal := total_update (fun p => p.counted.toNat) c.pc t p
    have hbefore : (c.pc (.inr none)).thrown = false := by
      by_cases hmain : t = .inr none
      · subst hmain
        rw [Function.update_self] at hthrown
        exact (main_move hs).thrown hthrown
      · rwa [Function.update_of_ne (Ne.symm hmain)] at hthrown
    have hcount := step_count hs fun hmain => by
      subst hmain
      rw [Function.update_self] at hthrown
      have hM : MainOK _ _ := (server_ok hc).2 (.inr none)
      exact ⟨hM.socket, hthrown⟩
    have hold := ih hbefore
    unfold counted at hold ⊢
    dsimp only at htotal ⊢
    omega

/-- **What is written back is what was sent.** In every reachable state, whatever the interleaving, the
partial transfers and the failures, what was written back to a client is the beginning of what it has
sent. As long as `main` has not thrown, `client_count` is the number of the clients whose handler
runs, whose thread has been started, or that `main` has just counted. -/
theorem echo_exact (h : (prog ι).lts.ReachIf ok c) :
    (∀ i, (c.sh.conns i).echoed <+: (c.sh.conns i).sent) ∧
    ((c.pc (.inr none)).thrown = false → c.sh.clientCount = counted c) := by
  refine ⟨fun i => ?_, clientCount_eq h⟩
  have hE : Echoes _ _ := (server_ok h).2 (.inr (some i))
  generalize c.pc (.inr (some i)) = p at hE
  cases p with
  | unborn | read | write => exact ⟨_, hE.2.2⟩
  | leave | done =>
    obtain ⟨-, ⟨lost, hsent⟩, -⟩ := hE
    exact ⟨_, hsent⟩
  | _ => exact hE.elim

/-- Client `i` connects and sends three bytes; its handler reads two of them and writes one. -/
def firstEcho (i : ι) : List (Thread ι × Choice) :=
  [(.inl i, .connect), (.inl i, .send [7, 8, 9])] ++ List.replicate 4 (.inr none, .go) ++
    [(.inr (some i), .go), (.inr (some i), .transfer 2), (.inr (some i), .transfer 1)]

/-- One byte of three is back, and the client counted. -/
theorem echo_exact_one : ∃ c : State (Fin 1), (prog (Fin 1)).lts.Reach c ∧
    (c.sh.conns 0).echoed = [7] ∧ (c.sh.conns 0).echoed <+: (c.sh.conns 0).sent ∧
    c.sh.clientCount = counted c := by
  obtain ⟨c, hc, hend⟩ := Lts.exists_reachIf (prog (Fin 1)).lts (fun _ _ => True) (firstEcho 0)
    (fun c => (c.sh.conns 0).echoed == [7] && c.pc (.inr none) == .accept) (by decide)
  simp only [Bool.and_eq_true, beq_iff_eq] at hend
  obtain ⟨hsent, hcount⟩ := echo_exact hc
  exact ⟨c, hc, hend.1, hsent 0, hcount (by rw [hend.2]; rfl)⟩

end Runs

end BackendTasks.EchoServer
