import BackendTasks.Proof.HttpThreads
import Mathlib.Data.Fintype.Option
import Mathlib.Data.Fintype.Sum

/-!
# The connections of the HTTP server

A connection is in one place at a time, and so a thread of the pool is the only one that serves it.
A client and the server change different parts of it: what a client's step keeps is `ByClient`, what
a step of the server keeps is `ByServer`.

* `conns_ok`: in every reachable state each connection and each thread is as `ConnOK` and `ThreadOK`
say. -/

namespace BackendTasks.HttpServer

open Net Sched

variable {ι : Type*} [DecidableEq ι] {limits : Limits}
  {text : ι → Bytes} {s s' : Shared ι} {p p' : Pc ι}
  {x : Choice ι} {i j : ι} {k : Fin 4}

/-! ## Connections and threads -/

/-- Why the server has closed a connection. -/
def Ended (limits : Limits) (c : Conn) : Prop :=
  c.failed = true ∨ c.clientClosed = true ∨ Unparsed limits c.heard ∨ c.written ≠ []

/-- The server has not read yet. -/
def Stage.early : Stage → Bool
  | .taken _ | .closed => false
  | _ => true

/-- What holds of a connection, whoever has it. Of what is answered only the last response may be
missing in part. -/
structure ConnOK (limits : Limits) (stopped : Bool) (c : Conn) : Prop where
  written : c.written <+: answer limits c.heard
  begun : ∀ earlier read, c.heard = earlier ++ [read] → answer limits earlier <+: c.written
  reads : ∀ read ∈ c.heard, read ≠ []
  early : c.stage.early = true → c.heard = [] ∧ c.written = []
  closed : c.serverClosed = true ↔ c.stage = .closed
  ended : stopped = false → c.serverClosed = true → Ended limits c

/-- What holds of the connections together. -/
structure SharedOK (limits : Limits) (s : Shared ι) : Prop where
  conn : ∀ i, ConnOK limits s.stopped (s.conns i)
  backlog : Listed .waiting s.backlog s.conns
  tasks : Listed .posted s.tasks s.conns

/-- The client has got these bytes. -/
structure Got (text : Bytes) (c : Conn) (response : Bytes) : Prop where
  stage : c.stage ≠ .fresh
  sent : c.heard.flatten ++ c.toServer = text
  ne_nil : response ≠ []
  length_le : response.length ≤ 1024
  written : response ++ c.toClient = c.written

/-- The client has got nothing, and why. -/
structure Lost (limits : Limits) (text : Bytes) (stopped : Bool) (c : Conn) : Prop where
  sent : c.heard.flatten ++ c.toServer <+: text
  why : stopped = true ∨ c.failed = true ∨ Unparsed limits c.heard

/-- What holds of a client and its connection. -/
def ClientOK (limits : Limits) (text : Bytes) (stopped : Bool) (c : Conn) : Pc ι → Prop
  | .connect => c = .new
  | .send rest => c.stage ≠ .fresh ∧ c.clientClosed = false ∧
    c.heard.flatten ++ c.toServer ++ rest = text ∧
      c.toClient = c.written
  | .receive => c.stage ≠ .fresh ∧ c.clientClosed = false ∧ c.heard.flatten ++ c.toServer = text ∧
      c.toClient = c.written
  | .leave (some response) => c.clientClosed = false ∧ Got text c response
  | .leave none => c.stage ≠ .fresh ∧ c.clientClosed = false ∧ Lost limits text stopped c
  | .returned response => c.clientClosed = true ∧ Got text c response
  | .threw => (c.stage = .fresh ∨ c.clientClosed = true) ∧ Lost limits text stopped c
  | _ => False

/-- The connection that a thread of the server has. -/
def Pc.held : Pc ι → List ι
  | .post i | .enter i | .read i | .write i _ _ | .exit i | .close i => [i]
  | _ => []

/-- Where `start` is. -/
def StartOK (stopped : Bool) : Pc ι → Prop
  | .accept | .post _ => stopped = false
  | .drop | .stopped => stopped = true
  | _ => False

/-- What holds of a connection that a thread of the pool has, and of that thread. -/
def ServeOK (limits : Limits) (conns : ι → Conn) : Pc ι → Prop
  | .idle => True
  | .enter i => (conns i).heard = [] ∧ (conns i).written = []
  | .read i => Serving limits (conns i).heard ∧
    (conns i).written = answer limits (conns i).heard ∧
      ((conns i).heard = [] ∨ (conns i).written ≠ [])
  | .write i closes rest => (conns i).written ++ rest = answer limits (conns i).heard ∧
      answer limits (conns i).heard ≠ [] ∧ (closes = false → Serving limits (conns i).heard)
  | .exit i | .close i => Ended limits (conns i)
  | _ => False

/-- What holds of a thread. -/
def ThreadOK (limits : Limits) (text : ι → Bytes) : Thread ι → Shared ι → Pc ι → Prop
  | .inl i, s, p => ClientOK limits (text i) s.stopped (s.conns i) p
  | .inr none, s, p => Listed .accepted p.held s.conns ∧ StartOK s.stopped p
  | .inr (some k), s, p => Listed (.taken k) p.held s.conns ∧ ServeOK limits s.conns p

/-! ## What a step keeps -/

/-- What a client's step keeps of its connection. -/
structure ByClient (c c' : Conn) : Prop where
  stage : c'.stage = c.stage ∨ c.stage = .fresh ∧ c'.stage = .waiting
  heard : c'.heard = c.heard
  written : c'.written = c.written
  serverClosed : c'.serverClosed = c.serverClosed
  clientClosed : c.clientClosed = true → c'.clientClosed = true
  failed : c.failed = true → c'.failed = true

/-- What a step of the server keeps of a connection. -/
structure ByServer (c c' : Conn) : Prop where
  before : c.stage ≠ .fresh
  after : c'.stage ≠ .fresh
  clientClosed : c'.clientClosed = c.clientClosed
  stream : c'.heard.flatten ++ c'.toServer = c.heard.flatten ++ c.toServer
  output : ∃ bytes, c'.toClient = c.toClient ++ bytes ∧ c'.written = c.written ++ bytes
  failed : c.failed = true → c'.failed = true
  heard : ∀ read ∈ c.heard, read ∈ c'.heard

variable {c c' : Conn} {stopped stopped' : Bool} {request : Bytes}

theorem Ended.mono (h : Ended limits c) (hfailed : c.failed = true → c'.failed = true)
    (hclosed : c.clientClosed = true → c'.clientClosed = true)
    (hheard : ∀ read ∈ c.heard, read ∈ c'.heard)
    (hwritten : c.written ≠ [] → c'.written ≠ []) : Ended limits c' := by
  rcases h with h | h | ⟨read, hread, e, he⟩ | h
  · exact .inl (hfailed h)
  · exact .inr (.inl (hclosed h))
  · exact .inr (.inr (.inl ⟨read, hheard read hread, e, he⟩))
  · exact .inr (.inr (.inr (hwritten h)))

theorem ByClient.ended (h : ByClient c c') (hc : Ended limits c) : Ended limits c' :=
  hc.mono h.failed h.clientClosed (fun _ hread => h.heard ▸ hread) fun hne => h.written ▸ hne

theorem ByServer.ended (h : ByServer c c') (hc : Ended limits c) : Ended limits c' := by
  obtain ⟨bytes, -, hwritten⟩ := h.output
  refine hc.mono h.failed (fun hclosed => h.clientClosed.trans hclosed) h.heard fun hne => ?_
  rw [hwritten]
  exact List.append_ne_nil_of_left_ne_nil hne bytes

theorem Lost.byServer (hL : Lost limits request stopped c) (h : ByServer c c')
    (hstopped : stopped = true → stopped' = true) : Lost limits request stopped' c' := by
  refine ⟨h.stream ▸ hL.sent, ?_⟩
  rcases hL.why with hwhy | hwhy | ⟨read, hread, e, he⟩
  · exact .inl (hstopped hwhy)
  · exact .inr (.inl (h.failed hwhy))
  · exact .inr (.inr ⟨read, h.heard read hread, e, he⟩)

theorem Got.byServer {response : Bytes} (hG : Got request c response) (h : ByServer c c') :
    Got request c' response := by
  obtain ⟨bytes, htoClient, hwritten⟩ := h.output
  refine ⟨h.after, h.stream.trans hG.sent, hG.ne_nil, hG.length_le, ?_⟩
  rw [htoClient, hwritten, ← List.append_assoc, hG.written]

omit [DecidableEq ι] in
/-- **The server does not disturb a client.** -/
theorem ClientOK.byServer (hL : ClientOK limits request stopped c p) (h : ByServer c c')
    (hstopped : stopped = true → stopped' = true) : ClientOK limits request stopped' c' p := by
  obtain ⟨bytes, htoClient, hwritten⟩ := h.output
  cases p with
  | connect => exact absurd (congrArg Conn.stage (hL : c = .new)) h.before
  | send rest =>
    obtain ⟨-, hopen, hsent, hnothing⟩ := hL
    exact ⟨h.after, h.clientClosed.trans hopen, by rw [h.stream, hsent],
      by rw [htoClient, hwritten, hnothing]⟩
  | receive =>
    obtain ⟨-, hopen, hsent, hnothing⟩ := hL
    exact ⟨h.after, h.clientClosed.trans hopen, h.stream.trans hsent,
      by rw [htoClient, hwritten, hnothing]⟩
  | leave result =>
    cases result with
    | none => exact ⟨h.after, h.clientClosed.trans hL.2.1, hL.2.2.byServer h hstopped⟩
    | some response => exact ⟨h.clientClosed.trans hL.1, hL.2.byServer h⟩
  | returned response => exact ⟨h.clientClosed.trans hL.1, hL.2.byServer h⟩
  | threw => exact ⟨.inr (h.clientClosed.trans (hL.1.resolve_left h.before)),
    hL.2.byServer h hstopped⟩
  | _ => exact hL

omit [DecidableEq ι] in
theorem ClientOK.stop (hL : ClientOK limits request stopped c p)
    (hstopped : stopped = true → stopped' = true) :
    ClientOK limits request stopped' c p := by
  have hlost : Lost limits request stopped c → Lost limits request stopped' c := by
    rintro ⟨hsent, hwhy⟩
    exact ⟨hsent, hwhy.imp_left hstopped⟩
  cases p with
  | leave result =>
    cases result with
    | none => exact ⟨hL.1, hL.2.1, hlost hL.2.2⟩
    | some response => exact hL
  | threw => exact ⟨hL.1, hlost hL.2⟩
  | _ => exact hL

theorem ConnOK.byClient (hC : ConnOK limits stopped c) (h : ByClient c c') :
    ConnOK limits stopped c' := by
  have hearly : c'.stage.early = c.stage.early := by
    rcases h.stage with hsame | ⟨hfresh, hwaiting⟩
    · rw [hsame]
    · rw [hfresh, hwaiting]
      rfl
  have hclosed : c'.stage = .closed ↔ c.stage = .closed := by
    rcases h.stage with hsame | ⟨hfresh, hwaiting⟩
    · rw [hsame]
    · rw [hfresh, hwaiting]
      simp
  refine ⟨?_, ?_, ?_, ?_, ?_, ?_⟩
  · rw [h.heard, h.written]
    exact hC.written
  · rw [h.heard, h.written]
    exact hC.begun
  · rw [h.heard]
    exact hC.reads
  · rw [h.heard, h.written, hearly]
    exact hC.early
  · rw [h.serverClosed, hclosed]
    exact hC.closed
  · rw [h.serverClosed]
    exact fun hrun hc => h.ended (hC.ended hrun hc)

omit [DecidableEq ι] in
/-- A client does not disturb a thread of the pool. -/
theorem ServeOK.byClient {conns conns' : ι → Conn}
    (hframe : ∀ i, conns' i = conns i ∨ ByClient (conns i) (conns' i))
    (h : ServeOK limits conns p) :
    ServeOK limits conns' p := by
  have hheard : ∀ i, (conns' i).heard = (conns i).heard := fun i =>
    (hframe i).elim (fun hsame => by rw [hsame]) fun hby => hby.heard
  have hwritten : ∀ i, (conns' i).written = (conns i).written := fun i =>
    (hframe i).elim (fun hsame => by rw [hsame]) fun hby => hby.written
  have hended : ∀ i, Ended limits (conns i) → Ended limits (conns' i) := fun i hc =>
    (hframe i).elim (fun hsame => by rwa [hsame]) fun hby => hby.ended hc
  cases p with
  | exit i | close i => exact hended i h
  | enter i | read i | write i closes rest =>
    simp only [ServeOK, hheard, hwritten]
    exact h
  | _ => exact h

/-! ## A client's steps -/

theorem on_conns (s : Shared ι) (i j : ι) (c : Conn) :
    (s.on i c).conns j = if j = i then c else s.conns j := Function.update_apply ..

theorem on_by {R : Conn → Conn → Prop} {s : Shared ι} {c : Conn} (hR : R (s.conns i) c) (j : ι) :
    (s.on i c).conns j = s.conns j ∨ j = i ∧ R (s.conns j) ((s.on i c).conns j) := by
  rw [on_conns]
  by_cases hj : j = i
  · subst hj
    rw [if_pos rfl]
    exact .inr ⟨rfl, hR⟩
  · rw [if_neg hj]
    exact .inl rfl

theorem client_by (hm : ClientMove request i s p x s' p')
    (hL : ClientOK limits request s.stopped (s.conns i) p) (j : ι) :
    s'.conns j = s.conns j ∨ j = i ∧ ByClient (s.conns j) (s'.conns j) := by
  cases hm with
  | connect =>
    have hnew : s.conns i = .new := hL
    have hby : ByClient (s.conns i) ((s.conns i).move .waiting) :=
      ⟨.inr ⟨by rw [hnew]; rfl, rfl⟩, rfl, rfl, rfl, id, id⟩
    exact on_by hby j
  | sent | eof => exact .inl rfl
  | refused | sendFailed | receiveFailed =>
    refine on_by ?_ j
    exact ⟨.inl rfl, rfl, rfl, rfl, id, fun _ => rfl⟩
  | leave =>
    refine on_by ?_ j
    exact ⟨.inl rfl, rfl, rfl, rfl, fun _ => rfl, id⟩
  | send | receive =>
    refine on_by ?_ j
    exact ⟨.inl rfl, rfl, rfl, rfl, id, id⟩

/-- Where a client's connection is does not change, once it is connected. -/
theorem client_stage (hm : ClientMove request i s p x s' p') (hp : p ≠ .connect) (j : ι) :
    (s'.conns j).stage = (s.conns j).stage := by
  have hon : ∀ c : Conn, c.stage = (s.conns i).stage →
      ((s.on i c).conns j).stage = (s.conns j).stage := by
    intro c hc
    rw [on_conns]
    by_cases hj : j = i
    · rw [if_pos hj, hj, hc]
    · rw [if_neg hj]
  cases hm with
  | connect => exact absurd rfl hp
  | refused => exact absurd rfl hp
  | sent | eof => rfl
  | _ => exact hon _ rfl

theorem client_stopped (hm : ClientMove request i s p x s' p') : s'.stopped = s.stopped := by
  cases hm <;> rfl

theorem client_shared (hm : ClientMove request i s p x s' p') (hG : SharedOK limits s)
    (hL : ClientOK limits request s.stopped (s.conns i) p) : SharedOK limits s' := by
  have hconn : ∀ j, ConnOK limits s'.stopped (s'.conns j) := by
    intro j
    rw [client_stopped hm]
    rcases client_by hm hL j with hsame | ⟨-, hby⟩
    · rw [hsame]
      exact hG.conn j
    · exact (hG.conn j).byClient hby
  have hstage : p ≠ .connect → ∀ j, (s'.conns j).stage = (s.conns j).stage := client_stage hm
  cases hm with
  | connect =>
    have hfresh : (s.conns i).stage = .fresh := congrArg Conn.stage (hL : s.conns i = .new)
    refine ⟨hconn, hG.backlog.enter (by simp [hfresh]) rfl, ?_⟩
    refine hG.tasks.frame fun j => ?_
    by_cases hj : j = i
    · subst hj
      exact .inr ⟨by simp [hfresh], by simp [on_conns, Conn.move]⟩
    · exact .inl (by rw [on_conns, if_neg hj])
  | refused =>
    refine ⟨hconn, hG.backlog.congr fun j => ?_, hG.tasks.congr fun j => ?_⟩
    all_goals
      rw [on_conns]
      by_cases hj : j = i
      · rw [if_pos hj, hj]
        rfl
      · rw [if_neg hj]
  | _ => exact ⟨hconn, hG.backlog.congr fun j => by rw [hstage (by simp) j],
      hG.tasks.congr fun j => by rw [hstage (by simp) j]⟩

theorem client_own (hm : ClientMove request i s p x s' p') (hG : SharedOK limits s)
    (hL : ClientOK limits request s.stopped (s.conns i) p) :
    ClientOK limits request s'.stopped (s'.conns i) p' := by
  have hself : ∀ c : Conn, (s.on i c).conns i = c := fun c => by rw [on_conns, if_pos rfl]
  cases hm with
  | connect =>
    have hnew : s.conns i = .new := hL
    change _ ∧ _ ∧ _ ∧ _
    rw [hself, hnew]
    exact ⟨by simp [Conn.move], rfl, rfl, rfl⟩
  | refused =>
    have hnew : s.conns i = .new := hL
    change _ ∧ _
    rw [hself, hnew]
    exact ⟨.inl rfl, List.nil_prefix, .inr (.inl rfl)⟩
  | @send rest n _ hn =>
    obtain ⟨hstage, hopen, hsent, hnothing⟩ := hL
    change _ ∧ _ ∧ _ ∧ _
    rw [hself]
    refine ⟨hstage, hopen, ?_, hnothing⟩
    have hstream : (s.conns i).heard.flatten ++
        ((s.conns i).toServer ++ rest.take n) ++ rest.drop n =
        (s.conns i).heard.flatten ++ (s.conns i).toServer ++ rest := by
      rw [← List.append_assoc, List.append_assoc, List.take_append_drop]
    exact hstream.trans hsent
  | sent =>
    obtain ⟨hstage, hopen, hsent, hnothing⟩ := hL
    rw [List.append_nil] at hsent
    exact ⟨hstage, hopen, hsent, hnothing⟩
  | @sendFailed rest =>
    obtain ⟨hstage, hopen, hsent, -⟩ := hL
    change _ ∧ _ ∧ _
    rw [hself]
    exact ⟨hstage, hopen, ⟨rest, hsent⟩, .inr (.inl rfl)⟩
  | receiveFailed =>
    obtain ⟨hstage, hopen, hsent, -⟩ := hL
    change _ ∧ _ ∧ _
    rw [hself]
    exact ⟨hstage, hopen, ⟨[], (List.append_nil _).trans hsent⟩, .inr (.inl rfl)⟩
  | @receive n hpos hle hn =>
    obtain ⟨hstage, hopen, hsent, hnothing⟩ := hL
    change _ ∧ _
    rw [hself]
    refine ⟨hopen, hstage, hsent, ?_, ?_, ?_⟩
    · intro hnil
      have hlen := congrArg List.length hnil
      rw [List.length_take, List.length_nil] at hlen
      omega
    · rw [List.length_take]
      omega
    · exact (List.take_append_drop n _).trans hnothing
  | eof hnil hclosed =>
    obtain ⟨hstage, hopen, hsent, hnothing⟩ := hL
    refine ⟨hstage, hopen, ⟨[], (List.append_nil _).trans hsent⟩, ?_⟩
    cases hstopped : s.stopped with
    | true => exact .inl rfl
    | false =>
      rcases (hG.conn i).ended hstopped hclosed with h | h | h | h
      · exact .inr (.inl h)
      · rw [hopen] at h
        simp at h
      · exact .inr (.inr h)
      · exact absurd (hnothing.symm.trans hnil) h
  | @leave result =>
    cases result with
    | none =>
      obtain ⟨-, -, hlost⟩ := hL
      change _ ∧ _
      rw [hself]
      exact ⟨.inr rfl, hlost.sent, hlost.why⟩
    | some response =>
      obtain ⟨-, hgot⟩ := hL
      change _ ∧ _
      rw [hself]
      exact ⟨rfl, hgot.stage, hgot.sent, hgot.ne_nil, hgot.length_le, hgot.written⟩

/-- A client does not disturb the server. -/
theorem server_under_client (hm : ClientMove request i s p x s' p')
    (hL : ClientOK limits request s.stopped (s.conns i) p) {w : Option (Fin 4)} {q : Pc ι}
    (hw : ThreadOK limits text (.inr w) s q) : ThreadOK limits text (.inr w) s' q := by
  have hframe : ∀ j, s'.conns j = s.conns j ∨ ByClient (s.conns j) (s'.conns j) := fun j =>
    (client_by hm hL j).imp_right And.right
  have hstage : ∀ stage, stage ≠ .fresh → stage ≠ .waiting → ∀ j,
      (s'.conns j).stage = stage ↔ (s.conns j).stage = stage := by
    intro stage hfresh hwaiting j
    rcases hframe j with hsame | hby
    · rw [hsame]
    · rcases hby.stage with hsame | ⟨hbefore, hafter⟩
      · rw [hsame]
      · rw [hbefore, hafter]
        exact iff_of_false (Ne.symm hwaiting) (Ne.symm hfresh)
  cases w with
  | none => exact ⟨hw.1.congr (hstage _ (by simp) (by simp)), client_stopped hm ▸ hw.2⟩
  | some k => exact ⟨hw.1.congr (hstage _ (by simp) (by simp)), hw.2.byClient hframe⟩

/-! ## The steps of `start` -/

/-- What a step of the server does to the connections. -/
def ServerFrame (stages : Stage → Prop) (s s' : Shared ι) : Prop :=
  ∀ j, s'.conns j = s.conns j ∨
    stages (s.conns j).stage ∧ stages (s'.conns j).stage ∧ ByServer (s.conns j) (s'.conns j)

theorem on_server {stages : Stage → Prop} {c : Conn} (hbefore : stages (s.conns i).stage)
    (hafter : stages c.stage) (hby : ByServer (s.conns i) c) : ServerFrame stages s (s.on i c) := by
  intro j
  rw [on_conns]
  by_cases hj : j = i
  · subst hj
    rw [if_pos rfl]
    exact .inr ⟨hbefore, hafter, hby⟩
  · rw [if_neg hj]
    exact .inl rfl

/-- The server changes only where the connection is. -/
theorem byServer_move {c : Conn} {stage : Stage} (hbefore : c.stage ≠ .fresh)
    (hafter : stage ≠ .fresh) :
    ByServer c (c.move stage) :=
  ⟨hbefore, hafter, rfl, rfl, ⟨[], (List.append_nil _).symm, (List.append_nil _).symm⟩, id,
    fun _ => id⟩

theorem byServer_drop {c : Conn} (hbefore : c.stage ≠ .fresh) : ByServer c c.drop :=
  ⟨hbefore, by simp [Conn.drop], rfl, rfl, ⟨[], (List.append_nil _).symm, (List.append_nil _).symm⟩,
    id,
    fun _ => id⟩

/-- The stages at which a connection is that `start` has to do with. -/
def Stage.ofStart : Stage → Prop
  | .waiting | .accepted | .posted | .closed => True
  | _ => False

theorem start_frame (hm : StartMove s p x s' p') (hG : SharedOK limits s)
    (hL : Listed .accepted p.held s.conns) : ServerFrame Stage.ofStart s s' := by
  have hof : ∀ {j stage}, (s.conns j).stage = stage → stage.ofStart → (s.conns j).stage.ofStart :=
    fun h hstage => h ▸ hstage
  cases hm with
  | @accept i backlog hbacklog =>
    have hstage : (s.conns i).stage = .waiting :=
      (hG.backlog.2 i).1 (by rw [hbacklog]; exact List.mem_cons_self)
    exact on_server (hof hstage trivial) trivial (byServer_move (by simp [hstage]) (by simp))
  | @post i =>
    have hstage : (s.conns i).stage = .accepted := (hL.2 i).1 List.mem_cons_self
    exact on_server (hof hstage trivial) trivial (byServer_move (by simp [hstage]) (by simp))
  | @drop i tasks htasks =>
    have hstage : (s.conns i).stage = .posted :=
      (hG.tasks.2 i).1 (by rw [htasks]; exact List.mem_cons_self)
    exact on_server (hof hstage trivial) trivial (byServer_drop (by simp [hstage]))
  | failed | stopped => exact fun j => .inl rfl

omit [DecidableEq ι] in
theorem ServerFrame.listed {stages : Stage → Prop} {stage : Stage} {l : List ι}
    (h : ServerFrame stages s s') (hstage : ¬ stages stage) (hl : Listed stage l s.conns) :
    Listed stage l s'.conns := by
  refine hl.frame fun j => (h j).imp_right ?_
  rintro ⟨hbefore, hafter, -⟩
  exact ⟨fun heq => hstage (heq ▸ hbefore), fun heq => hstage (heq ▸ hafter)⟩

/-- A connection on which the server only waits. -/
theorem ConnOK.move (hC : ConnOK limits stopped c) (stage : Stage)
    (hbefore : c.stage.early = true) (hopen : stage ≠ .closed) :
    ConnOK limits stopped (c.move stage) := by
  have hnot : c.serverClosed ≠ true := by
    intro hclosed
    rw [hC.closed.1 hclosed] at hbefore
    simp [Stage.early] at hbefore
  exact ⟨hC.written, hC.begun, hC.reads, fun _ => hC.early hbefore, iff_of_false hnot hopen,
    fun _ hclosed => absurd hclosed hnot⟩

theorem ConnOK.drop (hC : ConnOK limits stopped c) (hended : stopped = false → Ended limits c) :
    ConnOK limits stopped c.drop :=
  ⟨hC.written, hC.begun, hC.reads, fun hearly => by simp [Conn.drop, Stage.early] at hearly,
    iff_of_true rfl rfl,
    fun hrun _ => hended hrun⟩

theorem ConnOK.stop (hC : ConnOK limits stopped c) : ConnOK limits true c :=
  ⟨hC.written, hC.begun, hC.reads, hC.early, hC.closed, fun h => by simp at h⟩

/-- The connections after a step on one of them. -/
theorem conn_on {c : Conn} (hG : SharedOK limits s) (hc : ConnOK limits s.stopped c) (j : ι) :
    ConnOK limits (s.on i c).stopped ((s.on i c).conns j) := by
  rw [on_conns]
  by_cases hj : j = i
  · rw [if_pos hj]
    exact hc
  · rw [if_neg hj]
    exact hG.conn j

/-- Lists that have nothing to do with a step. -/
theorem Listed.on {stage : Stage} {l : List ι} {c : Conn} (h : Listed stage l s.conns)
    (hbefore : (s.conns i).stage ≠ stage) (hafter : c.stage ≠ stage) :
    Listed stage l (s.on i c).conns := by
  refine h.frame fun j => ?_
  rw [on_conns]
  by_cases hj : j = i
  · subst hj
    rw [if_pos rfl]
    exact .inr ⟨hbefore, hafter⟩
  · rw [if_neg hj]
    exact .inl rfl

theorem start_own (hm : StartMove s p x s' p') (hG : SharedOK limits s)
    (hL : Listed .accepted p.held s.conns) (hS : StartOK s.stopped p) :
    SharedOK limits s' ∧ Listed .accepted p'.held s'.conns ∧ StartOK s'.stopped p' := by
  cases hm with
  | @accept i backlog hbacklog =>
    have hlist := hG.backlog
    rw [hbacklog] at hlist
    have hstage : (s.conns i).stage = .waiting := (hlist.2 i).1 List.mem_cons_self
    have hconn := (hG.conn i).move .accepted (by rw [hstage]; rfl) (by simp)
    exact ⟨⟨conn_on hG hconn, hlist.tail (by simp [Conn.move]),
      hG.tasks.on (by simp [hstage]) (by simp [Conn.move])⟩, hL.enter (by simp [hstage]) rfl, hS⟩
  | failed => exact ⟨⟨fun j => (hG.conn j).stop, hG.backlog, hG.tasks⟩, hL, rfl⟩
  | @post i =>
    have hstage : (s.conns i).stage = .accepted := (hL.2 i).1 List.mem_cons_self
    have hconn := (hG.conn i).move .posted (by rw [hstage]; rfl) (by simp)
    exact ⟨⟨conn_on hG hconn, hG.backlog.on (by simp [hstage]) (by simp [Conn.move]),
      hG.tasks.enter (by simp [hstage]) rfl⟩, hL.tail (by simp [Conn.move]), hS⟩
  | @drop i tasks htasks =>
    have hlist := hG.tasks
    rw [htasks] at hlist
    have hstage : (s.conns i).stage = .posted := (hlist.2 i).1 List.mem_cons_self
    have hstopped : s.stopped = true := hS
    have hconn := (hG.conn i).drop fun hrun => by rw [hstopped] at hrun; simp at hrun
    exact ⟨⟨conn_on hG hconn, hG.backlog.on (by simp [hstage]) (by simp [Conn.drop]),
      hlist.tail (by simp [Conn.drop])⟩, hL.on (by simp [hstage]) (by simp [Conn.drop]), hS⟩
  | stopped => exact ⟨hG, hL, hS⟩

/-! ## The steps of the pool -/

/-- The stages at which a connection is that thread `k` of the pool has to do with. -/
def Stage.ofPool (k : Fin 4) : Stage → Prop
  | .posted | .closed => True
  | .taken k' => k' = k
  | _ => False

theorem byServer_hear {c : Conn} (hbefore : c.stage ≠ .fresh) (n : ℕ) : ByServer c (c.hear n) := by
  refine ⟨hbefore, hbefore, rfl, ?_, ⟨[], (List.append_nil _).symm, (List.append_nil _).symm⟩, id,
    fun _ hread => List.mem_append_left _ hread⟩
  have hstream : (c.heard ++ [c.toServer.take n]).flatten ++ c.toServer.drop n =
      c.heard.flatten ++ c.toServer := by
    rw [List.flatten_append, List.flatten_singleton, List.append_assoc, List.take_append_drop]
  exact hstream

theorem pool_frame (hm : PoolMove limits k s p x s' p') (hG : SharedOK limits s)
    (hL : Listed (.taken k) p.held s.conns) : ServerFrame (Stage.ofPool k) s s' := by
  have hof : ∀ {j stage}, (s.conns j).stage = stage → stage.ofPool k → (s.conns j).stage.ofPool k :=
    fun h hstage => h ▸ hstage
  have htaken : ∀ {j}, j ∈ p.held → (s.conns j).stage = .taken k := fun hj => (hL.2 _).1 hj
  cases hm with
  | @run i hi _ =>
    have hstage : (s.conns i).stage = .posted := (hG.tasks.2 i).1 hi
    exact on_server (hof hstage trivial) rfl (byServer_move (by simp [hstage]) (by simp))
  | unparsed | request =>
    have hstage := htaken List.mem_cons_self
    exact on_server (hof hstage rfl) (hof hstage rfl) (byServer_hear (by simp [hstage]) _)
  | @readFailed i | @writeFailed i =>
    have hstage := htaken List.mem_cons_self
    have hnot : (s.conns i).stage ≠ .fresh := by simp [hstage]
    exact on_server (hof hstage rfl) (hof hstage rfl)
      ⟨hnot, hnot, rfl, rfl, ⟨[], (List.append_nil _).symm, (List.append_nil _).symm⟩, fun _ => rfl,
        fun _ => id⟩
  | @write i =>
    have hstage := htaken List.mem_cons_self
    have hnot : (s.conns i).stage ≠ .fresh := by simp [hstage]
    exact on_server (hof hstage rfl) (hof hstage rfl) ⟨hnot, hnot, rfl, rfl, ⟨_, rfl, rfl⟩, id,
      fun _ => id⟩
  | close =>
    have hstage := htaken List.mem_cons_self
    exact on_server (hof hstage rfl) trivial (byServer_drop (by simp [hstage]))
  | enter | eof | written | exit => exact fun j => .inl rfl

/-- A connection from which the server reads. -/
theorem ConnOK.hear (hC : ConnOK limits stopped c) {n : ℕ} (hstage : c.stage = .taken k)
    (hpos : 0 < n) (hn : n ≤ c.toServer.length) (hserving : Serving limits c.heard)
    (hwritten : c.written = answer limits c.heard) : ConnOK limits stopped (c.hear n) := by
  have hopen : ¬ c.serverClosed = true := by
    rw [hC.closed, hstage]
    simp
  refine ⟨?_, ?_, ?_, ?_, hC.closed, fun _ hclosed => absurd hclosed hopen⟩
  · change c.written <+: answer limits (c.heard ++ [c.toServer.take n])
    rw [answer_serving hserving]
    exact hC.written.trans (List.prefix_append _ _)
  · intro earlier read hheard
    obtain rfl : c.heard = earlier := List.append_inj_left' hheard rfl
    change answer limits c.heard <+: c.written
    exact hwritten ▸ List.prefix_refl _
  · intro read hread
    rcases List.mem_append.1 hread with hread | hread
    · exact hC.reads read hread
    · obtain rfl := List.mem_singleton.1 hread
      intro hnil
      have hlen := congrArg List.length hnil
      rw [List.length_take, List.length_nil] at hlen
      omega
  · intro hearly
    change c.stage.early = true at hearly
    rw [hstage] at hearly
    simp [Stage.early] at hearly

/-- A connection that the server has, with more bytes written. -/
theorem ConnOK.served (hC : ConnOK limits stopped c) (c' : Conn) (hstage : c.stage = .taken k)
    (hsame : c'.stage = c.stage)
    (hclosed : c'.serverClosed = c.serverClosed) (hheard : c'.heard = c.heard)
    (hmore : c.written <+: c'.written) (hwritten : c'.written <+: answer limits c.heard) :
    ConnOK limits stopped c' := by
  have hopen : ¬ c'.serverClosed = true := by
    rw [hclosed, hC.closed, hstage]
    simp
  refine ⟨hheard ▸ hwritten, fun earlier read h => (hC.begun earlier read (hheard ▸ h)).trans hmore,
    hheard ▸ hC.reads, fun hearly => ?_, ?_, fun _ h => absurd h hopen⟩
  · rw [hsame, hstage] at hearly
    simp [Stage.early] at hearly
  · rw [hclosed, hsame]
    exact hC.closed

theorem pool_own (hm : PoolMove limits k s p x s' p') (hG : SharedOK limits s)
    (hL : Listed (.taken k) p.held s.conns) (hS : ServeOK limits s.conns p) :
    SharedOK limits s' ∧ Listed (.taken k) p'.held s'.conns ∧ ServeOK limits s'.conns p' := by
  have htaken : ∀ {j}, j ∈ p.held → (s.conns j).stage = .taken k := fun hj => (hL.2 _).1 hj
  have hself : ∀ {i c}, (s.on i c).conns i = c := fun {i c} => by rw [on_conns, if_pos rfl]
  -- a step on a connection that the thread has and keeps
  have hkeep : ∀ {i c}, p.held = [i] → ConnOK limits s.stopped c → c.stage = (s.conns i).stage →
      SharedOK limits (s.on i c) ∧ Listed (.taken k) [i] (s.on i c).conns := by
    intro i c hheld hconn hsame
    have hstage : (s.conns i).stage = .taken k := htaken (by rw [hheld]; exact List.mem_cons_self)
    have hlist : Listed (.taken k) [i] (s.on i c).conns := by
      rw [← hheld]
      refine hL.congr fun j => ?_
      rw [on_conns]
      by_cases hj : j = i
      · rw [if_pos hj, hj, hsame]
      · rw [if_neg hj]
    exact ⟨⟨conn_on hG hconn, hG.backlog.on (by simp [hstage]) (by simp [hsame, hstage]),
      hG.tasks.on (by simp [hstage]) (by simp [hsame, hstage])⟩, hlist⟩
  cases hm with
  | @run i hi _ =>
    have hstage : (s.conns i).stage = .posted := (hG.tasks.2 i).1 hi
    have hearly : (s.conns i).stage.early = true := by rw [hstage]; rfl
    have hconn := (hG.conn i).move (.taken k) hearly (by simp)
    refine ⟨⟨conn_on hG hconn, hG.backlog.on (by simp [hstage]) (by simp [Conn.move]),
      hG.tasks.remove (by simp [Conn.move])⟩, hL.enter (by simp [hstage]) rfl, ?_⟩
    change _ ∧ _
    rw [hself]
    exact (hG.conn i).early hearly
  | @enter i =>
    obtain ⟨hheard, hwritten⟩ := hS
    refine ⟨⟨hG.conn, hG.backlog, hG.tasks⟩, hL, ?_⟩
    change Serving _ _ ∧ _ ∧ _
    dsimp only
    rw [hheard, hwritten]
    exact ⟨serving_nil limits, rfl, .inl rfl⟩
  | @unparsed i n e hpos hn hparse =>
    obtain ⟨hserving, hwritten, -⟩ := hS
    obtain ⟨hG', hL'⟩ :=
      hkeep rfl ((hG.conn i).hear (htaken List.mem_cons_self) hpos hn hserving hwritten) rfl
    refine ⟨hG', hL', ?_⟩
    change Ended limits _
    rw [hself]
    exact .inr (.inr (.inl ⟨_, List.mem_append_right _ List.mem_cons_self, e, hparse⟩))
  | @request i n request hpos hn hparse =>
    obtain ⟨hserving, hwritten, -⟩ := hS
    have hconn := (hG.conn i).hear (htaken List.mem_cons_self) hpos hn hserving hwritten
    obtain ⟨hG', hL'⟩ := hkeep rfl hconn rfl
    have hread : (s.conns i).toServer.take n ≠ [] :=
      hconn.reads _ (List.mem_append_right _ List.mem_cons_self)
    have hanswer : answer limits ((s.conns i).hear n).heard =
        (s.conns i).written ++ (route request).toString := by
      change answer limits (_ ++ _) = _
      rw [answer_serving hserving, answer_one hread hparse, hwritten]
    refine ⟨hG', hL', ?_⟩
    change _ ∧ _ ∧ _
    rw [hself, hanswer]
    exact ⟨rfl, List.append_ne_nil_of_right_ne_nil _ (toString_ne_nil _),
      fun hopen => hserving.append (serving_one hread hparse hopen)⟩
  | @eof i _ hclosed => exact ⟨hG, hL, .inr (.inl hclosed)⟩
  | @readFailed i =>
    have hstage := htaken List.mem_cons_self
    obtain ⟨hG', hL'⟩ := hkeep rfl ((hG.conn i).served (s.conns i).fail hstage rfl rfl rfl
      (List.prefix_refl _) (hG.conn i).written) rfl
    refine ⟨hG', hL', ?_⟩
    change Ended limits _
    rw [hself]
    exact .inl rfl
  | @writeFailed i =>
    have hstage := htaken List.mem_cons_self
    obtain ⟨hG', hL'⟩ := hkeep rfl ((hG.conn i).served (s.conns i).fail hstage rfl rfl rfl
      (List.prefix_refl _) (hG.conn i).written) rfl
    refine ⟨hG', hL', ?_⟩
    change Ended limits _
    rw [hself]
    exact .inl rfl
  | @write i closes rest n _ hn =>
    obtain ⟨hrest, hne, hserving⟩ := hS
    have hstage := htaken List.mem_cons_self
    have hsplit : (s.conns i).written ++ rest.take n ++ rest.drop n =
        answer limits (s.conns i).heard := by
      rw [List.append_assoc, List.take_append_drop, hrest]
    obtain ⟨hG', hL'⟩ := hkeep rfl
      ((hG.conn i).served ((s.conns i).write (rest.take n)) hstage rfl rfl rfl
      (List.prefix_append _ _) ⟨_, hsplit⟩) rfl
    refine ⟨hG', hL', ?_⟩
    change _ ∧ _ ∧ _
    rw [hself]
    exact ⟨hsplit, hne, hserving⟩
  | @written i closes =>
    obtain ⟨hrest, hne, hserving⟩ := hS
    rw [List.append_nil] at hrest
    have hwritten : (s.conns i).written ≠ [] := hrest ▸ hne
    cases closes with
    | true => exact ⟨hG, hL, .inr (.inr (.inr hwritten))⟩
    | false => exact ⟨hG, hL, hserving rfl, hrest, .inr hwritten⟩
  | @exit i => exact ⟨⟨hG.conn, hG.backlog, hG.tasks⟩, hL, hS⟩
  | @close i =>
    have hstage := htaken List.mem_cons_self
    have hconn := (hG.conn i).drop fun _ => hS
    exact ⟨⟨conn_on hG hconn, hG.backlog.on (by simp [hstage]) (by simp [Conn.drop]),
      hG.tasks.on (by simp [hstage]) (by simp [Conn.drop])⟩, hL.tail (by simp [Conn.drop]), trivial⟩

theorem pool_stopped (hm : PoolMove limits k s p x s' p') : s'.stopped = s.stopped := by
  cases hm <;> rfl

theorem start_stopped (hm : StartMove s p x s' p') (h : s.stopped = true) : s'.stopped = true := by
  cases hm with
  | failed => rfl
  | _ => exact h

omit [DecidableEq ι] in
/-- A step on other connections does not disturb a thread of the pool. -/
theorem ServeOK.frame {conns conns' : ι → Conn} (hframe : ∀ i ∈ p.held, conns' i = conns i)
    (h : ServeOK limits conns p) : ServeOK limits conns' p := by
  cases p with
  | enter i | read i | write i closes rest | exit i | close i =>
    simp only [ServeOK, hframe i List.mem_cons_self]
    exact h
  | _ => exact h

/-! ## All threads together -/

section Together

variable [Fintype ι] {ok : State ι → Thread ι × Choice ι → Prop} {c : State ι}

omit [Fintype ι] in
theorem prog_step (limits : Limits) (text : ι → Bytes) (t : Thread ι) (s : Shared ι) (p : Pc ι)
    (x : Choice ι) :
    (prog limits text).step t s p x = (step limits text t s p x).map fun r => (r.1, r.2, .tau) :=
      rfl

/-- **The connections and the threads** in a reachable state. -/
theorem conns_ok (h : (prog limits text).lts.ReachIf ok c) :
    SharedOK limits c.sh ∧ ∀ t, ThreadOK limits text t c.sh (c.pc t) := by
  refine Prog.plain_invariant (prog_step limits text) (SharedOK limits) (ThreadOK limits text)
    ?_ ?_ ?_ ?_ h
  · have hlist : ∀ stage, stage ≠ .fresh → Listed stage ([] : List ι) fun _ => Conn.new :=
      fun stage hstage => ⟨List.nodup_nil, fun i => iff_of_false List.not_mem_nil fun h =>
        hstage h.symm⟩
    exact ⟨fun i => ⟨List.nil_prefix, fun _ _ h => by simp [prog, Conn.new] at h,
      fun _ h => absurd h List.not_mem_nil, fun _ => ⟨rfl, rfl⟩,
      iff_of_false (by simp [prog, Conn.new]) (by simp [prog, Conn.new]),
        fun _ h => by simp [prog, Conn.new] at h⟩,
      hlist _ (by simp), hlist _ (by simp)⟩
  · have hlist : ∀ stage, stage ≠ .fresh → Listed stage ([] : List ι) fun _ => Conn.new :=
      fun stage hstage => ⟨List.nodup_nil, fun i => iff_of_false List.not_mem_nil fun h =>
        hstage h.symm⟩
    rintro (i | w)
    · rfl
    · cases w with
      | none => exact ⟨hlist _ (by simp), rfl⟩
      | some k => exact ⟨hlist _ (by simp), trivial⟩
  · rintro c (i | w) x s p - - hs hG hL
    · have hm := clientStep_move hs
      exact ⟨client_shared hm hG hL, client_own hm hG hL⟩
    · cases w with
      | none => exact start_own (startStep_move hs) hG hL.1 hL.2
      | some k => exact pool_own (poolStep_move hs) hG hL.1 hL.2
  · rintro c t x s p (j | v) - - hs hG hL hne hother
    · -- a client
      rcases t with i | w
      · have hji : j ≠ i := fun h => hne (by rw [h])
        have hm := clientStep_move hs
        change ClientOK limits (text j) s.stopped (s.conns j) _
        rw [(client_by hm hL j).resolve_right fun h => hji h.1, client_stopped hm]
        exact hother
      · have hframe : ∃ stages, ServerFrame stages c.sh s := by
          cases w with
          | none => exact ⟨_, start_frame (startStep_move hs) hG hL.1⟩
          | some k => exact ⟨_, pool_frame (poolStep_move hs) hG hL.1⟩
        have hstopped : c.sh.stopped = true → s.stopped = true := by
          cases w with
          | none => exact start_stopped (startStep_move hs)
          | some k => exact fun h => (pool_stopped (poolStep_move hs)).trans h
        obtain ⟨stages, hframe⟩ := hframe
        change ClientOK limits (text j) s.stopped (s.conns j) _
        rcases hframe j with hsame | ⟨-, -, hby⟩
        · rw [hsame]
          exact ClientOK.stop hother hstopped
        · exact ClientOK.byServer hother hby hstopped
    · rcases t with i | w
      · exact server_under_client (clientStep_move hs) hL hother
      · cases v with
        | none =>
          cases w with
          | none => exact absurd rfl hne
          | some k =>
            have hm := poolStep_move hs
            exact ⟨(pool_frame hm hG hL.1).listed (by simp [Stage.ofPool]) hother.1,
              (pool_stopped hm).symm ▸ hother.2⟩
        | some k' =>
          have hframe : ∃ stages, ServerFrame stages c.sh s ∧ ¬ stages (.taken k') := by
            cases w with
            | none => exact ⟨_, start_frame (startStep_move hs) hG hL.1, by simp [Stage.ofStart]⟩
            | some k =>
              refine ⟨_, pool_frame (poolStep_move hs) hG hL.1, ?_⟩
              intro hk
              exact hne (by rw [show k' = k from hk])
          obtain ⟨stages, hframe, hnot⟩ := hframe
          refine ⟨hframe.listed hnot hother.1, hother.2.frame fun i hi => ?_⟩
          have hstage := (hother.1.2 i).1 hi
          exact (hframe i).resolve_right fun h => hnot (hstage ▸ h.1)

end Together

end BackendTasks.HttpServer
