import BackendTasks.Proof.HttpExchange
import BackendTasks.Sched.Progress
import Mathlib.Data.Fintype.BigOperators

/-!
# The HTTP server comes to an end

* `server_settles`: when nobody can go on, all threads of the pool are free, and every call of
  `http_request` has returned a response, unless a call on its own sockets has failed.
* `exchange_steps`: every run comes to such an end, after a number of steps that the lengths of the
  requests bound, however small the transfers are.
-/

namespace BackendTasks.HttpServer

open Net Sched

variable {limits : Limits} {ι : Type*} [DecidableEq ι] [Fintype ι] {text : ι → Bytes}
  {c : State ι} {i : ι}
  {ok : State ι → Thread ι × Choice ι → Prop} {s s' : Shared ι} {p p' : Pc ι}
  {x : Choice ι} {k : Fin 4}

/-! ## States in which nobody can go on -/

/-- No thread can go on, other than by a call that fails. -/
abbrev Settled (limits : Limits) (text : ι → Bytes) (c : State ι) : Prop :=
  (prog limits text).Stuck (fun x => x != .fail) c

theorem no_step (h : Settled limits text c) (t : Thread ι) {x : Choice ι} (hx : x ≠ .fail) :
    step limits text t c.sh (c.pc t) x = none := by
  cases hs : step limits text t c.sh (c.pc t) x with
  | none => rfl
  | some r =>
    have hstep := Prog.plain_of (prog_step limits text) hs
    rw [h t x (by simpa using hx)] at hstep
    simp at hstep

/-- Where a thread of the pool can be then. -/
theorem pool_settled (h : (prog limits text).lts.ReachIf ok c) (hset : Settled limits text c)
    (k : Fin 4) :
    c.pc (.inr (some k)) = .idle ∨ ∃ i, c.pc (.inr (some k)) = .read i ∧
      (c.sh.conns i).toServer = [] ∧ (c.sh.conns i).clientClosed = false := by
  have hT : _ ∧ ServeOK _ _ _ := (conns_ok h).2 (.inr (some k))
  have hgo := no_step hset (.inr (some k)) (x := .go) (by simp)
  have hbyte := no_step hset (.inr (some k)) (x := .bytes 1) (by simp)
  cases hp : c.pc (.inr (some k)) with
  | idle => exact .inl rfl
  | read i =>
    have hnil : (c.sh.conns i).toServer = [] := by
      by_contra hne
      have hlen : 1 ≤ (c.sh.conns i).toServer.length := List.length_pos_iff.2 hne
      simp only [step, hp, poolStep] at hbyte
      rw [if_pos ⟨Nat.one_pos, by omega, hlen⟩] at hbyte
      split at hbyte <;> simp at hbyte
    refine .inr ⟨i, rfl, hnil, ?_⟩
    rw [← Bool.not_eq_true]
    intro hclosed
    simp [step, hp, poolStep, hnil, hclosed] at hgo
  | enter i | exit i | close i => simp [step, hp, poolStep] at hgo
  | write i closes rest =>
    cases rest with
    | nil => simp [step, hp, poolStep] at hgo
    | cons b rest => simp [step, hp, poolStep] at hbyte
  | _ =>
    rw [hp] at hT
    exact hT.2.elim

/-- Where a client can be then. -/
theorem client_settled (h : (prog limits text).lts.ReachIf ok c)
    (hset : Settled limits text c) (i : ι) :
    (c.pc (.inl i) = .receive ∧ (c.sh.conns i).toClient = [] ∧
      (c.sh.conns i).serverClosed = false) ∨
      (∃ response, c.pc (.inl i) = .returned response) ∨ c.pc (.inl i) = .threw := by
  have hT : ClientOK _ _ _ _ _ := (conns_ok h).2 (.inl i)
  have hgo := no_step hset (.inl i) (x := .go) (by simp)
  have hbyte := no_step hset (.inl i) (x := .bytes 1) (by simp)
  cases hp : c.pc (.inl i) with
  | connect => simp [step, hp, clientStep] at hgo
  | send rest =>
    cases rest with
    | nil => simp [step, hp, clientStep] at hgo
    | cons b rest => simp [step, hp, clientStep] at hbyte
  | receive =>
    have hnil : (c.sh.conns i).toClient = [] := by
      by_contra hne
      have hlen : 1 ≤ (c.sh.conns i).toClient.length := List.length_pos_iff.2 hne
      simp only [step, hp, clientStep] at hbyte
      rw [if_pos ⟨Nat.one_pos, by omega, hlen⟩] at hbyte
      simp at hbyte
    refine .inl ⟨rfl, hnil, ?_⟩
    rw [← Bool.not_eq_true]
    intro hclosed
    simp [step, hp, clientStep, hnil, hclosed] at hgo
  | leave result => cases result <;> simp [step, hp, clientStep] at hgo
  | returned response => exact .inr (.inl ⟨response, rfl⟩)
  | threw => exact .inr (.inr rfl)
  | _ =>
    rw [hp] at hT
    exact hT.elim

/-- A thread of the pool that waits for bytes, and a client that waits for an answer, do not wait
for each other. -/
theorem pool_idle (h : (prog limits text).lts.ReachIf ok c) (hset : Settled limits text c)
    (htext : ∀ i, text i ≠ []) (k : Fin 4) : c.pc (.inr (some k)) = .idle := by
  refine (pool_settled h hset k).resolve_right ?_
  rintro ⟨i, hp, hnil, hopen⟩
  have hT := (conns_ok h).2
  obtain ⟨hlist, hserve⟩ := hT (.inr (some k))
  rw [hp] at hlist hserve
  have hstage : (c.sh.conns i).stage = .taken k := (hlist.2 i).1 List.mem_cons_self
  have hC : ClientOK _ _ _ _ _ := hT (.inl i)
  rcases client_settled h hset i with ⟨hpi, hempty, -⟩ | ⟨response, hpi⟩ | hpi
  · rw [hpi] at hC
    obtain ⟨-, -, hsent, hnothing⟩ := hC
    rw [hnil, List.append_nil] at hsent
    obtain ⟨-, -, hheard⟩ := hserve
    rcases hheard with hheard | hwritten
    · rw [hheard] at hsent
      exact htext i hsent.symm
    · exact hwritten (hnothing.symm.trans hempty)
  · rw [hpi] at hC
    have hclosed := hC.1
    rw [hopen] at hclosed
    simp at hclosed
  · rw [hpi] at hC
    rcases hC.1 with hfresh | hclosed
    · rw [hstage] at hfresh
      simp at hfresh
    · rw [hopen] at hclosed
      simp at hclosed

/-- Where `start` is then, if `accept` has not failed. -/
theorem start_settled (h : (prog limits text).lts.ReachIf ok c) (hset : Settled limits text c)
    (hrun : c.sh.stopped = false) : c.pc (.inr none) = .accept ∧ c.sh.backlog = [] := by
  have hT : _ ∧ StartOK _ _ := (conns_ok h).2 (.inr none)
  have hgo := no_step hset (.inr none) (x := .go) (by simp)
  cases hp : c.pc (.inr none) with
  | accept =>
    refine ⟨rfl, ?_⟩
    cases hbacklog : c.sh.backlog with
    | nil => rfl
    | cons i backlog => simp [step, hp, startStep, hbacklog] at hgo
  | post i => simp [step, hp, startStep] at hgo
  | drop | stopped =>
    have hstopped := hT.2
    rw [hp] at hstopped
    have htrue : c.sh.stopped = true := hstopped
    rw [hrun] at htrue
    simp at htrue
  | _ =>
    have hS := hT.2
    rw [hp] at hS
    exact hS.elim

/-- **The server settles.** In a state in which nobody can go on, other than by a call that fails,
and in which `accept` has not failed, `start` waits for connections and there are none, the pool has
no task left and all its threads are free, `client_count` is zero, and every `http_request` has
returned what it received, unless a call on the sockets of its own connection has failed. -/
theorem server_settles {host path : ι → Bytes} (hsend : ∀ i, Sendable (host i) (path i))
    (h : (prog limits fun i => requestText (host i) (path i)).lts.ReachIf ok c)
    (hset : Settled limits (fun i => requestText (host i) (path i)) c)
    (hrun : c.sh.stopped = false) :
    c.pc (.inr none) = .accept ∧ c.sh.backlog = [] ∧ c.sh.tasks = [] ∧
    (∀ k, c.pc (.inr (some k)) = .idle) ∧ c.sh.clientCount = 0 ∧
    ∀ i, (∃ response, c.pc (.inl i) = .returned response) ∨
      c.pc (.inl i) = .threw ∧ (c.sh.conns i).failed = true := by
  obtain ⟨hG, hT⟩ := conns_ok h
  obtain ⟨haccept, hbacklog⟩ := start_settled h hset hrun
  have hidle := pool_idle h hset fun i => requestText_ne_nil (host i) (path i)
  have htasks : c.sh.tasks = [] := by
    by_contra hne
    obtain ⟨i, tasks, htasks⟩ := List.exists_cons_of_ne_nil hne
    have hnone := no_step hset (.inr (some 0)) (x := .run i) (by simp)
    simp [step, hidle 0, poolStep, htasks, hrun] at hnone
  refine ⟨haccept, hbacklog, htasks, hidle, ?_, fun i => ?_⟩
  · have hnone : ∀ t, (c.pc t).counted ≠ true := by
      intro t ht
      obtain ⟨k, rfl⟩ := counted_pool h ht
      rw [hidle k] at ht
      simp [Pc.counted] at ht
    have hzero : count Pc.counted c.pc = 0 :=
      Finset.card_eq_zero.2 (Finset.filter_eq_empty_iff.2 fun t _ => hnone t)
    rw [clientCount_eq h, hzero]
    rfl
  · have hC : ClientOK _ _ _ _ _ := hT (.inl i)
    rcases client_settled h hset i with ⟨hp, -, hopen⟩ | hreturned | hp
    · -- the connection is nowhere
      rw [hp] at hC
      exfalso
      cases hstage : (c.sh.conns i).stage with
      | fresh => exact hC.1 hstage
      | waiting =>
        have hmem := (hG.backlog.2 i).2 hstage
        rw [hbacklog] at hmem
        simp at hmem
      | accepted =>
        have hmem := ((hT (.inr none)).1.2 i).2 hstage
        rw [haccept] at hmem
        simp [Pc.held] at hmem
      | posted =>
        have hmem := (hG.tasks.2 i).2 hstage
        rw [htasks] at hmem
        simp at hmem
      | taken k =>
        have hmem := ((hT (.inr (some k))).1.2 i).2 hstage
        rw [hidle k] at hmem
        simp [Pc.held] at hmem
      | closed =>
        have hclosed := (hG.conn i).closed.2 hstage
        rw [hopen] at hclosed
        simp at hclosed
    · exact .inl hreturned
    · rw [hp] at hC
      refine .inr ⟨hp, ?_⟩
      rcases hC.2.why with hstopped | hfailed | ⟨read, hread, e, he⟩
      · rw [hrun] at hstopped
        simp at hstopped
      · exact hfailed
      · have hpart : read <:+: requestText (host i) (path i) := by
          have hin : read <:+: (c.sh.conns i).heard.flatten := List.infix_of_mem_flatten hread
          exact hin.trans (((List.prefix_append _ _).trans (heard_begins h i)).isInfix)
        obtain ⟨request, hok⟩ := parse_part limits (hsend i) hpart
        rw [he] at hok
        simp at hok

/-- The converse: if nothing is left for the server to do, and no client waits, nobody can go on. -/
theorem settled_of_rests (haccept : c.pc (.inr none) = .accept) (hbacklog : c.sh.backlog = [])
    (htasks : c.sh.tasks = []) (hidle : ∀ k, c.pc (.inr (some k)) = .idle)
    (hclients : ∀ i, (∃ response, c.pc (.inl i) = .returned response) ∨ c.pc (.inl i) = .threw) :
    Settled limits text c := by
  intro t x hx
  have hs : step limits text t c.sh (c.pc t) x = none := by
    rcases t with i | w
    · rcases hclients i with ⟨response, hp⟩ | hp <;> rw [hp] <;> cases x <;> rfl
    · cases w with
      | none =>
        rw [haccept]
        cases x with
        | go => simp [step, startStep, hbacklog]
        | fail => simp at hx
        | _ => rfl
      | some k =>
        rw [hidle k]
        cases x with
        | run i => simp [step, poolStep, htasks]
        | _ => rfl
  show (prog limits text).next c (t, x) = none
  unfold Prog.next
  rw [prog_step, hs]
  rfl

theorem server_settles_hello : ∃ c : State (Fin 1),
    (prog usual fun _ : Fin 1 => helloText).lts.Reach c ∧ c.pc (.inr none) = .accept ∧
    c.sh.clientCount = 0 ∧ ∃ response, c.pc (.inl 0) = .returned response := by
  obtain ⟨c, hc, hend⟩ :=
    Lts.exists_reachIf (prog usual fun _ : Fin 1 => helloText).lts (fun _ _ => True)
    (helloOnce 0 2 15)
    (fun c => c.pc (.inr none) == .accept && c.sh.backlog == [] && c.sh.tasks == [] &&
      !c.sh.stopped && decide (∀ k, c.pc (.inr (some k)) = .idle) &&
      c.pc (.inl 0) == .returned (ascii "HTTP/1.1 200 OK"))
    (by decide +kernel)
  simp only [Bool.and_eq_true, beq_iff_eq, Bool.not_eq_true', decide_eq_true_eq] at hend
  obtain ⟨⟨⟨⟨⟨haccept, hbacklog⟩, htasks⟩, hrun⟩, hidle⟩, hreturned⟩ := hend
  have hclients : ∀ i : Fin 1, (∃ response, c.pc (.inl i) = .returned response) ∨
      c.pc (.inl i) = .threw := by
    intro i
    rw [Subsingleton.elim i 0]
    exact .inl ⟨_, hreturned⟩
  obtain ⟨hstart, -, -, -, hcount, -⟩ := server_settles (fun _ => hello_sendable) hc
    (settled_of_rests haccept hbacklog htasks hidle hclients) hrun
  exact ⟨c, hc, hstart, hcount, _, hreturned⟩

/-! ## Steps -/

theorem length_route (request : HttpRequest) : (route request).toString.length ≤ 102 := by
  unfold route
  split
  · decide
  · split <;> decide

/-- What is still done on a connection that no thread of the server has; for a new one, with a
request of `n` bytes, by its client also. -/
def Stage.left (n : ℕ) : Stage → ℕ
  | .fresh => n + 10
  | .waiting => 7
  | .accepted => 6
  | .posted => 5
  | _ => 0

/-- The steps that a connection still holds, 104 of them for each byte of the request that is not
read yet. -/
def Conn.left (text : Bytes) (c : Conn) : ℕ :=
  c.stage.left text.length + 104 * (text.length - c.heard.flatten.length)

/-- The steps that a thread still takes by itself. -/
def Pc.left : Pc ι → ℕ
  | .send rest => rest.length + 3
  | .receive => 2
  | .connect | .leave _ => 1
  | .accept | .post _ => 2
  | .drop => 1
  | .enter _ => 4
  | .read _ => 3
  | .write _ _ rest => rest.length + 4
  | .exit _ => 2
  | .close _ => 1
  | _ => 0

/-- What the connections hold together. -/
def Shared.left (text : ι → Bytes) (s : Shared ι) : ℕ := ∑ i, (s.conns i).left (text i)

theorem left_on (text : ι → Bytes) (s : Shared ι) (i : ι) (c : Conn) :
    (s.on i c).left text + (s.conns i).left (text i) = s.left text + c.left (text i) := by
  unfold Shared.left
  rw [← Finset.add_sum_erase _ _ (Finset.mem_univ i),
    ← Finset.add_sum_erase _ (fun j => (s.conns j).left (text j)) (Finset.mem_univ i)]
  have hsum : ∑ j ∈ Finset.univ.erase i, ((s.on i c).conns j).left (text j) =
      ∑ j ∈ Finset.univ.erase i, (s.conns j).left (text j) := by
    refine Finset.sum_congr rfl fun j hj => ?_
    rw [on_conns, if_neg (Finset.ne_of_mem_erase hj)]
  rw [hsum, on_conns, if_pos rfl]
  omega

/-- The connection moves on to another stage. -/
theorem left_stage (text : ι → Bytes) (i : ι) (c' : Conn) (hheard : c'.heard = (s.conns i).heard) :
    (s.on i c').left text + (s.conns i).stage.left (text i).length =
      s.left text + c'.stage.left (text i).length := by
  have hc := left_on text s i c'
  simp only [Conn.left, hheard] at hc
  omega

/-- It stays where it is. -/
theorem left_same {c' : Conn} (hheard : c'.heard = (s.conns i).heard)
    (hstage : c'.stage = (s.conns i).stage) :
    (s.on i c').left text = s.left text := by
  have hc := left_stage text i c' hheard
  rw [hstage] at hc
  omega

/-- **One step** of a client uses up one of those left. -/
theorem client_left (hm : ClientMove (text i) i s p x s' p')
    (hL : ClientOK limits (text i) s.stopped (s.conns i) p) :
    1 + p'.left + s'.left text ≤ p.left + s.left text := by
  cases hm with
  | connect =>
    have hfresh : (s.conns i).stage = .fresh := congrArg Conn.stage (hL : s.conns i = .new)
    have hc := left_stage (s := s) text i ((s.conns i).move .waiting) rfl
    rw [hfresh] at hc
    change 1 + ((text i).length + 3) + (s.on i _).left text ≤ 1 + s.left text
    simp only [Conn.move, Stage.left] at hc ⊢
    omega
  | refused | sendFailed | receiveFailed =>
    have hc : (s.on i (s.conns i).fail).left text = s.left text := left_same rfl rfl
    rw [hc]
    simp only [Pc.left]
    omega
  | @send rest n hpos hn =>
    have hc : (s.on i ((s.conns i).send (rest.take n))).left text = s.left text := left_same rfl rfl
    rw [hc]
    simp only [Pc.left, List.length_drop]
    omega
  | sent | eof =>
    simp only [Pc.left, List.length_nil]
    omega
  | @receive n =>
    have hc : (s.on i ((s.conns i).take n)).left text = s.left text := left_same rfl rfl
    rw [hc]
    simp only [Pc.left]
    omega
  | @leave result =>
    have hc : (s.on i (s.conns i).leave).left text = s.left text := left_same rfl rfl
    have hzero : (result.elim .threw .returned : Pc ι).left = 0 := by cases result <;> rfl
    rw [hc, hzero]
    simp only [Pc.left]
    omega

theorem start_left (hm : StartMove s p x s' p') (hG : SharedOK limits s)
    (hL : Listed .accepted p.held s.conns) : 1 + p'.left + s'.left text ≤ p.left + s.left text := by
  cases hm with
  | @accept i backlog hbacklog =>
    have hstage : (s.conns i).stage = .waiting :=
      (hG.backlog.2 i).1 (by rw [hbacklog]; exact List.mem_cons_self)
    have hc := left_stage (s := s) text i ((s.conns i).move .accepted) rfl
    rw [hstage] at hc
    change 1 + 2 + (s.on i _).left text ≤ 2 + _
    simp only [Conn.move, Stage.left] at hc ⊢
    omega
  | failed =>
    change 1 + 1 + s.left text ≤ 2 + s.left text
    omega
  | @post i =>
    have hstage : (s.conns i).stage = .accepted := (hL.2 i).1 List.mem_cons_self
    have hc := left_stage (s := s) text i ((s.conns i).move .posted) rfl
    rw [hstage] at hc
    change 1 + 2 + (s.on i _).left text ≤ 2 + _
    simp only [Conn.move, Stage.left] at hc ⊢
    omega
  | @drop i tasks htasks =>
    have hstage : (s.conns i).stage = .posted :=
      (hG.tasks.2 i).1 (by rw [htasks]; exact List.mem_cons_self)
    have hc := left_stage (s := s) text i ((s.conns i).drop) rfl
    rw [hstage] at hc
    change 1 + 1 + (s.on i _).left text ≤ 1 + _
    simp only [Conn.drop, Stage.left] at hc ⊢
    omega
  | stopped =>
    change 1 + 0 + s.left text ≤ 1 + s.left text
    omega

/-- Reading uses up what is held for the bytes that are read. -/
theorem left_hear {n : ℕ} (hpos : 0 < n)
    (hn : n ≤ (s.conns i).toServer.length)
    (htext : (s.conns i).heard.flatten ++ (s.conns i).toServer <+: text i) :
    (s.on i ((s.conns i).hear n)).left text + 104 ≤ s.left text := by
  have hc := left_on text s i ((s.conns i).hear n)
  have hle := htext.length_le
  have hheard : ((s.conns i).hear n).heard.flatten.length =
      (s.conns i).heard.flatten.length + n := by
    change ((s.conns i).heard ++ [_]).flatten.length = _
    rw [List.flatten_append, List.length_append, List.flatten_singleton, List.length_take,
      Nat.min_eq_left hn]
  have hsame : ((s.conns i).hear n).stage = (s.conns i).stage := rfl
  rw [List.length_append] at hle
  simp only [Conn.left, hheard, hsame] at hc
  omega

theorem pool_left (hm : PoolMove limits k s p x s' p') (hG : SharedOK limits s)
    (hL : Listed (.taken k) p.held s.conns)
    (htext : ∀ i, (s.conns i).heard.flatten ++ (s.conns i).toServer <+: text i) :
    1 + p'.left + s'.left text ≤ p.left + s.left text := by
  have htaken : ∀ {j}, j ∈ p.held → (s.conns j).stage = .taken k := fun hj => (hL.2 _).1 hj
  cases hm with
  | @run i hi _ =>
    have hstage : (s.conns i).stage = .posted := (hG.tasks.2 i).1 hi
    have hc := left_stage (s := s) text i ((s.conns i).move (.taken k)) rfl
    rw [hstage] at hc
    change 1 + 4 + (s.on i _).left text ≤ 0 + _
    simp only [Conn.move, Stage.left] at hc ⊢
    omega
  | unparsed hpos hn _ =>
    have hc := left_hear hpos hn (htext _)
    change 1 + 2 + (s.on _ _).left text ≤ 3 + _
    omega
  | @request i n request hpos hn _ =>
    have hc := left_hear hpos hn (htext i)
    have hlen := length_route request
    change 1 + ((route request).toString.length + 4) + (s.on i _).left text ≤ 3 + _
    omega
  | @readFailed i | @writeFailed i =>
    have hc : (s.on i (s.conns i).fail).left text = s.left text := left_same rfl rfl
    rw [hc]
    simp only [Pc.left]
    omega
  | @write i closes rest n hpos hn =>
    have hc : (s.on i ((s.conns i).write (rest.take n))).left text = s.left text :=
      left_same rfl rfl
    rw [hc]
    simp only [Pc.left, List.length_drop]
    omega
  | @close i =>
    have hstage := htaken List.mem_cons_self
    have hc := left_stage (s := s) text i ((s.conns i).drop) rfl
    rw [hstage] at hc
    change 1 + 0 + (s.on i _).left text ≤ 1 + _
    simp only [Conn.drop, Stage.left] at hc ⊢
    omega
  | @written i closes =>
    cases closes <;> simp only [Pc.left, List.length_nil, Bool.false_eq_true, if_true,
      if_false] <;> omega
  | enter | exit =>
    change 1 + _ + s.left text ≤ _ + s.left text
    simp only [Pc.left]
    omega
  | eof =>
    simp only [Pc.left]
    omega

/-- Every step uses up one of those left. -/
theorem step_left (h : (prog limits text).lts.ReachIf ok c) {t : Thread ι}
    (hs : step limits text t c.sh (c.pc t) x = some (s', p')) :
    1 + p'.left + s'.left text ≤ (c.pc t).left + c.sh.left text := by
  obtain ⟨hG, hT⟩ := conns_ok h
  rcases t with i | w
  · exact client_left (clientStep_move hs) (hT (.inl i))
  · cases w with
    | none => exact start_left (startStep_move hs) hG (hT (.inr none)).1
    | some k => exact pool_left (poolStep_move hs) hG (hT (.inr (some k))).1 (heard_begins h)

/-- **Every run ends.** A run of the server and its clients has no more steps than 105 for each byte
of the requests, eleven for each client and two. -/
theorem exchange_steps {tr : List (Edge (State ι) (Thread ι × Choice ι))}
    (h : (prog limits text).lts.Traced ok tr c) :
    tr.length ≤ ∑ i, (104 * (text i).length + (text i).length + 11) + 2 := by
  have hsteps := Prog.steps_le (M := prog limits text) Pc.left (Shared.left text) 0 (fun _ => 0)
    (fun {v} _ => v.elim) (fun {c t x s p e} hc _ hs => by
      obtain ⟨⟨s', p'⟩, hs', heq⟩ := Option.map_eq_some_iff.1 hs
      cases heq
      have hle := step_left hc hs'
      change 1 + p'.left + s'.left text + 0 * 0 ≤ (c.pc t).left + c.sh.left text + 0
      omega) h
  have hzero : spent (fun _ : Edge (State ι) (Thread ι × Choice ι) => 0) tr = 0 := by
    have hmul := spent_mul 0 (fun _ : Edge (State ι) (Thread ι × Choice ι) => 1) tr
    simpa using hmul
  have hthreads : total (Pc.left (ι := ι)) (prog limits text).start = Fintype.card ι + 2 := by
    unfold total
    rw [Fintype.sum_sum_type, Fintype.sum_option]
    simp [prog, Pc.left]
  have hconns : (prog limits text).init.left text =
      ∑ i, (104 * (text i).length + (text i).length + 10) := by
    refine Finset.sum_congr rfl fun i _ => ?_
    change (text i).length + 10 + 104 * ((text i).length - 0) = _
    omega
  have hcard : ∑ i, (104 * (text i).length + (text i).length + 11) =
      ∑ i, (104 * (text i).length + (text i).length + 10) + Fintype.card ι := by
    have hone : Fintype.card ι = ∑ _i : ι, 1 := by simp
    rw [hone, ← Finset.sum_add_distrib]
  rw [hzero, hthreads, hconns] at hsteps
  omega

theorem exchange_steps_hello : ∃ (tr : List (Edge (State (Fin 1)) (Thread (Fin 1) × Choice (Fin 1))))
    (c : State (Fin 1)),
    (prog usual fun _ : Fin 1 => helloText).lts.Traced (fun _ _ => True) tr c ∧ tr.length = 14 ∧
    tr.length ≤ ∑ _i : Fin 1, (104 * helloText.length + helloText.length + 11) + 2 := by
  obtain ⟨tr, c, htr, hend⟩ :=
    Lts.exists_traced (prog usual fun _ : Fin 1 => helloText).lts (fun _ _ => True)
    (helloOnce 0 2 15) (fun tr _ => tr.length == 14) (by decide +kernel)
  exact ⟨tr, c, htr, beq_iff_eq.1 hend, exchange_steps htr⟩

end BackendTasks.HttpServer
