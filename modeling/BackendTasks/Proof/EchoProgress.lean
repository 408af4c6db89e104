import BackendTasks.Proof.EchoServer

/-!
# The echo server comes to rest

Each byte that a client sends makes at most three steps: it is read, it is written back, and a handler
goes on to the next `read_some`.

* `echo_settles`: so the calls of the clients bound the steps of a run; and when nobody can go on and
  `main` has not thrown, everything is written back, unless a call on the client's socket has failed,
  and `client_count` is the number of the clients that are there.
-/

namespace BackendTasks.EchoServer

open Net Sched

variable {ι : Type*} [DecidableEq ι] [Fintype ι] {s s' : Shared ι} {p p' : Pc} {x : Choice} {i : ι}
  {c : State ι} {ok : State ι → Thread ι × Choice → Prop}

/-! ## Steps -/

/-- What a step is paid: the calls of the clients, by the bytes that they send. -/
def Choice.pay : Choice → ℕ
  | .connect => 8
  | .send bytes => 1 + 3 * bytes.length
  | .close => 1
  | _ => 0

/-- The steps that a thread still takes by itself, without those for the bytes not read yet. -/
def Pc.left : Pc → ℕ
  | .accept => 2
  | .count => 8
  | .endpoint => 7
  | .spawn => 6
  | .down => 1
  | .read => 2
  | .write rest => rest.length + 3
  | .leave => 1
  | _ => 0

/-- The steps that the connections and the bytes still make. -/
def Shared.held (s : Shared ι) : ℕ :=
  3 * s.starting.length + 7 * s.backlog.length + 3 * total (fun c : Conn => c.toServer.length) s.conns

/-- A connection changes. -/
theorem toServer_on (s : Shared ι) (i : ι) (c : Conn) :
    total (fun c : Conn => c.toServer.length) (s.on i c).conns + (s.conns i).toServer.length =
      total (fun c : Conn => c.toServer.length) s.conns + c.toServer.length :=
  total_update (fun c : Conn => c.toServer.length) s.conns i c

/-- **One step** uses up one of those left. -/
theorem left_step {t : Thread ι} (hs : step t s p x = some (s', p')) :
    1 + p'.left + s'.held ≤ p.left + s.held + x.pay := by
  unfold Shared.held
  rcases t with i | w
  · cases client_move hs with
    | connect =>
      have hon := toServer_on s i (s.conns i).connect
      simp only [Pc.left, Choice.pay, Shared.on, Conn.connect, List.length_append,
        List.length_singleton] at hon ⊢
      omega
    | @send bytes =>
      have hon := toServer_on s i ((s.conns i).send bytes)
      simp only [Pc.left, Choice.pay, Shared.on, Conn.send, List.length_append] at hon ⊢
      omega
    | close =>
      have hon := toServer_on s i (s.conns i).close
      simp only [Pc.left, Choice.pay, Shared.on, Conn.close] at hon ⊢
      omega
  · cases w with
    | none =>
      cases main_move hs with
      | accept hbacklog =>
        simp only [Pc.left, Choice.pay, hbacklog, List.length_cons]
        omega
      | spawn =>
        have hone : s.socket.toList.length ≤ 1 := by cases s.socket <;> simp
        simp only [Pc.left, Choice.pay, List.length_append]
        omega
      | _ =>
        simp only [Pc.left, Choice.pay]
        omega
    | some i =>
      cases handler_move hs with
      | begin hmem =>
        have hon := toServer_on s i (s.conns i).begin
        have hlen := List.length_erase_of_mem hmem
        have hpos := List.length_pos_of_mem hmem
        simp only [Pc.left, Choice.pay, Shared.on, Conn.begin] at hon ⊢
        omega
      | @read n hpos hn =>
        have hon := toServer_on s i ((s.conns i).read n)
        simp only [Pc.left, Choice.pay, Shared.on, Conn.read, List.length_drop, List.length_take] at hon ⊢
        omega
      | readFailed | writeFailed =>
        have hon := toServer_on s i (s.conns i).fail
        simp only [Pc.left, Choice.pay, Shared.on, Conn.fail] at hon ⊢
        omega
      | @write rest n hpos hn =>
        have hon := toServer_on s i ((s.conns i).write (rest.take n))
        simp only [Pc.left, Choice.pay, Shared.on, Conn.write, List.length_drop] at hon ⊢
        omega
      | _ =>
        simp only [Pc.left, Choice.pay, List.length_nil]
        omega

/-! ## States in which nobody can go on -/

/-- The server goes on: nobody calls, and no call fails. -/
def Choice.onward : Choice → Bool
  | .go | .transfer _ => true
  | _ => false

theorem no_step (h : (prog ι).Stuck Choice.onward c) (t : Thread ι) (hx : x.onward = true) :
    step t c.sh (c.pc t) x = none := by
  cases hs : step t c.sh (c.pc t) x with
  | none => rfl
  | some r =>
    have hstep := Prog.plain_of prog_step hs
    rw [h t x hx] at hstep
    simp at hstep

/-- Where `main` is then. -/
theorem main_settled (h : (prog ι).lts.ReachIf ok c) (hstuck : (prog ι).Stuck Choice.onward c)
    (hmain : (c.pc (.inr none)).thrown = false) : c.pc (.inr none) = .accept ∧ c.sh.backlog = [] := by
  have hM : MainOK _ _ := (server_ok h).2 (.inr none)
  have hsocket := hM.socket
  have hgo := no_step hstuck (.inr none) (x := .go) rfl
  cases hp : c.pc (.inr none) with
  | accept =>
    refine ⟨rfl, ?_⟩
    cases hbacklog : c.sh.backlog with
    | nil => rfl
    | cons i backlog => simp [step, hp, mainStep, hbacklog] at hgo
  | count | endpoint | spawn => simp [step, hp, mainStep] at hgo
  | _ =>
    rw [hp] at hmain hsocket
    first | exact hsocket.elim | simp [Pc.thrown] at hmain

/-- Where a handler is then. -/
theorem handler_settled (h : (prog ι).lts.ReachIf ok c) (hstuck : (prog ι).Stuck Choice.onward c)
    (hrun : c.sh.running = true) (i : ι) :
    (c.pc (.inr (some i)) = .unborn ∧ i ∉ c.sh.starting) ∨
    (c.pc (.inr (some i)) = .read ∧ (c.sh.conns i).toServer = [] ∧ (c.sh.conns i).closed = false) ∨
    c.pc (.inr (some i)) = .done := by
  have hE : Echoes _ _ := (server_ok h).2 (.inr (some i))
  have hgo := no_step hstuck (.inr (some i)) (x := .go) rfl
  have hbyte := no_step hstuck (.inr (some i)) (x := .transfer 1) rfl
  simp only [step, hrun, if_true] at hgo hbyte
  cases hp : c.pc (.inr (some i)) with
  | unborn =>
    refine .inl ⟨rfl, fun hmem => ?_⟩
    simp [hp, handlerStep, hmem] at hgo
  | read =>
    have hnil : (c.sh.conns i).toServer = [] := by
      by_contra hne
      have hlen : 1 ≤ (c.sh.conns i).toServer.length := List.length_pos_iff.2 hne
      simp only [hp, handlerStep] at hbyte
      rw [if_pos ⟨Nat.one_pos, by omega, hlen⟩] at hbyte
      simp at hbyte
    refine .inr (.inl ⟨rfl, hnil, ?_⟩)
    rw [← Bool.not_eq_true]
    intro hclosed
    simp [hp, handlerStep, hnil, hclosed] at hgo
  | write rest =>
    cases rest with
    | nil => simp [hp, handlerStep] at hgo
    | cons b rest => simp [hp, handlerStep] at hbyte
  | leave => simp [hp, handlerStep] at hgo
  | done => exact .inr (.inr rfl)
  | _ =>
    rw [hp] at hE
    exact hE.elim

/-- What has become of a connection then. -/
structure ConnSettled (c : State ι) (i : ι) : Prop where
  echoed : (c.sh.conns i).failed = false → (c.sh.conns i).echoed = (c.sh.conns i).sent
  served : (c.pc (.inr (some i))).counted = true ↔
    c.pc (.inl i) = .connected ∧ (c.sh.conns i).failed = false

theorem conn_settled (h : (prog ι).lts.ReachIf ok c) (hstuck : (prog ι).Stuck Choice.onward c)
    (hmain : (c.pc (.inr none)).thrown = false) (i : ι) : ConnSettled c i := by
  obtain ⟨haccept, hbacklog⟩ := main_settled h hstuck hmain
  have hT := (server_ok h).2
  have hM : MainOK _ _ := hT (.inr none)
  have hC : ClientOK _ _ := hT (.inl i)
  have hE : Echoes _ _ := hT (.inr (some i))
  have hsocket : c.sh.socket = none := by
    have hs := hM.socket
    rwa [haccept] at hs
  rcases handler_settled h hstuck (hM.running hmain) i with ⟨hp, hnot⟩ | ⟨hp, hnil, hopen⟩ | hp
  · -- not served: the client has not connected
    rw [hp] at hE
    have houtside : c.pc (.inl i) = .outside ∧ c.sh.conns i = .new := by
      have hnone : (c.sh.conns i).connected ≠ true := by
        intro hconnected
        have hmem := hM.served hmain i hconnected hE.1
        rw [Shared.pending, hsocket, hbacklog] at hmem
        exact hnot (by simpa using hmem)
      cases hpc : c.pc (.inl i) with
      | outside =>
        rw [hpc] at hC
        exact ⟨rfl, hC⟩
      | connected | closed =>
        rw [hpc] at hC
        exact absurd hC.1 hnone
      | _ =>
        rw [hpc] at hC
        exact hC.elim
    refine ⟨fun _ => by rw [houtside.2]; rfl, ?_⟩
    rw [hp, houtside.1]
    simp [Pc.counted]
  · -- served: the client is there
    rw [hp] at hE
    obtain ⟨hbegun, hfailed, hsent⟩ := hE
    have hconnected : c.pc (.inl i) = .connected := by
      cases hpc : c.pc (.inl i) with
      | connected => rfl
      | outside =>
        rw [hpc] at hC
        have hnew : c.sh.conns i = .new := hC
        rw [hnew] at hbegun
        simp [Conn.new] at hbegun
      | closed =>
        rw [hpc] at hC
        rw [hC.2] at hopen
        simp at hopen
      | _ =>
        rw [hpc] at hC
        exact hC.elim
    rw [hnil, List.append_nil] at hsent
    exact ⟨fun _ => hsent, iff_of_true (by rw [hp]; rfl) ⟨hconnected, hfailed⟩⟩
  · -- served before: the client has closed, or a call has failed
    rw [hp] at hE
    refine ⟨fun hfailed => (hE.2.2 hfailed).1, ?_⟩
    rw [hp]
    refine iff_of_false (by simp [Pc.counted]) ?_
    rintro ⟨hconnected, hfailed⟩
    rw [hconnected] at hC
    have hclosed := (hE.2.2 hfailed).2
    rw [hC.2] at hclosed
    simp at hclosed

/-- No thread has been started that has not begun. -/
theorem starting_settled (h : (prog ι).lts.ReachIf ok c) (hstuck : (prog ι).Stuck Choice.onward c)
    (hrun : c.sh.running = true) : c.sh.starting = [] := by
  rw [List.eq_nil_iff_forall_not_mem]
  intro i hi
  have hbegun := ((server_ok h).1.waits i (by simp [Shared.pending, hi])).2
  have hE : Echoes _ _ := (server_ok h).2 (.inr (some i))
  rcases handler_settled h hstuck hrun i with ⟨-, hnot⟩ | ⟨hp, -, -⟩ | hp
  · exact hnot hi
  · rw [hp] at hE
    rw [hE.1] at hbegun
    simp at hbegun
  · rw [hp] at hE
    rw [hE.1] at hbegun
    simp at hbegun

/-- The clients that are there, and on whose sockets no call has failed. -/
def present (c : State ι) : Finset ι :=
  Finset.univ.filter fun i => c.pc (.inl i) = .connected ∧ (c.sh.conns i).failed = false

theorem clientCount_settled (h : (prog ι).lts.ReachIf ok c) (hstuck : (prog ι).Stuck Choice.onward c)
    (hmain : (c.pc (.inr none)).thrown = false) : c.sh.clientCount = (present c).card := by
  have hT := (server_ok h).2
  have hrun := MainOK.running (hT (.inr none)) hmain
  have hclients : ∑ i, (c.pc (.inl i)).counted.toNat = 0 := by
    refine Finset.sum_eq_zero fun i _ => ?_
    have hC : ClientOK _ _ := hT (.inl i)
    cases hpc : c.pc (.inl i) with
    | outside | connected | closed => rfl
    | _ =>
      rw [hpc] at hC
      exact hC.elim
  have hhandlers : ∑ i, (c.pc (.inr (some i))).counted.toNat = (present c).card := by
    rw [present, Finset.card_filter]
    refine Finset.sum_congr rfl fun i _ => ?_
    have hserved := (conn_settled h hstuck hmain i).served
    split
    · rename_i hthere
      rw [hserved.2 hthere]
      rfl
    · rename_i hnot
      rw [Bool.eq_false_iff.2 (mt hserved.1 hnot)]
      rfl
  have hzero : (c.pc (.inr none)).counted.toNat = 0 := by
    rw [(main_settled h hstuck hmain).1]
    rfl
  have htotal : total (fun p => p.counted.toNat) c.pc = (present c).card := by
    rw [total, Fintype.sum_sum_type, Fintype.sum_option, hclients, hzero, hhandlers]
    omega
  rw [clientCount_eq h hmain, counted, htotal, starting_settled h hstuck hrun]
  rfl

/-! ## Every run -/

/-- The steps of a run. -/
abbrev Trace (ι : Type*) := List (Edge (State ι) (Thread ι × Choice))

variable {tr : Trace ι}

/-- **The echo server comes to rest.** Whatever the schedule, the transfers and the failures, a run takes
at most eight steps for each `connect`, one for each `send` and three for each byte of it, one for each
`close`, and two. In a state in which nobody can go on, unless a client calls or a call fails, and in
which `main` has not thrown, `main` waits for a connection, everything that was sent is written back
on each connection on which no call has failed, and `client_count` is the number of the clients that
are there. -/
theorem echo_settles (h : (prog ι).lts.Traced ok tr c) :
    tr.length ≤ spent (fun e => e.label.2.pay) tr + 2 ∧
    ((prog ι).Stuck Choice.onward c → (c.pc (.inr none)).thrown = false →
      c.pc (.inr none) = .accept ∧
      (∀ i, (c.sh.conns i).failed = false → (c.sh.conns i).echoed = (c.sh.conns i).sent) ∧
      c.sh.clientCount = (present c).card) := by
  constructor
  · have hpaid : tr.length ≤ total Pc.left (prog ι).start + (prog ι).init.held +
        spent (fun e => e.label.2.pay) tr := by
      refine Prog.steps_le Pc.left Shared.held 0 Choice.pay (fun {v} => v.elim) ?_ h
      intro c t x s p e _ _ hs
      obtain ⟨r, hr, heq⟩ := Option.map_eq_some_iff.1 hs
      cases heq
      have hleft := left_step hr
      omega
    have hstart : total Pc.left (prog ι).start = 2 := by
      rw [total, Fintype.sum_sum_type, Fintype.sum_option]
      simp [prog, start, Pc.left]
    have hheld : (prog ι).init.held = 0 := by
      simp [prog, Shared.held, total, Conn.new]
    omega
  · intro hstuck hmain
    refine ⟨(main_settled h.reach hstuck hmain).1, fun i => ?_, clientCount_settled h.reach hstuck hmain⟩
    exact (conn_settled h.reach hstuck hmain i).echoed

/-- Of a `main` that waits for a connection and handlers that wait for bytes nobody goes on. -/
theorem stuck_of_rests (haccept : c.pc (.inr none) = .accept) (hbacklog : c.sh.backlog = [])
    (hread : ∀ i, c.pc (.inr (some i)) = .read ∧ (c.sh.conns i).toServer = [] ∧
      (c.sh.conns i).closed = false) : (prog ι).Stuck Choice.onward c := by
  intro t x hx
  have hs : step t c.sh (c.pc t) x = none := by
    rcases t with i | w
    · change clientStep i c.sh (c.pc (.inl i)) x = none
      generalize c.pc (.inl i) = p
      cases x with
      | go | transfer n => cases p <;> rfl
      | _ => simp [Choice.onward] at hx
    · cases w with
      | none =>
        rw [haccept]
        cases x with
        | go => simp [step, mainStep, hbacklog]
        | transfer n => rfl
        | _ => simp [Choice.onward] at hx
      | some i =>
        obtain ⟨hp, hnil, hopen⟩ := hread i
        rw [hp]
        cases x with
        | go => simp [step, handlerStep, hopen]
        | transfer n =>
          have hnone : ¬ (0 < n ∧ n ≤ 1024 ∧ n ≤ (c.sh.conns i).toServer.length) := by
            rw [hnil, List.length_nil]
            omega
          simp only [step, handlerStep, if_neg hnone, ite_self]
        | _ => simp [Choice.onward] at hx
  show (prog ι).next c (t, x) = none
  unfold Prog.next
  rw [prog_step, hs]
  rfl

/-- Three bytes go there and back in fourteen steps. -/
theorem echo_settles_three : ∃ (tr : Trace (Fin 1)) (c : State (Fin 1)),
    (prog (Fin 1)).lts.Traced (fun _ _ => True) tr c ∧ tr.length = 14 ∧
    tr.length ≤ 8 + (1 + 3 * 3) + 2 ∧ (c.sh.conns 0).echoed = [7, 8, 9] ∧
    (c.sh.conns 0).echoed = (c.sh.conns 0).sent ∧ c.sh.clientCount = (present c).card := by
  obtain ⟨tr, c, htr, hend⟩ := Lts.exists_traced (prog (Fin 1)).lts (fun _ _ => True)
    (firstEcho 0 ++ [(.inr (some 0), .transfer 1), (.inr (some 0), .go), (.inr (some 0), .transfer 1),
      (.inr (some 0), .transfer 1), (.inr (some 0), .go)])
    (fun tr c => tr.length == 14 && spent (fun e => e.label.2.pay) tr == 18 &&
      (c.sh.conns 0).echoed == [7, 8, 9] && !(c.sh.conns 0).failed && c.pc (.inr none) == .accept &&
        c.sh.backlog == [] && decide (∀ i, c.pc (.inr (some i)) = .read ∧
          (c.sh.conns i).toServer = [] ∧ (c.sh.conns i).closed = false)) (by decide)
  simp only [Bool.and_eq_true, beq_iff_eq, Bool.not_eq_true', decide_eq_true_eq] at hend
  obtain ⟨⟨⟨⟨⟨⟨hlen, hpaid⟩, hechoed⟩, hfailed⟩, haccept⟩, hbacklog⟩, hread⟩ := hend
  obtain ⟨hle, hall⟩ := echo_settles htr
  rw [hpaid] at hle
  obtain ⟨-, hback, hcount⟩ := hall (stuck_of_rests haccept hbacklog hread) (by rw [haccept]; rfl)
  exact ⟨tr, c, htr, hlen, hle, hechoed, hback 0 hfailed, hcount⟩

end BackendTasks.EchoServer
