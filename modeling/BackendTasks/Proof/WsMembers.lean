import BackendTasks.Proof.WsBroadcast
import BackendTasks.Sched.Potential

/-!
# The members of the chat

A connection is in `clients` and counted in `client_count` from its registration to its
deregistration. But a failed `write` of a broadcast removes it from `clients` alone, while its
thread goes on.

* `members`: so `client_count` is the number of the joined connections, and `clients` are those
  of them that no `write` to has failed.
* `members_agree`: `clients` and `client_count` agree along runs in which no such `write` fails.
-/

namespace BackendTasks.WebSocketServer

open Net Sched

/-- From `clients.push_back` to the thread's own `clients.erase`. -/
def Pc.listed : Pc → Bool
  | .count | .receive _ | .broadcast _ _ | .deregister => true
  | _ => false

/-- From `++client_count` to `--client_count`. -/
def Pc.counted : Pc → Bool
  | .receive _ | .broadcast _ _ | .deregister | .uncount => true
  | _ => false

/-- Registered, and not deregistering yet. -/
def Pc.joined : Pc → Bool
  | .receive _ | .broadcast _ _ | .deregister => true
  | _ => false

/-- In between the two steps of registration or of deregistration. -/
def Pc.halfway : Pc → Bool
  | .count | .uncount => true
  | _ => false

/-- How a thread gets out of there. -/
def Pc.settled : Pc → Pc
  | .count => .receive emptyBuffer
  | .uncount => .done
  | p => p

variable {ι : Type*} [DecidableEq ι] {libs : Libs} {s s' : Shared ι} {p p' : Pc} {x : Choice ι}
  {i j : ι} {c c' : State ι}

omit [DecidableEq ι] in
/-- No thread is in between. -/
def Quiet (c : State ι) : Prop := ∀ i, (c.pc i).halfway = false

/-- `clients` has one entry for each joined connection and nothing else, and `client_count` is
their number. -/
def Agree (c : State ι) : Prop :=
  (∀ i, c.sh.clients.count i = if (c.pc i).joined then 1 else 0) ∧
    c.sh.clientCount = c.sh.clients.length

omit [DecidableEq ι] in
/-- The step is not a broadcast in which a `write` fails. -/
def NoLostWrite (c : State ι) (act : ι × Choice ι) : Prop :=
  match act.2 with
  | .write fails => ∀ j ∈ c.sh.clients, fails j = false
  | _ => True

/-! ## Who is in `clients` -/

omit [DecidableEq ι] in
/-- Who is not listed any more was removed. -/
def Left (s : Shared ι) (i : ι) : Pc → Prop
  | .uncount | .done => (s.added i).isSome = true → (s.removed i).isSome = true
  | _ => True

omit [DecidableEq ι] in
theorem mem_clients (hO : Ordered libs s) (hT : Stage libs s i p) (hL : Left s i p) :
    i ∈ s.clients ↔ p.listed = true ∧ s.removed i = none := by
  rw [hO.mem_iff]
  refine and_congr_left fun hopen => ?_
  cases p with
  | accepted | respond key | register =>
    have hnone : s.added i = none := hT.1
    simp [Pc.listed, hnone]
  | count | receive data | broadcast data msg | deregister =>
    have hadded : (s.added i).isSome = true := hT
    simp [Pc.listed, hadded]
  | uncount | done =>
    have hleft : (s.added i).isSome = true → (s.removed i).isSome = true := hL
    rw [hopen] at hleft
    simpa [Pc.listed] using hleft

theorem Left.own (hO : Ordered libs s) (hT : Stage libs s i p) (hL : Left s i p)
    (hm : Move libs i s p x s' p') : Left s' i p' := by
  cases hm with
  | refuse | respondFail =>
    have hnone : s.added i = none := hT.1
    intro hadded
    rw [hnone] at hadded
    simp at hadded
  | deregister =>
    intro hadded
    have hnot : i ∉ (s.erase i).clients := by simp [Shared.erase]
    rw [(hO.erase i).mem_iff] at hnot
    exact Option.isSome_iff_ne_none.2 fun hnone => hnot ⟨hadded, hnone⟩
  | uncount => exact hL
  | _ => trivial

/-- Who was removed stays so. -/
theorem Move.removed (hO : Ordered libs s) (hm : Move libs i s p x s' p')
    (hj : (s.removed j).isSome = true) : (s'.removed j).isSome = true := by
  cases hm with
  | broadcast =>
    rw [broadcast_eq hO.nodup]
    dsimp only
    split
    · rfl
    · exact hj
  | deregister =>
    rw [removed_erase]
    split
    · rfl
    · exact hj
  | _ => exact hj

theorem Left.other (hO : Ordered libs s) (hL : Left s j p') (hm : Move libs i s p x s' q)
    (hji : j ≠ i) : Left s' j p' := by
  have hadded := (hm.other hO hji).1
  cases p' with
  | uncount | done =>
    intro h
    rw [hadded] at h
    exact hm.removed hO (hL h)
  | _ => trivial

/-- The steps that the number of counted connections depends on. -/
theorem Move.clientCount (hm : Move libs i s p x s' p') :
    s'.clientCount + (p.counted.toNat : ℤ) = s.clientCount + (p'.counted.toNat : ℤ) := by
  cases hm with
  | count | uncount => simp [Pc.counted]
  | _ => rfl

variable [Fintype ι]

theorem left_ok (h : (prog ι libs).lts.Reach c) : ∀ i, Left c.sh i (c.pc i) := by
  refine (Prog.plain_invariant (f := step libs) (fun _ _ _ _ => rfl) (fun _ => True)
    (fun i s p => Left s i p) trivial ?_ ?_ ?_ h).2
  · exact fun _ => trivial
  · intro c t x s p hc _ hs _ hL
    obtain ⟨hO, hT⟩ := ordered hc
    exact ⟨trivial, hL.own hO (hT t) (step_move hs)⟩
  · intro c t x s p i hc _ hs _ _ hit hL
    exact hL.other (ordered hc).1 (step_move hs) hit

theorem clientCount_eq (h : (prog ι libs).lts.Reach c) :
    c.sh.clientCount = count Pc.counted c.pc := by
  rw [count_eq_total]
  refine h.invariant
    (I := fun c => c.sh.clientCount = ((total (fun p => p.counted.toNat) c.pc : ℕ) : ℤ)) ?_ ?_
  · simp [Prog.lts, prog, construct, total, Pc.counted]
  · intro c a c' _ ih _ hstep
    obtain ⟨s, p, hs, rfl⟩ := Prog.plain_inv (f := step libs) (fun _ _ _ _ => rfl) hstep
    have hcount := (step_move hs).clientCount
    have htotal := total_update (fun p => p.counted.toNat) c.pc a.1 p
    dsimp only at hcount htotal ⊢
    omega

/-- **The members in every run.** When no thread is in between, `client_count` is the number of
the joined connections, and `clients` has one entry for each of them that was not removed by a
failed `write`, and nothing else. -/
theorem members (h : (prog ι libs).lts.Reach c) (hquiet : Quiet c) :
    (∀ i, c.sh.clients.count i =
      if (c.pc i).joined = true ∧ c.sh.removed i = none then 1 else 0) ∧
    c.sh.clientCount = count Pc.joined c.pc := by
  obtain ⟨hO, hT⟩ := ordered h
  constructor
  · intro i
    have hmem := mem_clients hO (hT i) (left_ok h i)
    have hlisted : (c.pc i).listed = (c.pc i).joined := by
      have hi := hquiet i
      generalize c.pc i = p at hi
      cases p <;> first | rfl | simp [Pc.halfway] at hi
    rw [hlisted] at hmem
    rw [List.Nodup.count hO.nodup, if_congr hmem rfl rfl]
  · rw [clientCount_eq h]
    have hcounted : ∀ i, (c.pc i).counted = (c.pc i).joined := by
      intro i
      have hi := hquiet i
      generalize c.pc i = p at hi
      cases p <;> first | rfl | simp [Pc.halfway] at hi
    simp only [count, hcounted]

/-! ## Runs in which no `write` fails -/

omit [Fintype ι] in
/-- Removing somebody who stays listed takes a failed `write`. -/
theorem Move.removed_eq (hO : Ordered libs s) (hm : Move libs i s p x s' p')
    (hwrites : ∀ fails, x = .write fails → ∀ j ∈ s.clients, fails j = false)
    (hj : j ≠ i ∨ p'.listed = true) : s'.removed j = s.removed j := by
  cases hm with
  | broadcast =>
    rename_i fails
    rw [broadcast_eq hO.nodup]
    refine if_neg ?_
    rintro ⟨hmem, hfails⟩
    rw [hwrites fails rfl j hmem] at hfails
    simp at hfails
  | deregister =>
    rw [removed_erase]
    refine if_neg ?_
    rintro ⟨hji, -⟩
    rcases hj with hne | hlisted
    · exact hne hji
    · simp [Pc.listed] at hlisted
  | _ => rfl

omit [Fintype ι] in
/-- Who becomes listed registers. -/
theorem Move.register_of_listed (hm : Move libs i s p x s' p') (hp : p.listed = false)
    (hp' : p'.listed = true) : p = .register := by
  cases hm with
  | register => rfl
  | _ => simp_all [Pc.listed]

theorem kept (h : (prog ι libs).lts.ReachIf NoLostWrite c) :
    ∀ i, (c.pc i).listed = true → c.sh.removed i = none := by
  refine (Prog.plain_invariant (f := step libs) (fun _ _ _ _ => rfl) (fun _ => True)
    (fun i s p => p.listed = true → s.removed i = none) trivial ?_ ?_ ?_ h).2
  · exact fun _ _ => rfl
  · intro c t x s p hc hok hs _ hkept
    obtain ⟨hO, hT⟩ := ordered (hc.mono fun _ _ _ => trivial)
    have hm := step_move hs
    refine ⟨trivial, fun hp => ?_⟩
    rw [hm.removed_eq hO (fun fails hx => by subst hx; exact hok) (.inr hp)]
    cases hlisted : (c.pc t).listed with
    | true => exact hkept hlisted
    | false =>
      have hTt := hT t
      rw [hm.register_of_listed hlisted hp] at hTt
      exact hO.not_removed hTt.1
  · intro c t x s p i hc hok hs _ _ hit hkept hp
    have hO := (ordered (hc.mono fun _ _ _ => trivial)).1
    rw [(step_move hs).removed_eq hO (fun fails hx => by subst hx; exact hok) (.inl hit)]
    exact hkept hp

theorem agree (h : (prog ι libs).lts.ReachIf NoLostWrite c) (hquiet : Quiet c) : Agree c := by
  obtain ⟨hcount, hnumber⟩ := members (h.mono fun _ _ _ => trivial) hquiet
  have hnodup := (ordered (h.mono fun _ _ _ => trivial)).1.nodup
  have hjoined : ∀ i, (c.pc i).joined = true → c.sh.removed i = none := by
    intro i hi
    refine kept h i ?_
    generalize c.pc i = p at hi
    cases p <;> first | rfl | simp [Pc.joined] at hi
  have hone : ∀ i, c.sh.clients.count i = if (c.pc i).joined then 1 else 0 := by
    intro i
    rw [hcount i]
    exact if_congr (and_iff_left_of_imp (hjoined i)) rfl rfl
  refine ⟨hone, ?_⟩
  have hset : Finset.univ.filter (fun i => (c.pc i).joined = true) = c.sh.clients.toFinset := by
    ext i
    rw [Finset.mem_filter, List.mem_toFinset, ← List.count_pos_iff, hone i]
    cases (c.pc i).joined <;> simp
  rw [hnumber, count, hset, List.toFinset_card_of_nodup hnodup]

/-! ## A `write` that fails -/

/-- The threads in between get out of there. -/
theorem settle (libs : Libs) (c : State ι) :
    ∃ c', (prog ι libs).lts.Leads c c' ∧ Quiet c' ∧ c'.sh.clients = c.sh.clients ∧
      ∀ i, (c.pc i).listed = true → (c'.pc i).joined = true := by
  have hgo : ∀ (t : ι) (s : Shared ι) (p : Pc), p.halfway = true →
      ∃ x s', step libs t s p x = some (s', p.settled) ∧ s'.clients = s.clients := by
    intro t s p hbusy
    cases p <;> simp only [Pc.halfway, Bool.false_eq_true] at hbusy
    all_goals exact ⟨.go, _, rfl, rfl⟩
  obtain ⟨c', hleads, hclients, hpc⟩ := Prog.plain_settle (M := prog ι libs) (f := step libs)
    (fun _ _ _ _ => rfl) Pc.halfway Pc.settled (fun s s' => s'.clients = s.clients)
    (fun _ => rfl) (fun h₁ h₂ => h₂.trans h₁) hgo c
  refine ⟨c', hleads, fun i => ?_, hclients, fun i hi => ?_⟩
  · rw [hpc]
    generalize c.pc i = p
    cases p <;> rfl
  · rw [hpc]
    generalize c.pc i = p at hi
    cases p <;> first | rfl | simp [Pc.listed] at hi

/-- **A failed `write` ends the agreement.** Its client is not in `clients` any more, but its thread
is still to run `handle_frames`, or in it. -/
theorem lost_write (h : (prog ι libs).lts.Reach c) {act : ι × Choice ι}
    (hs : (prog ι libs).lts.step c act = some c') (hlost : ¬ NoLostWrite c act) :
    ∃ c'', (prog ι libs).lts.Leads c' c'' ∧ Quiet c'' ∧ ¬ Agree c'' := by
  obtain ⟨t, x⟩ := act
  obtain ⟨hO, hT⟩ := ordered h
  obtain ⟨s, p, hstep, rfl⟩ := Prog.plain_inv (f := step libs) (fun _ _ _ _ => rfl) hs
  cases x with
  | write fails =>
    simp only [NoLostWrite, not_forall, Bool.not_eq_false] at hlost
    obtain ⟨j, hj, hfails⟩ := hlost
    have hlisted : (c.pc j).listed = true := ((mem_clients hO (hT j) (left_ok h j)).1 hj).1
    dsimp only at hstep ⊢
    generalize hp : c.pc t = p₀ at hstep
    cases p₀ <;> simp only [step, reduceCtorEq, Option.some.injEq, Prod.mk.injEq] at hstep
    case broadcast data msg =>
      obtain ⟨rfl, rfl⟩ := hstep
      obtain ⟨c'', hleads, hquiet, hclients, hjoins⟩ := settle libs
        ⟨c.owner, c.sh.broadcast t fails msg, Function.update c.pc t (.receive data)⟩
      refine ⟨c'', hleads, hquiet, fun hagree => ?_⟩
      have hzero : c''.sh.clients.count j = 0 := by
        rw [List.count_eq_zero, hclients, broadcast_eq hO.nodup]
        simp [hfails]
      have hjoined : (c''.pc j).joined = true := by
        refine hjoins j ?_
        by_cases hjt : j = t
        · subst hjt
          simp [Pc.listed]
        · simpa [Function.update_of_ne hjt] using hlisted
      have hone := hagree.1 j
      rw [hzero, hjoined] at hone
      simp at hone
  | _ => exact absurd trivial hlost

/-- **When `clients` and `client_count` agree.** They do whenever no thread is in between, along runs
in which no `write` of a broadcast fails; and after one that fails, a state is reached in which
no thread is in between and they do not. -/
theorem members_agree (h : (prog ι libs).lts.ReachIf NoLostWrite c) :
    (Quiet c → Agree c) ∧ ∀ act c', (prog ι libs).lts.step c act = some c' → ¬ NoLostWrite c act →
      ∃ c'', (prog ι libs).lts.Leads c' c'' ∧ Quiet c'' ∧ ¬ Agree c'' :=
  ⟨agree h, fun _ _ hs hlost => lost_write (h.mono fun _ _ _ => trivial) hs hlost⟩

instance (c : State ι) (act : ι × Choice ι) : Decidable (NoLostWrite c act) :=
  match act with
  | (_, .write fails) => inferInstanceAs (Decidable (∀ j ∈ c.sh.clients, fails j = false))
  | (_, .read ..) | (_, .fail) | (_, .go) => .isTrue trivial

/-- Two connections join, the second one leaves. -/
theorem members_agree_leave : ∃ c : State (Fin 2),
    (prog (Fin 2) sampleLibs).lts.ReachIf NoLostWrite c ∧ c.sh.clients = [0] ∧ Agree c := by
  obtain ⟨c, hc, hp⟩ := Lts.exists_reachIf (prog (Fin 2) sampleLibs).lts NoLostWrite
    (join 0 ++ join 1 ++ say 0 (fun _ => false) ++ (1, .fail) :: List.replicate 2 (1, .go))
    (fun c => c.sh.clients == [0] && decide (∀ i, (c.pc i).halfway = false)) (by decide +kernel)
  rw [Bool.and_eq_true, beq_iff_eq, decide_eq_true_iff] at hp
  exact ⟨c, hc, hp.1, (members_agree hc).1 hp.2⟩

/-- **A member that is lost.** The `write` to client 1 fails, and its connection stays. -/
theorem lost_member : ∃ c : State (Fin 2), (prog (Fin 2) sampleLibs).lts.Reach c ∧ Quiet c ∧
    c.sh.clients = [0] ∧ c.sh.clientCount = 2 ∧ ¬ Agree c := by
  obtain ⟨c, hc, hp⟩ := Lts.exists_reachIf (prog (Fin 2) sampleLibs).lts (fun _ _ => True)
    (join 0 ++ join 1 ++ say 0 (fun i => i == 1))
    (fun c => c.sh.clients == [0] && c.sh.clientCount == 2 &&
      decide (∀ i, (c.pc i).halfway = false)) (by decide +kernel)
  simp only [Bool.and_eq_true, beq_iff_eq, decide_eq_true_iff] at hp
  obtain ⟨⟨hclients, hcount⟩, hquiet⟩ := hp
  refine ⟨c, hc, hquiet, hclients, hcount, fun hagree => ?_⟩
  have hnumber := hagree.2
  rw [hclients, hcount] at hnumber
  simp at hnumber

end BackendTasks.WebSocketServer
