import BackendTasks.Spec.RedisServer

/-!
# Sessions that fail

The `try` block of `run` is around its loop, so the first session that throws ends the loop
(`run_fault`).

* `survives_iff`: so all sessions are handled just when no session but the last one throws.
-/

namespace BackendTasks.RedisServer

open Net

variable {client : RedisClient} {store : Store} {session : Session} {sessions good : List Session}

/-- The session does not throw. -/
def Session.Good (session : Session) : Prop := session.fault = none

instance : DecidablePred Session.Good := fun session => decEq session.fault none

/-- The responses to the good sessions, when the others do nothing but store what they store. -/
def goodResponses (client : RedisClient) (store : Store) : List Session → List (Option Response)
  | [] => []
  | session :: sessions =>
    let outcome := handleSession client store session
    let more := goodResponses client outcome.store sessions
    if session.Good then outcome.res :: more else more

/-- Every session is handled, and the good ones are answered as if the others were not there. -/
def Survives (client : RedisClient) (store : Store) (sessions : List Session) : Prop :=
  (run client store sessions).map Prod.fst = sessions ∧
    ((run client store sessions).filter fun handled => handled.1.Good).map Prod.snd =
      goodResponses client store sessions

theorem throws_iff (client : RedisClient) (store : Store) (session : Session) :
    (handleSession client store session).throws = true ↔ ¬ session.Good := by
  unfold handleSession Session.Good
  cases session.fault with
  | none => simp
  | some fault =>
    cases fault with
    | action after => cases after <;> simp
    | _ => simp

theorem run_good (h : session.Good) (client : RedisClient) (store : Store) (sessions : List Session) :
    run client store (session :: sessions) =
      (session, (handleSession client store session).res) ::
        run client (handleSession client store session).store sessions := by
  have hthrows : ¬ (handleSession client store session).throws = true := fun ht => (throws_iff ..).1 ht h
  simp only [run, if_neg hthrows]

/-- **A session that throws is the last one.** -/
theorem run_fault (h : ¬ session.Good) (client : RedisClient) (store : Store) (sessions : List Session) :
    run client store (session :: sessions) = [(session, (handleSession client store session).res)] := by
  have hthrows := (throws_iff client store session).2 h
  simp only [run, if_pos hthrows]

theorem survives_good (h : session.Good) (client : RedisClient) (store : Store) (sessions : List Session) :
    Survives client store (session :: sessions) ↔
      Survives client (handleSession client store session).store sessions := by
  simp [Survives, run_good h, goodResponses, h]

theorem survives_fault (h : ¬ session.Good) (client : RedisClient) (store : Store)
    (sessions : List Session) : Survives client store (session :: sessions) ↔ sessions = [] := by
  rw [Survives, run_fault h]
  constructor
  · rintro ⟨hall, -⟩
    exact (List.cons.inj hall).2.symm
  · rintro rfl
    simp [goodResponses, h]

/-- **When the server stays up**: just when no session but the last one throws. -/
theorem survives_iff (client : RedisClient) (store : Store) (sessions : List Session) :
    Survives client store sessions ↔ ∀ session ∈ sessions.dropLast, session.fault = none := by
  induction sessions generalizing store with
  | nil => simp [Survives, run, goodResponses]
  | cons session sessions ih =>
    cases sessions with
    | nil =>
      by_cases hgood : session.Good
      · rw [survives_good hgood]
        simp [Survives, run, goodResponses]
      · rw [survives_fault hgood]
        simp
    | cons next sessions =>
      rw [List.dropLast_cons_of_ne_nil (List.cons_ne_nil _ _), List.forall_mem_cons]
      by_cases hgood : session.Good
      · rw [survives_good hgood, ih]
        exact (and_iff_right hgood).symm
      · rw [survives_fault hgood]
        exact iff_of_false (List.cons_ne_nil _ _) fun h => hgood h.1

/-- **A server that is taken down.** A client that disconnects before it has sent its request, and one
that is never answered. -/
theorem taken_down :
    (run ⟨true⟩ (fun _ => none) [⟨⟨.get, ascii "/k", []⟩, .done, some .read⟩,
      ⟨⟨.get, ascii "/k", []⟩, .done, none⟩]).length = 1 ∧
    ¬ Survives ⟨true⟩ (fun _ => none) [⟨⟨.get, ascii "/k", []⟩, .done, some .read⟩,
      ⟨⟨.get, ascii "/k", []⟩, .done, none⟩] := by
  refine ⟨rfl, fun h => ?_⟩
  rw [survives_fault (by decide)] at h
  simp at h

end BackendTasks.RedisServer
