import BackendTasks.Proof.HttpClose
import BackendTasks.Spec.HttpExchange

/-!
# Steps of the HTTP server and its clients

`ClientMove`, `StartMove` and `PoolMove` list the steps. `answer` is all that `handle_client` writes
for what it reads, and `Listed` says which connections are at a stage.
-/

namespace BackendTasks.HttpServer

open Net Sched

variable {ι : Type*} [DecidableEq ι] {limits : Limits} {s s' : Shared ι} {p p' : Pc ι}
  {x : Choice ι}
  {i j : ι} {k : Fin 4}

/-! ## What is answered -/

/-- All that `handle_client` writes for these reads. -/
def answer (limits : Limits) (heard : List Bytes) : Bytes :=
  ((handleClient limits heard).1.map Prod.snd).flatten

/-- After these reads `handle_client` reads again. -/
def Serving (limits : Limits) (heard : List Bytes) : Prop :=
  ∀ more, handleClient limits (heard ++ more) =
    ((handleClient limits heard).1 ++ (handleClient limits more).1, (handleClient limits more).2)

/-- One of these reads makes `parse_request` throw. -/
def Unparsed (limits : Limits) (heard : List Bytes) : Prop :=
  ∃ read ∈ heard, ∃ e, parseRequest limits read = .error e

theorem serving_nil (limits : Limits) : Serving limits [] := fun more => by
  rw [List.nil_append]
  rfl

theorem answer_serving {heard : List Bytes} (h : Serving limits heard) (more : List Bytes) :
    answer limits (heard ++ more) = answer limits heard ++ answer limits more := by
  unfold answer
  rw [h more, List.map_append, List.flatten_append]

theorem answer_one {read : Bytes} {request : HttpRequest} (hread : read ≠ [])
    (hparse : parseRequest limits read = .ok request) :
    answer limits [read] = (route request).toString := by
  have hnil : handleClient limits [] = ([], none) := rfl
  cases hcloses : request.closes with
  | true => simp [answer, handleClient_closes hread hparse hcloses]
  | false => simp [answer, handleClient_open hread hparse hcloses, hnil]

theorem serving_one {read : Bytes} {request : HttpRequest} (hread : read ≠ [])
    (hparse : parseRequest limits read = .ok request) (hopen : request.closes = false) :
    Serving limits [read] := by
  intro more
  have hnil : handleClient limits [] = ([], none) := rfl
  rw [List.singleton_append, handleClient_open hread hparse hopen,
    handleClient_open hread hparse hopen, hnil]
  rfl

theorem Serving.append {heard more : List Bytes}
    (h : Serving limits heard) (h' : Serving limits more) :
    Serving limits (heard ++ more) := by
  intro rest
  rw [List.append_assoc, h, h', h more]
  simp only [List.append_assoc]

theorem toString_ne_nil (response : HttpResponse) : response.toString ≠ [] := by
  simp [HttpResponse.toString, ascii]

/-! ## The steps -/

/-- The steps of a client. -/
inductive ClientMove (text : Bytes) (i : ι) (s : Shared ι) :
    Pc ι → Choice ι → Shared ι → Pc ι → Prop
  | connect : ClientMove text i s .connect .go
      { s.on i ((s.conns i).move .waiting) with backlog := s.backlog ++ [i] } (.send text)
  | refused : ClientMove text i s .connect .fail (s.on i (s.conns i).fail) .threw
  | send {rest n} : 0 < n → n ≤ rest.length →
      ClientMove text i s (.send rest) (.bytes n) (s.on i ((s.conns i).send (rest.take n)))
        (.send (rest.drop n))
  | sent : ClientMove text i s (.send []) .go s .receive
  | sendFailed {rest} :
      ClientMove text i s (.send rest) .fail (s.on i (s.conns i).fail) (.leave none)
  | receiveFailed : ClientMove text i s .receive .fail (s.on i (s.conns i).fail) (.leave none)
  | receive {n} : 0 < n → n ≤ 1024 → n ≤ (s.conns i).toClient.length →
      ClientMove text i s .receive (.bytes n) (s.on i ((s.conns i).take n))
        (.leave (some ((s.conns i).toClient.take n)))
  | eof : (s.conns i).toClient = [] → (s.conns i).serverClosed = true →
      ClientMove text i s .receive .go s (.leave none)
  | leave {result} : ClientMove text i s (.leave result) .go (s.on i (s.conns i).leave)
      (result.elim .threw .returned)

theorem clientStep_move {text : Bytes} (h : clientStep text i s p x = some (s', p')) :
    ClientMove text i s p x s' p' := by
  unfold clientStep at h
  split at h
  · cases h
    exact .connect
  · cases h
    exact .refused
  · rename_i rest n
    split at h
    · rename_i hn
      cases h
      exact .send hn.1 hn.2
    · simp at h
  · cases h
    exact .sent
  · cases h
    exact .sendFailed
  · split at h
    · rename_i hn
      cases h
      exact .receive hn.1 hn.2.1 hn.2.2
    · simp at h
  · split at h
    · rename_i hend
      cases h
      exact .eof hend.1 hend.2
    · simp at h
  · cases h
    exact .receiveFailed
  · cases h
    exact .leave
  · cases h
    exact .leave
  · simp at h

/-- The steps of `start`. -/
inductive StartMove (s : Shared ι) : Pc ι → Choice ι → Shared ι → Pc ι → Prop
  | accept {i : ι} {backlog} : s.backlog = i :: backlog →
      StartMove s .accept .go { s.on i ((s.conns i).move .accepted) with backlog := backlog }
        (.post i)
  | failed : StartMove s .accept .fail { s with stopped := true } .drop
  | post {i : ι} : StartMove s (.post i) .go
      { s.on i ((s.conns i).move .posted) with tasks := s.tasks ++ [i] } .accept
  | drop {i : ι} {tasks} : s.tasks = i :: tasks →
      StartMove s .drop .go { s.on i (s.conns i).drop with tasks := tasks } .drop
  | stopped : s.tasks = [] → StartMove s .drop .go s .stopped

theorem startStep_move (h : startStep s p x = some (s', p')) : StartMove s p x s' p' := by
  unfold startStep at h
  split at h
  · split at h
    · rename_i hbacklog
      cases h
      exact .accept hbacklog
    · simp at h
  · cases h
    exact .failed
  · cases h
    exact .post
  · split at h
    · rename_i htasks
      cases h
      exact .drop htasks
    · rename_i htasks
      cases h
      exact .stopped htasks
  · simp at h

/-- The steps of a thread of the pool. -/
inductive PoolMove (limits : Limits) (k : Fin 4) (s : Shared ι) :
    Pc ι → Choice ι → Shared ι → Pc ι → Prop
  | run {i : ι} : i ∈ s.tasks → s.stopped = false → PoolMove limits k s .idle (.run i)
      { s.on i ((s.conns i).move (.taken k)) with tasks := s.tasks.erase i } (.enter i)
  | enter {i : ι} : PoolMove limits k s (.enter i) .go { s with clientCount := s.clientCount + 1 }
    (.read i)
  | unparsed {i : ι} {n e} : 0 < n → n ≤ (s.conns i).toServer.length →
      parseRequest limits ((s.conns i).toServer.take n) = .error e →
      PoolMove limits k s (.read i) (.bytes n) (s.on i ((s.conns i).hear n)) (.exit i)
  | request {i : ι} {n request} : 0 < n → n ≤ (s.conns i).toServer.length →
      parseRequest limits ((s.conns i).toServer.take n) = .ok request →
      PoolMove limits k s (.read i) (.bytes n) (s.on i ((s.conns i).hear n))
        (.write i request.closes (route request).toString)
  | eof {i : ι} : (s.conns i).toServer = [] → (s.conns i).clientClosed = true →
      PoolMove limits k s (.read i) .go s (.exit i)
  | readFailed {i : ι} : PoolMove limits k s (.read i) .fail (s.on i (s.conns i).fail) (.exit i)
  | writeFailed {i : ι} {closes rest} :
      PoolMove limits k s (.write i closes rest) .fail (s.on i (s.conns i).fail) (.exit i)
  | write {i : ι} {closes rest n} : 0 < n → n ≤ rest.length →
      PoolMove limits k s (.write i closes rest) (.bytes n)
        (s.on i ((s.conns i).write (rest.take n)))
        (.write i closes (rest.drop n))
  | written {i : ι} {closes} :
    PoolMove limits k s (.write i closes []) .go s (if closes then .exit i else .read i)
  | exit {i : ι} : PoolMove limits k s (.exit i) .go { s with clientCount := s.clientCount - 1 }
    (.close i)
  | close {i : ι} : PoolMove limits k s (.close i) .go (s.on i (s.conns i).drop) .idle

theorem poolStep_move (h : poolStep limits k s p x = some (s', p')) :
    PoolMove limits k s p x s' p' := by
  unfold poolStep at h
  split at h
  · split at h
    · rename_i hrun
      cases h
      exact .run hrun.1 hrun.2
    · simp at h
  · cases h
    exact .enter
  · split at h
    · rename_i hn
      split at h
      · rename_i hparse
        cases h
        exact .unparsed hn.1 hn.2.2 hparse
      · rename_i hparse
        cases h
        exact .request hn.1 hn.2.2 hparse
    · simp at h
  · split at h
    · rename_i hend
      cases h
      exact .eof hend.1 hend.2
    · simp at h
  · cases h
    exact .readFailed
  · split at h
    · rename_i hn
      cases h
      exact .write hn.1 hn.2
    · simp at h
  · cases h
    exact .written
  · cases h
    exact .writeFailed
  · cases h
    exact .exit
  · cases h
    exact .close
  · simp at h

/-! ## Lists of connections -/

/-- The list has the connections that are at a stage, each once. -/
def Listed (stage : Stage) (l : List ι) (conns : ι → Conn) : Prop :=
  l.Nodup ∧ ∀ i, i ∈ l ↔ (conns i).stage = stage

section Listed

variable {stage : Stage} {l : List ι} {conns : ι → Conn} {c : Conn}

omit [DecidableEq ι] in
theorem Listed.congr {conns' : ι → Conn} (h : Listed stage l conns)
    (hstage : ∀ i, (conns' i).stage = stage ↔ (conns i).stage = stage) : Listed stage l conns' :=
  ⟨h.1, fun i => (h.2 i).trans (hstage i).symm⟩

omit [DecidableEq ι] in
/-- Steps that have nothing to do with the stage. -/
theorem Listed.frame {conns' : ι → Conn} (h : Listed stage l conns)
    (hframe : ∀ i, conns' i = conns i ∨ (conns i).stage ≠ stage ∧ (conns' i).stage ≠ stage) :
    Listed stage l conns' := by
  refine h.congr fun i => ?_
  rcases hframe i with hsame | ⟨hbefore, hafter⟩
  · rw [hsame]
  · exact iff_of_false hafter hbefore

theorem Listed.enter (h : Listed stage l conns) (hbefore : (conns j).stage ≠ stage)
    (hafter : c.stage = stage) :
    Listed stage (l ++ [j]) (Function.update conns j c) := by
  have hj : j ∉ l := fun hmem => hbefore ((h.2 j).1 hmem)
  refine ⟨List.nodup_append.2 ⟨h.1, List.nodup_singleton j, ?_⟩, fun i => ?_⟩
  · intro a ha b hb heq
    obtain rfl := List.mem_singleton.1 hb
    exact hj (heq ▸ ha)
  · rw [List.mem_append, List.mem_singleton, h.2 i]
    by_cases hi : i = j
    · subst hi
      rw [Function.update_self]
      exact iff_of_true (.inr rfl) hafter
    · rw [Function.update_of_ne hi]
      exact or_iff_left hi

theorem Listed.remove (h : Listed stage l conns) (hafter : c.stage ≠ stage) :
    Listed stage (l.erase j) (Function.update conns j c) := by
  refine ⟨h.1.erase j, fun i => ?_⟩
  rw [h.1.mem_erase_iff, h.2 i]
  by_cases hi : i = j
  · subst hi
    rw [Function.update_self]
    exact iff_of_false (fun hmem => hmem.1 rfl) hafter
  · rw [Function.update_of_ne hi]
    exact and_iff_right hi

theorem Listed.tail (h : Listed stage (j :: l) conns) (hafter : c.stage ≠ stage) :
    Listed stage l (Function.update conns j c) := by
  have hremove := h.remove (j := j) hafter
  rwa [List.erase_cons_head] at hremove

end Listed

end BackendTasks.HttpServer
