import BackendTasks.Spec.WebSocketServer
import Mathlib.Data.List.Range

/-!
# Broadcasts

`Move` lists the steps of a connection's thread (`step_move`). A broadcast goes once to each
client whose `write` does not fail, and keeps just these (`sendAll_eq`).

* `ordered`: the frames written to a socket are those of the broadcasts from when the client is added
  until it is removed, each once and in order (`Ordered`).
-/

namespace BackendTasks.WebSocketServer

open Net Sched

variable {ι : Type*} [DecidableEq ι] {libs : Libs} {s s' : Shared ι} {p p' : Pc} {x : Choice ι}
  {i j : ι}

/-- The steps of the thread of connection `i`. -/
inductive Move (libs : Libs) (i : ι) (s : Shared ι) : Pc → Choice ι → Shared ι → Pc → Prop
  | accept {request beyond key} : handshakeKey request = some key →
      Move libs i s .accepted (.read request beyond) s (.respond key)
  | refuse {y} : Move libs i s .accepted y s .done
  | respond {key} :
      Move libs i s (.respond key) .go (s.write i (switchingProtocols libs key)) .register
  | respondFail {key} : Move libs i s (.respond key) .fail s .done
  | register : Move libs i s .register .go (s.push i) .count
  | count : Move libs i s .count .go { s with clientCount := s.clientCount + 1 } (.receive emptyBuffer)
  | frame {data bytes beyond f} : decodeFrame (fill data bytes ++ beyond) bytes.length = .ok f →
      Move libs i s (.receive data) (.read bytes beyond) (s.hear i bytes)
        (.broadcast (fill data bytes) (response f.payload))
  | malformed {data bytes beyond e} :
      decodeFrame (fill data bytes ++ beyond) bytes.length = .error e → e ≠ .outOfBounds →
      Move libs i s (.receive data) (.read bytes beyond) (s.hear i bytes) .deregister
  | receiveFail {data} : Move libs i s (.receive data) .fail s .deregister
  | broadcast {data response fails} :
      Move libs i s (.broadcast data response) (.write fails) (s.broadcast i fails response)
        (.receive data)
  | deregister : Move libs i s .deregister .go (s.erase i) .uncount
  | uncount : Move libs i s .uncount .go { s with clientCount := s.clientCount - 1 } .done

theorem step_move (h : step libs i s p x = some (s', p')) : Move libs i s p x s' p' := by
  cases p <;> cases x <;> simp only [step, reduceCtorEq, Option.some.injEq, Prod.mk.injEq] at h
  case accepted.read request beyond =>
    split at h
    · split at h
      · rename_i key hkey
        cases h
        exact .accept hkey
      · cases h
        exact .refuse
    · simp at h
  case receive.read data bytes beyond =>
    split at h
    · split at h
      · rename_i f hf
        cases h
        exact .frame hf
      · simp at h
      · rename_i e hne he
        cases h
        exact .malformed he hne
    · simp at h
  all_goals
    obtain ⟨rfl, rfl⟩ := h
    constructor

/-! ## The loop over the clients -/

/-- **The loop skips and repeats nobody.** -/
theorem sendAll_eq (fails : ι → Bool) (frame : Bytes) {clients : List ι} (hnodup : clients.Nodup)
    (written : ι → List Bytes) :
    sendAll fails frame clients written =
      (clients.filter (!fails ·),
        fun j => if j ∈ clients ∧ fails j = false then written j ++ [frame] else written j) := by
  induction clients generalizing written with
  | nil => simp [sendAll]
  | cons it rest ih =>
    obtain ⟨hit, hrest⟩ := List.nodup_cons.1 hnodup
    rw [sendAll]
    cases hf : fails it with
    | true =>
      rw [if_pos rfl, ih hrest, List.filter_cons_of_neg (by simp [hf])]
      congr 1
      funext j
      by_cases hj : j = it
      · subst hj
        simp [hf, hit]
      · simp [hj]
    | false =>
      rw [if_neg (by simp), ih hrest, List.filter_cons_of_pos (by simp [hf])]
      dsimp only
      congr 1
      funext j
      by_cases hj : j = it
      · subst hj
        simp [hf, hit]
      · simp [hj]

/-! ## Windows of the broadcasts -/

omit [DecidableEq ι] in
/-- The broadcasts from when client `i` is added until it is removed, by their numbers. -/
def Shared.seen (s : Shared ι) (i : ι) : List ℕ :=
  match s.added i with
  | some a => List.range' a ((s.removed i).getD s.broadcasts.length - a)
  | none => []

omit [DecidableEq ι] in
/-- The frames of these broadcasts. -/
def Shared.frames (s : Shared ι) (numbers : List ℕ) : List (Option Bytes) :=
  numbers.map fun k => s.broadcasts[k]?.map fun b => encodeFrame b.2

/-- What was written to the socket of a client: the handshake response and these frames. -/
def Sent (libs : Libs) (s : Shared ι) (i : ι) : Prop :=
  ∃ key frames, s.written i = switchingProtocols libs key :: frames ∧
    frames.map some = s.frames (s.seen i)

/-- The clients, their windows, and what was written. -/
structure Ordered (libs : Libs) (s : Shared ι) : Prop where
  nodup : s.clients.Nodup
  mem_iff : ∀ i, i ∈ s.clients ↔ (s.added i).isSome = true ∧ s.removed i = none
  added_le : ∀ i a, s.added i = some a → a ≤ s.broadcasts.length
  removed_le : ∀ i e, s.removed i = some e → (s.added i).isSome = true ∧ e ≤ s.broadcasts.length
  sent : ∀ i, (s.added i).isSome = true → Sent libs s i

/-- What a thread knows of its connection. -/
def Stage (libs : Libs) (s : Shared ι) (i : ι) : Pc → Prop
  | .accepted | .respond _ => s.added i = none ∧ s.written i = []
  | .register => s.added i = none ∧ ∃ key, s.written i = [switchingProtocols libs key]
  | .done => s.added i = none → s.written i = []
  | _ => (s.added i).isSome = true

omit [DecidableEq ι] in
/-- Who is not added was not removed. -/
theorem Ordered.not_removed (h : Ordered libs s) (hi : s.added i = none) : s.removed i = none := by
  cases he : s.removed i with
  | none => rfl
  | some e =>
    have := (h.removed_le i e he).1
    rw [hi] at this
    simp at this

omit [DecidableEq ι] in
theorem Sent.congr (h : Sent libs s i) (hwritten : s'.written i = s.written i)
    (hadded : s'.added i = s.added i) (hremoved : s'.removed i = s.removed i)
    (hbroadcasts : s'.broadcasts = s.broadcasts) : Sent libs s' i := by
  obtain ⟨key, frames, hw, hf⟩ := h
  refine ⟨key, frames, hwritten.trans hw, ?_⟩
  rw [hf, Shared.frames, Shared.frames, Shared.seen, Shared.seen, hadded, hremoved, hbroadcasts]

omit [DecidableEq ι] in
theorem Ordered.congr (h : Ordered libs s) (hclients : s'.clients = s.clients)
    (hwritten : s'.written = s.written) (hbroadcasts : s'.broadcasts = s.broadcasts)
    (hadded : s'.added = s.added) (hremoved : s'.removed = s.removed) : Ordered libs s' := by
  constructor
  · rw [hclients]
    exact h.nodup
  · rw [hclients, hadded, hremoved]
    exact h.mem_iff
  · rw [hbroadcasts, hadded]
    exact h.added_le
  · rw [hbroadcasts, hadded, hremoved]
    exact h.removed_le
  · intro j hj
    rw [hadded] at hj
    exact (h.sent j hj).congr (by rw [hwritten]) (by rw [hadded]) (by rw [hremoved]) hbroadcasts

/-! ## Each operation -/

theorem write_of_ne (bytes : Bytes) (hj : j ≠ i) : (s.write i bytes).written j = s.written j :=
  Function.update_of_ne hj ..

theorem added_push_self : (s.push i).added i = some s.broadcasts.length := Function.update_self ..

theorem added_push_of_ne (hj : j ≠ i) : (s.push i).added j = s.added j := Function.update_of_ne hj ..

theorem Ordered.write (h : Ordered libs s) (hi : s.added i = none) (bytes : Bytes) :
    Ordered libs (s.write i bytes) := by
  refine ⟨h.nodup, h.mem_iff, h.added_le, h.removed_le, fun j hj => ?_⟩
  have hadded : (s.added j).isSome = true := hj
  have hji : j ≠ i := by
    rintro rfl
    rw [hi] at hadded
    simp at hadded
  exact (h.sent j hadded).congr (write_of_ne bytes hji) rfl rfl rfl

theorem Ordered.push (h : Ordered libs s) (hi : s.added i = none)
    (hw : ∃ key, s.written i = [switchingProtocols libs key]) : Ordered libs (s.push i) := by
  have hnot : i ∉ s.clients := by
    rw [h.mem_iff, hi]
    simp
  have hremoved := h.not_removed hi
  constructor
  · exact h.nodup.append (List.nodup_singleton i) (by simpa using hnot)
  · intro j
    have hclients : (s.push i).clients = s.clients ++ [i] := rfl
    have hsame : (s.push i).removed = s.removed := rfl
    rw [hclients, hsame, List.mem_append, List.mem_singleton, h.mem_iff]
    by_cases hj : j = i
    · subst hj
      simp [added_push_self, hremoved]
    · simp [added_push_of_ne hj, hj]
  · intro j a ha
    by_cases hj : j = i
    · subst hj
      rw [added_push_self] at ha
      exact (Option.some.inj ha).ge
    · rw [added_push_of_ne hj] at ha
      exact h.added_le j a ha
  · intro j e he
    have hsame : s.removed j = some e := he
    have hj : j ≠ i := by
      rintro rfl
      rw [hremoved] at hsame
      simp at hsame
    rw [added_push_of_ne hj]
    exact h.removed_le j e hsame
  · intro j hj
    by_cases hji : j = i
    · subst hji
      obtain ⟨key, hkey⟩ := hw
      have hseen : (s.push j).seen j = [] := by
        have hopen : (s.push j).removed j = none := hremoved
        rw [Shared.seen, added_push_self]
        simp only [hopen, Option.getD_none]
        exact List.range'_eq_nil_iff.2 (Nat.sub_self _)
      exact ⟨key, [], hkey, by rw [hseen]; rfl⟩
    · rw [added_push_of_ne hji] at hj
      exact (h.sent j hj).congr rfl (added_push_of_ne hji) rfl rfl

omit [DecidableEq ι] in
/-- The broadcasts that are seen have been. -/
theorem Ordered.seen_lt (h : Ordered libs s) {k : ℕ} (hk : k ∈ s.seen i) : k < s.broadcasts.length := by
  unfold Shared.seen at hk
  split at hk
  · rename_i a ha
    have hle : (s.removed i).getD s.broadcasts.length ≤ s.broadcasts.length := by
      cases he : s.removed i with
      | none => simp
      | some e => exact (h.removed_le i e he).2
    have hmem := List.mem_range'_1.1 hk
    omega
  · simp at hk

omit [DecidableEq ι] in
/-- A later broadcast does not change the frames of those seen. -/
theorem Ordered.frames_append (h : Ordered libs s) (b : ι × Bytes) :
    { s with broadcasts := s.broadcasts ++ [b] }.frames (s.seen i) = s.frames (s.seen i) := by
  refine List.map_congr_left fun k hk => ?_
  rw [List.getElem?_append_left (h.seen_lt hk)]

/-- **A broadcast**, when nobody is in `clients` twice. -/
theorem broadcast_eq (h : s.clients.Nodup) (i : ι) (fails : ι → Bool) (msg : Bytes) :
    s.broadcast i fails msg = { s with
      clients := s.clients.filter (!fails ·)
      written := fun j =>
        if j ∈ s.clients ∧ fails j = false then s.written j ++ [encodeFrame msg] else s.written j
      broadcasts := s.broadcasts ++ [(i, msg)]
      removed := fun j =>
        if j ∈ s.clients ∧ fails j = true then some s.broadcasts.length else s.removed j } := by
  rw [Shared.broadcast, sendAll_eq fails _ h]
  dsimp only
  congr 1
  funext j
  by_cases hj : j ∈ s.clients
  · simp [hj]
  · simp [hj]

/-- What a broadcast writes to a client: its frame, if it is in `clients` and the `write` does not
fail, which extends the window; nothing otherwise, when the window is closed. -/
theorem Ordered.sent_broadcast (h : Ordered libs s) (i : ι) (fails : ι → Bool) (msg : Bytes)
    (hj : (s.added j).isSome = true) : Sent libs (s.broadcast i fails msg) j := by
  obtain ⟨key, frames, hw, hf⟩ := h.sent j hj
  obtain ⟨a, hadded⟩ := Option.isSome_iff_exists.1 hj
  have hle := h.added_le j a hadded
  rw [← h.frames_append (i, msg)] at hf
  rw [broadcast_eq h.nodup]
  by_cases hmem : j ∈ s.clients
  · have hopen := ((h.mem_iff j).1 hmem).2
    have hseen : s.seen j = List.range' a (s.broadcasts.length - a) := by
      simp only [Shared.seen, hadded, hopen, Option.getD_none]
    rw [hseen] at hf
    cases hfails : fails j with
    | true =>
      refine ⟨key, frames, by simp [hfails, hw], hf.trans ?_⟩
      simp [Shared.seen, Shared.frames, hadded, hmem, hfails]
    | false =>
      refine ⟨key, frames ++ [encodeFrame msg], by simp [hmem, hfails, hw], ?_⟩
      have hlen : s.broadcasts.length + 1 - a = s.broadcasts.length - a + 1 := by omega
      have hlast : a + (s.broadcasts.length - a) = s.broadcasts.length := by omega
      rw [List.map_append, hf]
      simp [Shared.seen, Shared.frames, hadded, hopen, hfails, hlen, List.range'_concat, hlast]
  · obtain ⟨e, he⟩ : ∃ e, s.removed j = some e := by
      rw [← Option.isSome_iff_exists, Option.isSome_iff_ne_none]
      intro hnone
      exact hmem ((h.mem_iff j).2 ⟨hj, hnone⟩)
    refine ⟨key, frames, by simp [hmem, hw], hf.trans ?_⟩
    simp [Shared.seen, Shared.frames, hadded, hmem, he]

theorem Ordered.broadcast (h : Ordered libs s) (i : ι) (fails : ι → Bool) (msg : Bytes) :
    Ordered libs (s.broadcast i fails msg) := by
  have hsent : ∀ j, (s.added j).isSome = true → Sent libs (s.broadcast i fails msg) j :=
    fun j hj => h.sent_broadcast i fails msg hj
  rw [broadcast_eq h.nodup] at hsent ⊢
  constructor
  · exact h.nodup.filter _
  · intro j
    have hj := h.mem_iff j
    by_cases hmem : j ∈ s.clients
    · cases hf : fails j with
      | true => simp [hmem, hf]
      | false => simp [hmem, hf, hj.1 hmem]
    · simp only [List.mem_filter, hmem, false_and, if_false, ← hj]
  · intro j a ha
    exact (h.added_le j a ha).trans (by simp)
  · intro j e he
    dsimp only at he
    rw [List.length_append]
    split at he
    · rename_i hlost
      exact ⟨((h.mem_iff j).1 hlost.1).1, by rw [← Option.some.inj he]; omega⟩
    · have hj := h.removed_le j e he
      exact ⟨hj.1, by omega⟩
  · exact hsent

theorem removed_erase (s : Shared ι) (i j : ι) :
    (s.erase i).removed j = if j = i ∧ i ∈ s.clients then some s.broadcasts.length else s.removed j := by
  unfold Shared.erase
  by_cases hi : i ∈ s.clients
  · simp [hi, Function.update_apply]
  · simp [hi]

/-- A client leaves, unless a failed `write` has removed it. -/
theorem Ordered.erase (h : Ordered libs s) (i : ι) : Ordered libs (s.erase i) := by
  have hclients : (s.erase i).clients = s.clients.filter (· ≠ i) := rfl
  constructor
  · exact h.nodup.filter _
  · intro j
    have hadded : (s.erase i).added = s.added := rfl
    have hj := h.mem_iff j
    rw [hclients, hadded, removed_erase, List.mem_filter, decide_eq_true_iff, hj]
    by_cases hji : j = i
    · subst hji
      by_cases hmem : j ∈ s.clients
      · simp [hmem]
      · have hno : ¬ ((s.added j).isSome = true ∧ s.removed j = none) := fun hyes => hmem (hj.2 hyes)
        simp [hmem, hno]
    · simp [hji]
  · exact h.added_le
  · intro j e he
    rw [removed_erase] at he
    split at he
    · rename_i hleft
      obtain ⟨rfl, hmem⟩ := hleft
      exact ⟨((h.mem_iff j).1 hmem).1, (Option.some.inj he).ge⟩
    · exact h.removed_le j e he
  · intro j hj
    have hseen : (s.erase i).seen j = s.seen j := by
      have hadded : (s.erase i).added = s.added := rfl
      have hbroadcasts : (s.erase i).broadcasts = s.broadcasts := rfl
      rw [Shared.seen, Shared.seen, hadded, hbroadcasts, removed_erase]
      by_cases hleft : j = i ∧ i ∈ s.clients
      · have hopen := ((h.mem_iff j).1 (hleft.1 ▸ hleft.2)).2
        rw [if_pos hleft, hopen]
        rfl
      · rw [if_neg hleft]
    obtain ⟨key, frames, hw, hf⟩ := h.sent j hj
    exact ⟨key, frames, hw, by rw [hseen]; exact hf⟩

/-! ## Every run -/

/-- A thread's own step. -/
theorem Stage.own (hO : Ordered libs s) (hT : Stage libs s i p) (hm : Move libs i s p x s' p') :
    Ordered libs s' ∧ Stage libs s' i p' := by
  cases hm with
  | accept => exact ⟨hO, hT⟩
  | refuse => exact ⟨hO, fun _ => hT.2⟩
  | respond =>
    rename_i key
    refine ⟨hO.write hT.1 _, hT.1, key, ?_⟩
    have hnil : s.written i = [] := hT.2
    rw [Shared.write]
    simp [hnil]
  | respondFail => exact ⟨hO, fun _ => hT.2⟩
  | register =>
    have hadded : ((s.push i).added i).isSome = true := by rw [added_push_self]; rfl
    exact ⟨hO.push hT.1 hT.2, hadded⟩
  | count => exact ⟨hO.congr rfl rfl rfl rfl rfl, hT⟩
  | frame => exact ⟨hO.congr rfl rfl rfl rfl rfl, hT⟩
  | malformed => exact ⟨hO.congr rfl rfl rfl rfl rfl, hT⟩
  | receiveFail => exact ⟨hO, hT⟩
  | broadcast => exact ⟨hO.broadcast .., hT⟩
  | deregister => exact ⟨hO.erase i, hT⟩
  | uncount =>
    refine ⟨hO.congr rfl rfl rfl rfl rfl, fun hnone => ?_⟩
    have hadded : (s.added i).isSome = true := hT
    rw [show s.added i = none from hnone] at hadded
    simp at hadded

/-- What a step of another thread does to a connection that is not added. -/
theorem Move.other (hO : Ordered libs s) (hm : Move libs i s p x s' p') (hji : j ≠ i) :
    s'.added j = s.added j ∧ (s.added j = none → s'.written j = s.written j) := by
  cases hm with
  | respond => exact ⟨rfl, fun _ => write_of_ne _ hji⟩
  | register => exact ⟨added_push_of_ne hji, fun _ => rfl⟩
  | broadcast =>
    rename_i fails
    refine ⟨rfl, fun hnone => ?_⟩
    have hmem : j ∉ s.clients := by
      rw [hO.mem_iff, hnone]
      simp
    rw [broadcast_eq hO.nodup]
    simp [hmem]
  | _ => exact ⟨rfl, fun _ => rfl⟩

omit [DecidableEq ι] in
theorem Stage.other (hT : Stage libs s j p) (hadded : s'.added j = s.added j)
    (hwritten : s.added j = none → s'.written j = s.written j) : Stage libs s' j p := by
  cases p with
  | accepted | respond key => exact ⟨hadded.trans hT.1, (hwritten hT.1).trans hT.2⟩
  | register =>
    obtain ⟨hnone, key, hkey⟩ := hT
    exact ⟨hadded.trans hnone, key, (hwritten hnone).trans hkey⟩
  | done =>
    intro hnone
    rw [hadded] at hnone
    exact (hwritten hnone).trans (hT hnone)
  | _ => exact (congrArg Option.isSome hadded).trans hT

variable [Fintype ι] {c : State ι}

theorem ordered (h : (prog ι libs).lts.Reach c) :
    Ordered libs c.sh ∧ ∀ i, Stage libs c.sh i (c.pc i) := by
  refine Prog.plain_invariant (f := step libs) (fun _ _ _ _ => rfl)
    (Ordered libs) (fun i s p => Stage libs s i p) ?_ ?_ ?_ ?_ h
  · exact ⟨.nil, fun _ => by simp [prog, construct], nofun, nofun, nofun⟩
  · exact fun _ => ⟨rfl, rfl⟩
  · intro c t x s p _ _ hs hO hT
    exact hT.own hO (step_move hs)
  · intro c t x s p i _ _ hs hO _ hit hT
    obtain ⟨hadded, hwritten⟩ := (step_move hs).other hO hit
    exact hT.other hadded hwritten

omit [DecidableEq ι] [Fintype ι] in
/-- The broadcasts are seen in the order of their numbers. -/
theorem lt_of_seen {m n : ℕ} (h : [m, n].Sublist (s.seen i)) : m < n := by
  unfold Shared.seen at h
  split at h
  · have hsorted : [m, n].Pairwise (· < ·) := List.Pairwise.sublist h List.pairwise_lt_range'
    simpa using hsorted
  · simp at h

/-! ## A run -/

/-- A request with a key, and what the libraries make of it. -/
def sampleRequest : Bytes :=
  ascii "GET / HTTP/1.1\r\nUpgrade: websocket\r\nSec-WebSocket-Key: dGhlIHNhbXBsZSBub25jZQ==\r\n\r\n"

def sampleLibs : Libs where
  sha1 _ := [0xB3, 0x7A, 0x4F, 0x2C, 0xC0, 0x62, 0x4F, 0x16, 0x90, 0xF6, 0x46, 0x06, 0xCF, 0x38, 0x59,
    0x45, 0xB2, 0xBE, 0xC4, 0xEA]
  base64 _ := ascii "s3pPLMBiTxaQ9kYGzzhZRbK+xOo="

omit [DecidableEq ι] in
/-- The handshake of a connection, up to the loop. -/
def join (i : ι) : List (ι × Choice ι) := (i, .read sampleRequest []) :: List.replicate 3 (i, .go)

omit [DecidableEq ι] in
/-- A message of a client, and its broadcast. -/
def say (i : ι) (fails : ι → Bool) : List (ι × Choice ι) :=
  [(i, .read [0x81, 0x82, 1, 2, 3, 4, 105, 107] []), (i, .write fails)]

end BackendTasks.WebSocketServer
