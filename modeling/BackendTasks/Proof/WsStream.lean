import BackendTasks.Proof.WsDecode
import BackendTasks.Proof.WsBroadcast
import BackendTasks.Net.Stream

/-!
# How TCP divides the frames

`handle_frames` decodes the buffer after each `read_some` as one frame: it looks no further than
the first frame there, keeps nothing of it for the next read, and does not ask whether all
of the frame is there.

* `broadcasts_iff`: so each frame is broadcast, once and in order, just when after each read
  the buffer begins with a frame with the next payload, and no read is left over. That is the case
  when each read gives one frame.
* `bytewise_division`: no frame at all is broadcast when each read gives one byte.
* `connection_broadcasts`: among the threads of all connections each broadcasts what
  `handle_frames` makes of its own reads.
* `broadcasts_ordered`: so the frames written to a socket are those of the broadcasts from when the
  client is added until it is removed, in one order for all clients.
-/

namespace BackendTasks.WebSocketServer

open Net

variable {data read payload : Bytes} {reads : List Bytes} {f : Frame} {frames : List Frame} {n : ℕ}

/-- Each frame is broadcast, once and in order, and nothing else. -/
def Broadcasts (frames : List Frame) (reads : List Bytes) : Prop :=
  (handleFrames emptyBuffer reads).1 = frames.map (fun f => response f.payload) ∧
    (handleFrames emptyBuffer reads).2 ≠ some .outOfBounds

/-- The buffer begins with a frame with this payload, the first byte aside. -/
def Shows (data payload : Bytes) : Prop :=
  ∃ (f : Frame) (b : UInt8) (behind : Bytes), data = b :: (f.rest ++ behind) ∧ f.payload = payload

/-- What is read is too short for a frame, or the length field is that of the 64-bit form. -/
def Refused : Bytes → Prop
  | _ :: maskLength :: _ => (maskLength &&& 0x7F).toNat = 127
  | _ => True

/-- After each read the buffer shows the next payload, and no read is left over, unless it is
refused. -/
def Separate : Bytes → List Frame → List Bytes → Prop
  | _, [], [] => True
  | _, [], read :: _ => Refused read
  | _, _ :: _, [] => False
  | data, f :: frames, read :: reads =>
    2 ≤ read.length ∧ Shows (fill data read) f.payload ∧ Separate (fill data read) frames reads

/-! ## One read -/

theorem decode_shows (h : Shows data payload) (hlen : 2 ≤ n) :
    ∃ frame, decodeFrame data n = .ok frame ∧ frame.payload = payload := by
  obtain ⟨f, b, behind, rfl, rfl⟩ := h
  exact ⟨_, decodeFrame_frame f b behind hlen, rfl⟩

theorem shows_of_decode {frame : WSFrame} (h : decodeFrame data n = .ok frame) :
    2 ≤ n ∧ Shows data frame.payload := by
  obtain ⟨hlen, f, b, behind, hdata, hpayload⟩ := exists_frame h
  exact ⟨hlen, f, b, behind, hdata, hpayload.symm⟩

theorem byteAt_error {i : ℕ} {e : DecodeError} (h : byteAt data i = .error e) : e = .outOfBounds := by
  unfold byteAt at h
  split at h
  · simp at h
  · exact (Except.error.inj h).symm

/-- Behind the first two bytes all that `decode_frame` refuses is the 64-bit form. -/
theorem readLength_error {m : UInt8} {e : DecodeError} (h : readLength data m = .error e) :
    e = .outOfBounds ∨ (m &&& 0x7F).toNat = 127 := by
  unfold readLength at h
  dsimp only at h
  split at h
  · left
    rcases bind_eq_error.1 h with h | ⟨hi, -, h⟩
    · exact byteAt_error h
    · rcases bind_eq_error.1 h with h | ⟨lo, -, h⟩
      · exact byteAt_error h
      · simp [pure, Except.pure] at h
  · split at h
    · rename_i h127
      exact .inr h127
    · simp at h

theorem readKey_error {m : UInt8} {h : ℕ} {e : DecodeError} (hk : readKey data m h = .error e) :
    e = .outOfBounds := by
  unfold readKey at hk
  split at hk
  · rcases bind_eq_error.1 hk with hk | ⟨k₀, -, hk⟩
    · exact byteAt_error hk
    rcases bind_eq_error.1 hk with hk | ⟨k₁, -, hk⟩
    · exact byteAt_error hk
    rcases bind_eq_error.1 hk with hk | ⟨k₂, -, hk⟩
    · exact byteAt_error hk
    rcases bind_eq_error.1 hk with hk | ⟨k₃, -, hk⟩
    · exact byteAt_error hk
    · simp [pure, Except.pure] at hk
  · simp at hk

/-- **What `decode_frame` throws at**, undefined behaviour aside. -/
theorem refused_iff (data read : Bytes) :
    Refused read ↔ ∃ e, decodeFrame (fill data read) read.length = .error e ∧ e ≠ .outOfBounds := by
  rcases read with _ | ⟨b, _ | ⟨m, read⟩⟩
  · exact ⟨fun _ => ⟨.frameTooShort, rfl, by decide⟩, fun _ => trivial⟩
  · exact ⟨fun _ => ⟨.frameTooShort, rfl, by decide⟩, fun _ => trivial⟩
  have h₀ : byteAt (fill data (b :: m :: read)) 0 = .ok b := rfl
  have h₁ : byteAt (fill data (b :: m :: read)) 1 = .ok m := rfl
  generalize fill data (b :: m :: read) = buffer at h₀ h₁ ⊢
  have hlong : ¬ (b :: m :: read).length < 2 := by simp
  constructor
  · intro h
    have h127 : (m &&& 0x7F).toNat = 127 := h
    have hlength : readLength buffer m = .error .payloadTooBig := by
      have h126 : (m &&& 0x7F).toNat ≠ 126 := by omega
      rw [readLength, if_neg h126, if_pos h127]
    refine ⟨.payloadTooBig, ?_, by decide⟩
    rw [decodeFrame, if_neg hlong, h₀, h₁]
    simp only [bind, Except.bind, hlength]
  · rintro ⟨e, h, hne⟩
    rw [decodeFrame, if_neg hlong, h₀, h₁] at h
    rcases bind_eq_error.1 h with h | ⟨b', -, h⟩
    · simp at h
    rcases bind_eq_error.1 h with h | ⟨m', hm, h⟩
    · simp at h
    obtain rfl := Except.ok.inj hm
    rcases bind_eq_error.1 h with h | ⟨⟨n, h₂⟩, -, h⟩
    · exact (readLength_error h).resolve_left hne
    rcases bind_eq_error.1 h with h | ⟨⟨key, h₃⟩, -, h⟩
    · exact absurd (readKey_error h) hne
    rcases bind_eq_error.1 h with h | ⟨payload, -, h⟩
    · rw [readPayload_eq] at h
      split at h
      · simp at h
      · exact absurd (Except.error.inj h).symm hne
    · simp [pure, Except.pure] at h

/-! ## All of the reads -/

theorem response_inj {p q : Bytes} : response p = response q ↔ p = q := List.append_right_inj _

theorem handleFrames_iff (data : Bytes) (frames : List Frame) (reads : List Bytes) :
    ((handleFrames data reads).1 = frames.map (fun f => response f.payload) ∧
      (handleFrames data reads).2 ≠ some .outOfBounds) ↔ Separate data frames reads := by
  induction reads generalizing data frames with
  | nil => cases frames <;> simp [handleFrames, Separate]
  | cons read reads ih =>
    rw [handleFrames]
    cases hdec : decodeFrame (fill data read) read.length with
    | error e =>
      cases frames with
      | nil => simp [Separate, refused_iff data read, hdec]
      | cons f frames =>
        have hnot : ¬ (2 ≤ read.length ∧ Shows (fill data read) f.payload) := by
          rintro ⟨hlen, hshows⟩
          obtain ⟨frame, hframe, -⟩ := decode_shows hshows hlen
          rw [hdec] at hframe
          simp at hframe
        simp only [Separate, ← and_assoc, hnot, false_and]
        simp
    | ok frame =>
      cases frames with
      | nil => simp [Separate, refused_iff data read, hdec]
      | cons f frames =>
        have hhead : frame.payload = f.payload ↔ 2 ≤ read.length ∧ Shows (fill data read) f.payload := by
          constructor
          · intro heq
            rw [← heq]
            exact shows_of_decode hdec
          · rintro ⟨hlen, hshows⟩
            obtain ⟨frame', hframe', heq⟩ := decode_shows hshows hlen
            rw [hdec] at hframe'
            obtain rfl := Except.ok.inj hframe'
            exact heq
        simp only [List.map_cons, List.cons.injEq, response_inj, hhead, Separate, ← ih, and_assoc]

/-- Each frame comes by itself. -/
theorem separate_serialize (data : Bytes) (frames : List Frame) :
    Separate data frames (frames.map Frame.serialize) := by
  induction frames generalizing data with
  | nil => trivial
  | cons f frames ih =>
    refine ⟨by simp [Frame.serialize, Frame.rest], ⟨f, f.finOpcode, _, rfl, rfl⟩, ih _⟩

/-- **When TCP's division does no harm.** Each frame is broadcast, once and in order, just when the
reads show the payloads one by one. That is so when each read gives one frame. -/
theorem broadcasts_iff (frames : List Frame) (reads : List Bytes) :
    (Broadcasts frames reads ↔ Separate emptyBuffer frames reads) ∧
      (reads = frames.map Frame.serialize → Separate emptyBuffer frames reads) := by
  refine ⟨handleFrames_iff emptyBuffer frames reads, ?_⟩
  rintro rfl
  exact separate_serialize emptyBuffer frames

/-! ## Divisions that do harm -/

/-- **No frames are safe from division**: when they come byte by byte, none is broadcast. -/
theorem bytewise_division (hne : frames ≠ []) :
    ∃ reads, Division 1024 (frames.map Frame.serialize) reads ∧
      (handleFrames emptyBuffer reads).1 = [] ∧ ¬ Broadcasts frames reads := by
  obtain ⟨f, frames, rfl⟩ := List.exists_cons_of_ne_nil hne
  have hnone : ∀ (b : UInt8) (bs : Bytes),
      (handleFrames emptyBuffer ((b :: bs).map fun b => [b])).1 = [] := fun _ _ => rfl
  refine ⟨_, .bytewise (by decide) _, hnone .., ?_⟩
  rintro ⟨hall, -⟩
  rw [List.map_cons, List.flatten_cons, Frame.serialize, List.cons_append, hnone] at hall
  simp at hall

/-- A masked text frame with a payload of two bytes. -/
def textFrame (b c : UInt8) : Frame where
  fin := true
  opcode := Frame.text
  key := some fun i => UInt8.ofNat i.val.succ
  extended := false
  payload := [b, c]
  payload_le := Nat.le_of_ble_eq_true rfl
  short _ := Nat.le_of_ble_eq_true rfl

/-- **A frame that is lost.** Of the two frames that one read gives the second is not broadcast. -/
theorem second_frame_lost : ∃ frames reads, Division 1024 (frames.map Frame.serialize) reads ∧
    ¬ Broadcasts frames reads ∧
    handleFrames emptyBuffer reads = ([ascii "Server got: hi"], none) := by
  refine ⟨[textFrame 104 105, textFrame 121 111],
    [(textFrame 104 105).serialize ++ (textFrame 121 111).serialize],
    ⟨by decide, by decide, by decide⟩, ?_, by decide⟩
  rintro ⟨h, -⟩
  exact absurd h (by decide)

/-! ## Among the other connections -/

/-- The same result, unless the first is undefined behaviour. -/
def Defines {α : Type} (x y : Except DecodeError α) : Prop := x = .error .outOfBounds ∨ y = x

theorem Defines.rfl {α : Type} {x : Except DecodeError α} : Defines x x := .inr (Eq.refl x)

theorem Defines.bind {α β : Type} {x y : Except DecodeError α} {g h : α → Except DecodeError β}
    (hxy : Defines x y) (hgh : ∀ a, Defines (g a) (h a)) : Defines (x >>= g) (y >>= h) := by
  rcases hxy with rfl | rfl
  · exact .inl (Eq.refl _)
  · cases y with
    | error e => exact .inr (Eq.refl _)
    | ok a => exact hgh a

theorem byteAt_append (data more : Bytes) (i : ℕ) : Defines (byteAt data i) (byteAt (data ++ more) i) := by
  by_cases hi : i < data.length
  · right
    rw [byteAt, byteAt, List.getElem?_append_left hi]
  · left
    rw [byteAt, List.getElem?_eq_none (Nat.not_lt.1 hi)]

theorem readPayload_append (data more : Bytes) (key : Option Key) (h i n : ℕ) :
    Defines (readPayload data key h i n) (readPayload (data ++ more) key h i n) := by
  induction n generalizing i with
  | zero => exact .rfl
  | succ n ih =>
    rw [readPayload, readPayload]
    exact (byteAt_append ..).bind fun byte => (ih _).bind fun bytes => .rfl

/-- What lies behind the bytes that it needs does not matter to `decode_frame`. -/
theorem decodeFrame_append (data more : Bytes) (n : ℕ) :
    Defines (decodeFrame data n) (decodeFrame (data ++ more) n) := by
  rw [decodeFrame, decodeFrame]
  split
  · exact .rfl
  refine (byteAt_append ..).bind fun b => (byteAt_append ..).bind fun m => ?_
  refine Defines.bind ?_ fun length => Defines.bind ?_ fun key =>
    (readPayload_append ..).bind fun payload => .rfl
  · rw [readLength, readLength]
    split
    · exact (byteAt_append ..).bind fun hi => (byteAt_append ..).bind fun lo => .rfl
    · exact .rfl
  · rw [readKey, readKey]
    split
    · exact (byteAt_append ..).bind fun k₀ => (byteAt_append ..).bind fun k₁ =>
        (byteAt_append ..).bind fun k₂ => (byteAt_append ..).bind fun k₃ => .rfl
    · exact .rfl

/-- One more read. -/
theorem handleFrames_concat (data : Bytes) (reads : List Bytes) (read : Bytes) :
    handleFrames data (reads ++ [read]) =
      match handleFrames data reads, decodeFrame (fill (reads.foldl fill data) read) read.length with
      | (out, some e), _ => (out, some e)
      | (out, none), .error e => (out, some e)
      | (out, none), .ok frame => (out ++ [response frame.payload], none) := by
  induction reads generalizing data with
  | nil =>
    simp only [List.nil_append, handleFrames, List.foldl_nil]
    cases decodeFrame (fill data read) read.length <;> rfl
  | cons first reads ih =>
    rw [List.cons_append, handleFrames, handleFrames, List.foldl_cons]
    cases decodeFrame (fill data first) first.length with
    | error e => rfl
    | ok frame =>
      dsimp only
      rw [ih]
      split <;> simp_all

open Sched

variable {ι : Type*} [DecidableEq ι] {libs : Libs} {s s' : Shared ι} {p p' : Pc} {x : Choice ι}
  {i j : ι}

/-- What a connection has broadcast. -/
def Shared.said (s : Shared ι) (i : ι) : List Bytes :=
  (s.broadcasts.filter (·.1 = i)).map Prod.snd

/-- What the thread is about to broadcast. -/
def Pc.toSay : Pc → List Bytes
  | .broadcast _ msg => [msg]
  | _ => []

/-- What a connection has said is what `handle_frames` makes of what it has heard. -/
def Heard (s : Shared ι) (i : ι) (p : Pc) : Prop :=
  let out := handleFrames emptyBuffer (s.heard i)
  match p with
  | .accepted | .respond _ | .register | .count => s.heard i = [] ∧ s.said i = []
  | .receive data => data = (s.heard i).foldl fill emptyBuffer ∧
      (out.2 ≠ some .outOfBounds → out = (s.said i, none))
  | .broadcast data msg => data = (s.heard i).foldl fill emptyBuffer ∧
      (out.2 ≠ some .outOfBounds → out = (s.said i ++ [msg], none))
  | _ => out.2 ≠ some .outOfBounds → out.1 = s.said i

theorem heard_hear (s : Shared ι) (i : ι) (bytes : Bytes) :
    (s.hear i bytes).heard i = s.heard i ++ [bytes] := Function.update_self ..

theorem said_broadcast (s : Shared ι) (i : ι) (fails : ι → Bool) (msg : Bytes) :
    (s.broadcast i fails msg).said j = if j = i then s.said j ++ [msg] else s.said j := by
  have hlist : (s.broadcast i fails msg).broadcasts = s.broadcasts ++ [(i, msg)] := rfl
  rw [Shared.said, Shared.said, hlist, List.filter_append, List.map_append]
  by_cases hji : j = i
  · subst hji
    simp
  · simp [hji, Ne.symm hji]

/-- What a read that `decode_frame` does not go out of the buffer at adds. -/
theorem handleFrames_read {reads : List Bytes} {read : Bytes} {out : List Bytes} (beyond : Bytes)
    (hreads : (handleFrames emptyBuffer reads).2 ≠ some .outOfBounds →
      handleFrames emptyBuffer reads = (out, none))
    (hub : (handleFrames emptyBuffer (reads ++ [read])).2 ≠ some .outOfBounds) :
    handleFrames emptyBuffer (reads ++ [read]) =
      match decodeFrame (fill (reads.foldl fill emptyBuffer) read ++ beyond) read.length with
      | .error e => (out, some e)
      | .ok frame => (out ++ [response frame.payload], none) := by
  rw [handleFrames_concat] at hub ⊢
  have hdefines := decodeFrame_append (fill (reads.foldl fill emptyBuffer) read) beyond read.length
  have hout : handleFrames emptyBuffer reads = (out, none) := by
    refine hreads fun hbad => hub ?_
    generalize handleFrames emptyBuffer reads = first at hbad
    obtain ⟨first, e⟩ := first
    subst hbad
    rfl
  rw [hout] at hub ⊢
  rcases hdefines with hbad | hsame
  · rw [hbad] at hub
    exact absurd rfl hub
  · rw [hsame]
    split <;> simp_all

theorem Heard.own (hH : Heard s i p) (hm : Move libs i s p x s' p') : Heard s' i p' := by
  cases hm with
  | accept | respond | register => exact hH
  | refuse | respondFail =>
    intro _
    rw [hH.1, hH.2]
    rfl
  | count =>
    have hheard : s.heard i = [] := hH.1
    have hsaid : ({ s with clientCount := s.clientCount + 1 } : Shared ι).said i = [] := hH.2
    refine ⟨by rw [hheard]; rfl, fun _ => ?_⟩
    rw [hheard, hsaid]
    rfl
  | frame hf =>
    rename_i bytes beyond f
    obtain ⟨rfl, hout⟩ := hH
    refine ⟨?_, fun hub => ?_⟩
    · rw [heard_hear, List.foldl_concat]
    · rw [heard_hear] at hub ⊢
      rw [handleFrames_read beyond hout hub, hf]
      rfl
  | malformed he hne =>
    rename_i bytes beyond e
    obtain ⟨rfl, hout⟩ := hH
    intro hub
    rw [heard_hear] at hub ⊢
    rw [handleFrames_read beyond hout hub, he]
    rfl
  | receiveFail =>
    intro hub
    rw [hH.2 hub]
  | broadcast =>
    refine ⟨hH.1, fun hub => ?_⟩
    rw [said_broadcast, if_pos rfl]
    exact hH.2 hub
  | deregister | uncount => exact hH

theorem Heard.other (hH : Heard s j p') (hm : Move libs i s p x s' q) (hji : j ≠ i) :
    Heard s' j p' := by
  have hkeep : s'.heard j = s.heard j ∧ s'.said j = s.said j := by
    cases hm with
    | frame | malformed => exact ⟨Function.update_of_ne hji .., rfl⟩
    | broadcast => exact ⟨rfl, by rw [said_broadcast, if_neg hji]⟩
    | _ => exact ⟨rfl, rfl⟩
  unfold Heard at hH ⊢
  rw [hkeep.1, hkeep.2]
  exact hH

/-- **Each connection broadcasts what `handle_frames` makes of its own reads**, whatever the others
do, unless it reads out of its buffer. -/
theorem connection_broadcasts [Fintype ι] {c : State ι} (h : (prog ι libs).lts.Reach c) (i : ι)
    (hub : (handleFrames emptyBuffer (c.sh.heard i)).2 ≠ some .outOfBounds) :
    c.sh.said i ++ (c.pc i).toSay = (handleFrames emptyBuffer (c.sh.heard i)).1 := by
  have hH : Heard c.sh i (c.pc i) := by
    refine (Prog.plain_invariant (f := step libs) (fun _ _ _ _ => rfl) (fun _ => True)
      (fun i s p => Heard s i p) trivial ?_ ?_ ?_ h).2 i
    · exact fun _ => ⟨rfl, rfl⟩
    · intro c t x s p _ _ hs _ hH
      exact ⟨trivial, hH.own (step_move hs)⟩
    · intro c t x s p i _ _ hs _ _ hit hH
      exact hH.other (step_move hs) hit
  generalize c.pc i = p at hH
  cases p with
  | accepted | respond key | register | count =>
    rw [hH.1, hH.2]
    rfl
  | receive data => rw [hH.2 hub]; simp [Pc.toSay]
  | broadcast data msg => rw [hH.2 hub]; rfl
  | _ => rw [hH hub]; simp [Pc.toSay]

/-! ## The order of the broadcasts -/

/-- **Broadcasts are totally ordered.** What is written to the socket of a client is the handshake
response and then the frames of the broadcasts from when it is added until it is removed, each
once, in their order; so no two clients see two broadcasts in opposite orders. Before it is added
there is at most the response. `clients` are those added and not removed. The broadcasts of
each connection are what `handle_frames` makes of its reads, unless it reads out of its buffer. -/
theorem broadcasts_ordered [Fintype ι] {c : State ι} (h : (prog ι libs).lts.Reach c) :
    (∀ i, c.sh.added i = none →
      c.sh.written i = [] ∨ ∃ key, c.sh.written i = [switchingProtocols libs key]) ∧
    (∀ i, (c.sh.added i).isSome = true → ∃ key frames,
      c.sh.written i = switchingProtocols libs key :: frames ∧
      frames.map some = c.sh.frames (c.sh.seen i)) ∧
    (∀ i j m n, [m, n].Sublist (c.sh.seen i) → ¬ [n, m].Sublist (c.sh.seen j)) ∧
    c.sh.clients.Nodup ∧
    (∀ i, i ∈ c.sh.clients ↔ (c.sh.added i).isSome = true ∧ c.sh.removed i = none) ∧
    ∀ i, (handleFrames emptyBuffer (c.sh.heard i)).2 ≠ some .outOfBounds →
      c.sh.said i ++ (c.pc i).toSay = (handleFrames emptyBuffer (c.sh.heard i)).1 := by
  obtain ⟨hO, hT⟩ := ordered h
  refine ⟨fun i hnone => ?_, hO.sent, fun i j m n hi hj => ?_, hO.nodup, hO.mem_iff,
    connection_broadcasts h⟩
  · have hTi := hT i
    have hnot : ¬ (c.sh.added i).isSome = true := by rw [hnone]; simp
    generalize c.pc i = p at hTi
    cases p with
    | accepted | respond key => exact .inl hTi.2
    | register => exact .inr hTi.2
    | done => exact .inl (hTi hnone)
    | _ => exact absurd hTi hnot
  · have hlt := lt_of_seen hi
    have hgt := lt_of_seen hj
    omega

/-- Client 1 joins after the first broadcast, and in the second the `write` to client 0 fails. -/
theorem broadcasts_ordered_two : ∃ c : State (Fin 2), (prog (Fin 2) sampleLibs).lts.Reach c ∧
    c.sh.seen 0 = [0] ∧ c.sh.seen 1 = [1] ∧
    c.sh.said 0 = [response [104, 105]] ∧
    ∃ key frames, c.sh.written 1 = switchingProtocols sampleLibs key :: frames ∧
      frames.map some = c.sh.frames [1] := by
  obtain ⟨c, hc, hp⟩ := Lts.exists_reachIf (prog (Fin 2) sampleLibs).lts (fun _ _ => True)
    (join 0 ++ say 0 (fun _ => false) ++ join 1 ++ say 1 (fun i => i == 0))
    (fun c => c.sh.seen 0 == [0] && c.sh.seen 1 == [1] && (c.sh.added 1).isSome &&
      handleFrames emptyBuffer (c.sh.heard 0) == ([response [104, 105]], none) &&
        (c.pc 0).toSay == []) (by decide +kernel)
  simp only [Bool.and_eq_true, beq_iff_eq] at hp
  obtain ⟨⟨⟨⟨h₀, h₁⟩, hadded⟩, hheard⟩, hnone⟩ := hp
  obtain ⟨-, hsent, -, -, -, hsaid⟩ := broadcasts_ordered hc
  obtain ⟨key, frames, hw, hf⟩ := hsent 1 hadded
  have hfirst := hsaid 0 (by rw [hheard]; simp)
  rw [hheard, hnone, List.append_nil] at hfirst
  exact ⟨c, hc, h₀, h₁, hfirst, key, frames, hw, by rw [hf, h₁]⟩

end BackendTasks.WebSocketServer
