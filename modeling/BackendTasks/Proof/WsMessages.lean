import BackendTasks.Proof.WsStream
import BackendTasks.Net.Message

/-!
# Frames and messages

`handle_frames` decodes `fin` and `opcode` and looks at neither: every frame is broadcast with its
own payload (`handleFrames_serialize`). That is one broadcast for each message just when each
frame is a message (`broadcastsMessages_iff`).
-/

namespace BackendTasks.WebSocketServer

open Net

variable {frames : List Frame} {messages : List Bytes}

/-- When each read gives one of the frames, `handle_frames` broadcasts each message once, nothing
else, and reads nothing after a close frame. -/
structure BroadcastsMessages (frames : List Frame) (messages : List Bytes) : Prop where
  each : handleFrames emptyBuffer (frames.map Frame.serialize) = (messages.map response, none)
  stops : ∀ f ∈ frames, f.opcode = Frame.close → ∀ reads,
    handleFrames emptyBuffer (frames.map Frame.serialize ++ reads) =
      handleFrames emptyBuffer (frames.map Frame.serialize)

/-- **Every frame is broadcast.** -/
theorem handleFrames_serialize (data : Bytes) (frames : List Frame) :
    handleFrames data (frames.map Frame.serialize) =
      (frames.map fun f => response f.payload, none) := by
  induction frames generalizing data with
  | nil => rfl
  | cons f frames ih =>
    have hlen : 2 ≤ f.serialize.length := by simp [Frame.serialize, Frame.rest]
    have hdec := decodeFrame_frame f f.finOpcode (data.drop f.serialize.length) hlen
    have hfill : fill data f.serialize = f.finOpcode :: (f.rest ++ data.drop f.serialize.length) := rfl
    rw [List.map_cons, handleFrames, hfill, hdec]
    simp only [ih, List.map_cons]

/-- **When the messages are broadcast**: when each frame is a message, so none is divided and none
is a control frame. -/
theorem broadcastsMessages_iff (h : Conversation none frames messages) :
    BroadcastsMessages frames messages ↔ ∀ f ∈ frames, f.whole = true := by
  constructor
  · intro hb
    have heach := hb.each
    rw [handleFrames_serialize] at heach
    have hlen := congrArg List.length (Prod.mk.inj heach).1
    rw [List.length_map, List.length_map] at hlen
    exact h.all_whole hlen.symm
  · intro hwhole
    refine ⟨?_, fun f hf hclose => ?_⟩
    · rw [handleFrames_serialize, h.messages_eq hwhole, List.map_map]
      rfl
    · have hcontrol : f.control = true := by
        unfold Frame.control
        rw [hclose]
        rfl
      have hwhole := hwhole f hf
      simp [Frame.whole, hcontrol] at hwhole

theorem broadcastsMessages_text : BroadcastsMessages [textFrame 104 105] [[104, 105]] := by
  have h : Conversation none [textFrame 104 105] [[104, 105]] :=
    .single (.inl rfl) rfl (.nil none)
  exact (broadcastsMessages_iff h).2 (List.forall_mem_singleton.2 rfl)

/-- A masked ping frame without payload. -/
def pingFrame : Frame where
  fin := true
  opcode := Frame.ping
  key := some fun i => UInt8.ofNat i.val.succ
  extended := false
  payload := []
  payload_le := Nat.zero_le _
  short _ := Nat.zero_lt_succ _

/-- **A control frame that is broadcast.** -/
theorem ping_broadcast : ∃ frames messages, Conversation none frames messages ∧
    ¬ BroadcastsMessages frames messages ∧
    handleFrames emptyBuffer (frames.map Frame.serialize) = ([ascii "Server got: "], none) := by
  refine ⟨[pingFrame], [], .control (.inl ⟨rfl, rfl, Nat.zero_le _⟩) (.nil none), fun hb => ?_, by decide⟩
  have heach := hb.each
  rw [handleFrames_serialize] at heach
  simp at heach

end BackendTasks.WebSocketServer
