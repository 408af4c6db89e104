import BackendTasks.Net.Frame

/-!
# The messages of RFC 6455

A data message is one text or binary frame with the fin bit, or a frame without it and
continuation frames, the last with the fin bit. Ping and pong frames come between any
of them, a close frame is the last of all (`Conversation`).

Every complete message has a frame with the fin bit that is no control frame, so there are as
many messages as frames just when no message is divided and no control frame is among them
(`Conversation.all_whole`).
-/

namespace BackendTasks.Net

namespace Frame

def continuation : Fin 16 := ⟨0, by decide⟩

def binary : Fin 16 := ⟨2, by decide⟩

def close : Fin 16 := ⟨8, by decide⟩

def ping : Fin 16 := ⟨9, by decide⟩

def pong : Fin 16 := ⟨10, by decide⟩

/-- Control frames have an opcode from 8 on. -/
def control (f : Frame) : Bool := 8 ≤ f.opcode.val

/-- A control frame that may be sent. -/
structure Control (f : Frame) (opcode : Fin 16) : Prop where
  opcode : f.opcode = opcode
  fin : f.fin = true
  short : f.payload.length ≤ 125

/-- A message of its own. -/
def whole (f : Frame) : Bool := f.fin && !f.control

end Frame

/-- The frames may follow when `part` of a message has come, and complete these messages. -/
inductive Conversation : Option Bytes → List Frame → List Bytes → Prop
  | nil (part : Option Bytes) : Conversation part [] []
  | single {f : Frame} {frames : List Frame} {messages : List Bytes}
    (hop : f.opcode = Frame.text ∨ f.opcode = Frame.binary) (hfin : f.fin = true)
    (h : Conversation none frames messages) : Conversation none (f :: frames) (f.payload :: messages)
  | first {f : Frame} {frames : List Frame} {messages : List Bytes}
    (hop : f.opcode = Frame.text ∨ f.opcode = Frame.binary) (hfin : f.fin = false)
    (h : Conversation (some f.payload) frames messages) : Conversation none (f :: frames) messages
  | middle {part : Bytes} {f : Frame} {frames : List Frame} {messages : List Bytes}
    (hop : f.opcode = Frame.continuation) (hfin : f.fin = false)
    (h : Conversation (some (part ++ f.payload)) frames messages) :
    Conversation (some part) (f :: frames) messages
  | last {part : Bytes} {f : Frame} {frames : List Frame} {messages : List Bytes}
    (hop : f.opcode = Frame.continuation) (hfin : f.fin = true) (h : Conversation none frames messages) :
    Conversation (some part) (f :: frames) ((part ++ f.payload) :: messages)
  | control {part : Option Bytes} {f : Frame} {frames : List Frame} {messages : List Bytes}
    (hf : f.Control Frame.ping ∨ f.Control Frame.pong) (h : Conversation part frames messages) :
    Conversation part (f :: frames) messages
  | close {part : Option Bytes} {f : Frame} (hf : f.Control Frame.close) : Conversation part [f] []

namespace Conversation

variable {part : Option Bytes} {frames : List Frame} {messages : List Bytes} {f : Frame}

theorem control_false (h : f.opcode = Frame.text ∨ f.opcode = Frame.binary ∨ f.opcode = Frame.continuation) :
    f.control = false := by
  unfold Frame.control
  rcases h with h | h | h <;> rw [h] <;> rfl

theorem control_true {opcode : Fin 16} (h : f.Control opcode) (hop : 8 ≤ opcode.val) :
    f.control = true := by
  unfold Frame.control
  rw [h.opcode]
  simpa using hop

/-- Each message takes a frame of its own. -/
theorem length_le (h : Conversation part frames messages) :
    messages.length ≤ (frames.filter Frame.whole).length := by
  induction h with
  | nil part => simp
  | close hf => simp
  | @single f frames messages hop hfin h ih =>
    have hwhole : f.whole = true := by
      rw [Frame.whole, hfin, control_false (by tauto)]
      rfl
    rw [List.filter_cons_of_pos hwhole]
    exact Nat.succ_le_succ ih
  | @last part f frames messages hop hfin h ih =>
    have hwhole : f.whole = true := by
      rw [Frame.whole, hfin, control_false (by tauto)]
      rfl
    rw [List.filter_cons_of_pos hwhole]
    exact Nat.succ_le_succ ih
  | first hop hfin h ih => exact ih.trans ((List.sublist_cons_self _ _).filter _).length_le
  | middle hop hfin h ih => exact ih.trans ((List.sublist_cons_self _ _).filter _).length_le
  | control hf h ih => exact ih.trans ((List.sublist_cons_self _ _).filter _).length_le

/-- As many messages as frames: each frame is a message. -/
theorem all_whole (h : Conversation part frames messages) (hlen : messages.length = frames.length) :
    ∀ f ∈ frames, f.whole = true := by
  have hle := h.length_le
  have hge := List.length_filter_le Frame.whole frames
  have heq : (frames.filter Frame.whole).length = frames.length := by omega
  exact List.length_filter_eq_length_iff.1 heq

/-- Frames that are messages each. -/
theorem messages_eq (h : Conversation none frames messages) (hwhole : ∀ f ∈ frames, f.whole = true) :
    messages = frames.map Frame.payload := by
  generalize hpart : none = part at h
  induction h with
  | nil part => rfl
  | single hop hfin h ih =>
    rw [List.map_cons, ih (fun f hf => hwhole f (List.mem_cons_of_mem _ hf)) rfl]
  | first hop hfin h ih =>
    have := hwhole _ List.mem_cons_self
    simp [Frame.whole, hfin] at this
  | middle => cases hpart
  | last => cases hpart
  | control hf h ih =>
    have hcontrol := hf.elim (control_true · (by decide)) (control_true · (by decide))
    have := hwhole _ List.mem_cons_self
    simp [Frame.whole, hcontrol] at this
  | close hf =>
    have hcontrol := control_true hf (by decide)
    have := hwhole _ List.mem_cons_self
    simp [Frame.whole, hcontrol] at this

end Conversation

end BackendTasks.Net
