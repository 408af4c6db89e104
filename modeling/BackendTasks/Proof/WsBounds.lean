import BackendTasks.Proof.WsStream

/-!
# How far `decode_frame` reads

`decode_frame` asks for two bytes and then reads what the header declares, whether it was received
or not. It stays within the bytes received just when they begin with all of a frame, or when it
throws first (`readsWithin_iff`). Then what lies behind them does not matter; otherwise the
payload may be that of an earlier message (`stale_payload`).
-/

namespace BackendTasks.WebSocketServer

open Net

variable {read beyond : Bytes}

/-- `decode_frame(data, length)` reads no byte at an index from `length` on: it does not miss
them when the memory ends there. -/
def ReadsWithin (data : Bytes) (length : ℕ) : Prop :=
  decodeFrame (data.take length) length ≠ .error .outOfBounds

/-- The bytes begin with all of a frame, the first byte aside. -/
def HoldsFrame (read : Bytes) : Prop :=
  ∃ (f : Frame) (b : UInt8) (behind : Bytes), read = b :: (f.rest ++ behind)

/-- Within the bytes received `decode_frame` finds a frame, throws, or goes too far. -/
theorem decodeFrame_cases (read : Bytes) :
    decodeFrame read read.length = .error .outOfBounds ↔ ¬ (Refused read ∨ HoldsFrame read) := by
  have hrefused := refused_iff [] read
  have hfill : fill [] read = read := by simp [fill]
  rw [hfill] at hrefused
  constructor
  · rintro hbad (h | ⟨f, b, behind, rfl⟩)
    · obtain ⟨e, he, hne⟩ := hrefused.1 h
      rw [hbad] at he
      exact hne (Except.error.inj he).symm
    · rw [decodeFrame_frame f b behind (by simp [Frame.rest])] at hbad
      simp at hbad
  · intro h
    cases hdec : decodeFrame read read.length with
    | ok frame =>
      obtain ⟨-, f, b, behind, hdata, -⟩ := exists_frame hdec
      exact absurd (.inr ⟨f, b, behind, hdata⟩) h
    | error e =>
      by_contra hne
      have hne : e ≠ .outOfBounds := fun heq => hne (by rw [heq])
      exact h (.inl (hrefused.2 ⟨e, hdec, hne⟩))

/-- **When `decode_frame` stays within the bytes received**: when they are fewer than two, when their
length field is that of the 64-bit form, and when they begin with all of a frame. Then it makes
the same of them whatever lies behind. -/
theorem readsWithin_iff (read beyond : Bytes) :
    (ReadsWithin (read ++ beyond) read.length ↔ Refused read ∨ HoldsFrame read) ∧
      (ReadsWithin (read ++ beyond) read.length →
        decodeFrame (read ++ beyond) read.length = decodeFrame read read.length) := by
  unfold ReadsWithin
  rw [List.take_left]
  constructor
  · rw [ne_eq, decodeFrame_cases, not_not]
  · intro h
    exact (decodeFrame_append read beyond read.length).resolve_left h

/-- **A message from the buffer.** Two bytes that declare a payload of five are broadcast with
the payload of the message before. -/
theorem stale_payload :
    ¬ ReadsWithin (fill (fill emptyBuffer ([0x81, 0x05] ++ ascii "hello")) [0x81, 0x05]) 2 ∧
      handleFrames emptyBuffer [[0x81, 0x05] ++ ascii "hello", [0x81, 0x05]] =
        ([ascii "Server got: hello", ascii "Server got: hello"], none) := by
  constructor
  · unfold ReadsWithin
    decide
  · decide

end BackendTasks.WebSocketServer
