import BackendTasks.Spec.WebSocketServer
import BackendTasks.Net.Frame
import Mathlib.Tactic.FinCases

/-!
# `decode_frame` and `encode_frame`

`decode_frame` accepts just the bytes that begin with a frame of RFC 6455, the reserved
bits aside, and returns its payload (`decodeFrame_frame`, `exists_frame`).

* `decode_serialize`: so it inverts the frame format, in either length form.
* `decode_encode`: `encode_frame` writes the lower 16 bits of the length only, so it is
  inverted just for messages of less than 65536 bytes.
-/

namespace BackendTasks.WebSocketServer

open Net

variable {data : Bytes} {b : UInt8} {i n h h' length : ℕ} {key : Option Key} {frame : WSFrame}

theorem byteAt_ok : byteAt data i = .ok b ↔ data[i]? = some b := by
  unfold byteAt
  cases data[i]? <;> simp

/-- A byte that was read is the first of those from its place on. -/
theorem drop_of_byteAt (h : byteAt data i = .ok b) : data.drop i = b :: data.drop (i + 1) := by
  obtain ⟨hlt, rfl⟩ := List.getElem?_eq_some_iff.1 (byteAt_ok.1 h)
  exact List.drop_eq_getElem_cons hlt

theorem byteAt_of_drop {bs : Bytes} (h : data.drop i = b :: bs) : byteAt data i = .ok b := by
  rw [byteAt_ok, ← List.head?_drop, h]
  rfl

/-- The loop over the payload needs all of it to be there, and unmasks it. -/
theorem readPayload_eq (data : Bytes) (key : Option Key) (h i n : ℕ) :
    readPayload data key h i n =
      if n ≤ (data.drop (h + i)).length then .ok (mask key i ((data.drop (h + i)).take n))
      else .error .outOfBounds := by
  induction n generalizing i with
  | zero => simp [readPayload, mask]
  | succ n ih =>
    rw [readPayload, ih]
    cases hd : data.drop (h + i) with
    | nil =>
      have hnone : data[h + i]? = none := by rw [← List.head?_drop, hd]; rfl
      simp only [byteAt, hnone, List.length_nil]
      rfl
    | cons b bs =>
      have hnext : data.drop (h + (i + 1)) = bs := by
        rw [← Nat.add_assoc, ← List.drop_drop, hd]
        rfl
      rw [byteAt_of_drop hd, hnext]
      by_cases hn : n ≤ bs.length
      · rw [if_pos hn, if_pos (by simpa using hn), List.take_succ_cons, mask]
        rfl
      · rw [if_neg hn, if_neg (by simpa using hn)]
        rfl

/-! ## A frame is decoded -/

theorem readLength_frame (f : Frame) (b : UInt8) (behind : Bytes) :
    readLength (b :: (f.rest ++ behind)) f.maskLength = .ok (f.payload.length, 2 + f.extension.length) := by
  have hlt := f.lengthField_lt
  simp only [readLength, f.lengthField_of_maskLength]
  cases hext : f.extended with
  | true =>
    have hfield : f.lengthField = 126 := by simp [Frame.lengthField, hext]
    have hbytes : f.extension = be16 f.payload.length := by simp [Frame.extension, hext]
    have hle := f.payload_le
    rw [if_pos hfield, Frame.rest, hbytes, be16]
    simp only [byteAt, List.cons_append, List.getElem?_cons_succ, List.getElem?_cons_zero, bind,
      Except.bind, pure, Except.pure, List.length_cons, List.length_nil]
    rw [shiftLeft_or, ofBe16_ofNat, Nat.mod_eq_of_lt (by omega)]
  | false =>
    have hfield : f.lengthField = f.payload.length := by simp [Frame.lengthField, hext]
    have hbytes : f.extension = [] := by simp [Frame.extension, hext]
    have hne := f.lengthField_ne hext
    rw [if_neg hne, if_neg (by omega), hfield, hbytes]
    rfl

theorem readKey_frame (f : Frame) {behind : Bytes} (hd : data.drop h = keyBytes f.key ++ behind) :
    readKey data f.maskLength h = .ok (f.key, h + (keyBytes f.key).length) := by
  have hmasked := f.masked_of_maskLength
  cases hkey : f.key with
  | none =>
    rw [hkey, Option.isSome_none, decide_eq_false_iff_not] at hmasked
    rw [readKey, if_neg hmasked]
    rfl
  | some k =>
    rw [hkey, Option.isSome_some, decide_eq_true_iff] at hmasked
    rw [hkey] at hd
    have hbyte : ∀ (i : ℕ) {b : UInt8}, (keyBytes (some k) ++ behind)[i]? = some b →
        byteAt data (h + i) = .ok b := by
      intro i b hb
      rw [byteAt_ok, ← List.getElem?_drop, hd, hb]
    have h₀ : byteAt data h = .ok (k 0) := hbyte 0 rfl
    have h₁ : byteAt data (h + 1) = .ok (k 1) := hbyte 1 rfl
    have h₂ : byteAt data (h + 2) = .ok (k 2) := hbyte 2 rfl
    have h₃ : byteAt data (h + 3) = .ok (k 3) := hbyte 3 rfl
    have hk : (![k 0, k 1, k 2, k 3] : Key) = k := by
      funext j
      fin_cases j <;> rfl
    rw [readKey, if_pos hmasked, h₀, h₁, h₂, h₃]
    simp only [bind, Except.bind, pure, Except.pure, hk]
    rfl

/-- **What begins with a frame is decoded to its payload**, whatever comes behind. -/
theorem decodeFrame_frame (f : Frame) (b : UInt8) (behind : Bytes) (hlen : 2 ≤ length) :
    decodeFrame (b :: (f.rest ++ behind)) length =
      .ok ⟨b &&& 0x80 ≠ 0, b &&& 0x0F, f.payload⟩ := by
  have hlength := readLength_frame f b behind
  have hdrop : (b :: (f.rest ++ behind)).drop (2 + f.extension.length) =
      keyBytes f.key ++ (mask f.key 0 f.payload ++ behind) := by
    have hsplit : b :: (f.rest ++ behind) =
        ([b, f.maskLength] ++ f.extension) ++ (keyBytes f.key ++ (mask f.key 0 f.payload ++ behind)) := by
      simp [Frame.rest]
    rw [hsplit]
    exact List.drop_left' (by simp only [List.length_append, List.length_cons, List.length_nil])
  have hpayload : (b :: (f.rest ++ behind)).drop
      (2 + f.extension.length + (keyBytes f.key).length + 0) = mask f.key 0 f.payload ++ behind := by
    rw [Nat.add_zero, ← List.drop_drop, hdrop]
    exact List.drop_left
  have htake : (mask f.key 0 f.payload ++ behind).take f.payload.length = mask f.key 0 f.payload :=
    List.take_left' (length_mask ..)
  have hfits : f.payload.length ≤ (mask f.key 0 f.payload ++ behind).length := by simp
  have h₀ : byteAt (b :: (f.rest ++ behind)) 0 = .ok b := rfl
  have h₁ : byteAt (b :: (f.rest ++ behind)) 1 = .ok f.maskLength := rfl
  rw [decodeFrame, if_neg (Nat.not_lt.2 hlen), h₀, h₁]
  simp only [bind, Except.bind, hlength, readKey_frame f hdrop, readPayload_eq, hpayload, if_pos hfits,
    htake, mask_mask, pure, Except.pure]

/-! ## What is decoded is a frame -/

variable {maskLength : UInt8}

theorem readLength_ok (h : readLength data maskLength = .ok (length, n)) :
    ∃ extended : Bool, (maskLength &&& 0x7F).toNat = (if extended then 126 else length) ∧
      length ≤ 65535 ∧ (extended = false → length < 126) ∧
      data.drop 2 = (if extended then be16 length else []) ++ data.drop n := by
  unfold readLength at h
  dsimp only at h
  split at h
  · rename_i hfield
    obtain ⟨hi, hhi, h⟩ := bind_eq_ok.1 h
    obtain ⟨lo, hlo, h⟩ := bind_eq_ok.1 h
    cases h
    have hlt := ofBe16_lt hi lo
    rw [shiftLeft_or]
    refine ⟨true, hfield, by omega, nofun, ?_⟩
    rw [drop_of_byteAt hhi, drop_of_byteAt hlo, if_pos rfl, be16_ofBe16]
    rfl
  · rename_i hne
    split at h
    · simp at h
    · rename_i hne'
      cases h
      have hlt := low_lt maskLength
      exact ⟨false, rfl, by omega, fun _ => by omega, rfl⟩

theorem readKey_ok (hk : readKey data maskLength h = .ok (key, h')) :
    decide (maskLength &&& 0x80 ≠ 0) = key.isSome ∧ data.drop h = keyBytes key ++ data.drop h' := by
  unfold readKey at hk
  split at hk
  · rename_i hmasked
    obtain ⟨k₀, h₀, hk⟩ := bind_eq_ok.1 hk
    obtain ⟨k₁, h₁, hk⟩ := bind_eq_ok.1 hk
    obtain ⟨k₂, h₂, hk⟩ := bind_eq_ok.1 hk
    obtain ⟨k₃, h₃, hk⟩ := bind_eq_ok.1 hk
    cases hk
    refine ⟨decide_eq_true hmasked, ?_⟩
    rw [drop_of_byteAt h₀, drop_of_byteAt h₁, drop_of_byteAt h₂, drop_of_byteAt h₃]
    rfl
  · rename_i hunmasked
    cases hk
    exact ⟨decide_eq_false hunmasked, rfl⟩

/-- **What is decoded begins with a frame.** -/
theorem exists_frame (h : decodeFrame data length = .ok frame) :
    2 ≤ length ∧ ∃ (f : Frame) (b : UInt8) (behind : Bytes),
      data = b :: (f.rest ++ behind) ∧ frame.payload = f.payload := by
  unfold decodeFrame at h
  split at h
  · simp at h
  rename_i hlen
  refine ⟨Nat.not_lt.1 hlen, ?_⟩
  obtain ⟨b, hb, h⟩ := bind_eq_ok.1 h
  obtain ⟨m, hm, h⟩ := bind_eq_ok.1 h
  obtain ⟨⟨n, h₁⟩, hn, h⟩ := bind_eq_ok.1 h
  obtain ⟨⟨key, h₂⟩, hkey, h⟩ := bind_eq_ok.1 h
  obtain ⟨payload, hpayload, h⟩ := bind_eq_ok.1 h
  cases h
  obtain ⟨extended, hfield, hle, hshort, hext⟩ := readLength_ok hn
  obtain ⟨hmasked, hk⟩ := readKey_ok hkey
  rw [readPayload_eq] at hpayload
  split at hpayload
  · rename_i hfits
    rw [Nat.add_zero] at hfits hpayload
    have hbytes : mask key 0 payload = (data.drop h₂).take n := by
      rw [← Except.ok.inj hpayload, mask_mask]
    have hplen : payload.length = n := by
      rw [← length_mask key 0 payload, hbytes, List.length_take, Nat.min_eq_left hfits]
    subst hplen
    let f : Frame := ⟨true, 0, key, extended, payload, hle, hshort⟩
    have hfm : f.maskLength = m := by
      rw [← high_or_low m, Frame.maskLength, Frame.lengthField, hfield, ← hmasked]
      simp only [decide_eq_true_eq]
      rfl
    refine ⟨f, b, (data.drop h₂).drop payload.length, ?_, rfl⟩
    calc data = b :: m :: data.drop 2 := by
          rw [← drop_of_byteAt hm, ← List.drop_zero (l := data), drop_of_byteAt hb]
          rfl
      _ = b :: (f.rest ++ (data.drop h₂).drop payload.length) := by
          rw [hext, hk, Frame.rest, hfm, Frame.extension]
          simp only [f, hbytes, List.cons_append, List.append_assoc, List.take_append_drop]
  · simp at hpayload

/-- **`decode_frame` inverts the frame format.** -/
theorem decode_serialize (f : Frame) :
    decodeFrame f.serialize f.serialize.length = .ok ⟨f.fin, UInt8.ofNat f.opcode, f.payload⟩ := by
  have hlen : 2 ≤ f.serialize.length := by simp [Frame.serialize, Frame.rest]
  have h := decodeFrame_frame f f.finOpcode [] hlen
  rw [List.append_nil, f.fin_of_finOpcode, f.opcode_of_finOpcode] at h
  exact h

/-! ## `encode_frame` -/

/-- The payload length that a frame declares, and the size of the header before the payload
of a frame without masking key. -/
def declared (data : Bytes) : Except DecodeError (ℕ × ℕ) := byteAt data 1 >>= readLength data

/-- The frame that an encoded message begins with. -/
def encoded (msg : Bytes) : Frame where
  fin := true
  opcode := Frame.text
  key := none
  extended := decide (126 ≤ msg.length)
  payload := msg.take (msg.length % 65536)
  payload_le := by rw [List.length_take]; omega
  short h := by
    have hshort := of_decide_eq_false h
    rw [List.length_take]
    omega

theorem length_encoded (msg : Bytes) : (encoded msg).payload.length = msg.length % 65536 := by
  rw [encoded, List.length_take, Nat.min_eq_left (Nat.mod_le _ _)]

theorem encodeFrame_eq (msg : Bytes) :
    encodeFrame msg = 0x81 :: ((encoded msg).rest ++ msg.drop (msg.length % 65536)) := by
  have hlen := length_encoded msg
  have hsplit : (encoded msg).payload ++ msg.drop (msg.length % 65536) = msg := List.take_append_drop ..
  have hkey : (encoded msg).key = none := rfl
  have hheader : (encoded msg).maskLength :: (encoded msg).extension =
      if msg.length < 126 then [UInt8.ofNat msg.length]
      else [126, UInt8.ofNat (msg.length >>> 8 &&& 0xFF), UInt8.ofNat (msg.length &&& 0xFF)] := by
    rw [Frame.maskLength, Frame.lengthField, Frame.extension, hlen, hkey, be16_and]
    by_cases hshort : msg.length < 126
    · have hext : (encoded msg).extended = false := decide_eq_false (by omega)
      have hmod : msg.length % 65536 = msg.length := by omega
      simp [hext, hshort, hmod]
    · have hext : (encoded msg).extended = true := decide_eq_true (by omega)
      simp [hext, hshort]
  calc encodeFrame msg = 0x81 :: ((encoded msg).maskLength :: (encoded msg).extension ++
        ((encoded msg).payload ++ msg.drop (msg.length % 65536))) := by
        rw [hsplit, hheader, encodeFrame, List.cons_append]
    _ = 0x81 :: ((encoded msg).rest ++ msg.drop (msg.length % 65536)) := by
        rw [Frame.rest, hkey, mask_none]
        simp [keyBytes]

/-- What is encoded comes back cut to the lower 16 bits of its length. -/
theorem decodeFrame_encodeFrame (msg : Bytes) :
    decodeFrame (encodeFrame msg) (encodeFrame msg).length =
      .ok ⟨true, 1, msg.take (msg.length % 65536)⟩ := by
  have hlen : 2 ≤ (encodeFrame msg).length := by simp [encodeFrame_eq, Frame.rest]
  generalize (encodeFrame msg).length = n at hlen ⊢
  rw [encodeFrame_eq, decodeFrame_frame _ _ _ hlen]
  rfl

theorem declared_encodeFrame (msg behind : Bytes) :
    declared (encodeFrame msg ++ behind) =
      .ok (msg.length % 65536, 2 + (encoded msg).extension.length) := by
  have hlen := length_encoded msg
  rw [encodeFrame_eq, List.cons_append, List.append_assoc, ← hlen]
  exact readLength_frame ..

theorem length_encodeFrame (msg : Bytes) :
    (encodeFrame msg).length = 2 + (encoded msg).extension.length + msg.length := by
  have hkey : (encoded msg).key = none := rfl
  have hlen := length_encoded msg
  have hle := Nat.mod_le msg.length 65536
  rw [encodeFrame_eq, Frame.rest, hkey, mask_none]
  simp only [List.length_cons, List.length_append, List.length_drop, keyBytes, List.length_nil, hlen]
  omega

/-- **When `decode_frame` inverts `encode_frame`**: just for messages shorter than 65536 bytes.
Just then, too, the declared length is that of the bytes that follow, so that what is sent behind
the frame is taken for what it is. -/
theorem decode_encode (msg : Bytes) :
    (decodeFrame (encodeFrame msg) (encodeFrame msg).length = .ok ⟨true, 1, msg⟩ ↔
      msg.length < 65536) ∧
    ∀ behind, (∃ n h, declared (encodeFrame msg ++ behind) = .ok (n, h) ∧
      (encodeFrame msg ++ behind).drop (h + n) = behind) ↔ msg.length < 65536 := by
  constructor
  · rw [decodeFrame_encodeFrame, Except.ok.injEq, WSFrame.mk.injEq, List.take_eq_self_iff]
    simp only [true_and]
    omega
  · intro behind
    rw [declared_encodeFrame]
    have hlen := length_encodeFrame msg
    constructor
    · rintro ⟨n, h, heq, hdrop⟩
      obtain ⟨rfl, rfl⟩ := Prod.mk.inj (Except.ok.inj heq)
      have hcount := congrArg List.length hdrop
      rw [List.length_drop, List.length_append, hlen] at hcount
      omega
    · intro hlt
      refine ⟨_, _, rfl, List.drop_left' ?_⟩
      rw [hlen, Nat.mod_eq_of_lt hlt]

/-- **A message that does not come back.** The frame of a message of 65536 bytes declares a
payload of 0 bytes. -/
theorem long_message_lost : ∃ msg : Bytes, msg.length = 65536 ∧
    decodeFrame (encodeFrame msg) (encodeFrame msg).length = .ok ⟨true, 1, []⟩ ∧
    decodeFrame (encodeFrame msg) (encodeFrame msg).length ≠ .ok ⟨true, 1, msg⟩ := by
  have hlen : (List.replicate 65536 (0x61 : UInt8)).length = 65536 := List.length_replicate
  refine ⟨List.replicate 65536 0x61, hlen, ?_, ?_⟩
  · rw [decodeFrame_encodeFrame, hlen, Nat.mod_self, List.take_zero]
  · rw [decodeFrame_encodeFrame, hlen, Nat.mod_self, List.take_zero]
    intro heq
    have hnil := (WSFrame.mk.inj (Except.ok.inj heq)).2.2
    have hzero := congrArg List.length hnil
    rw [hlen] at hzero
    cases hzero

end BackendTasks.WebSocketServer
