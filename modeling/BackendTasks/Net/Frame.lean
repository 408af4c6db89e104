import BackendTasks.Net.Bytes

/-!
# The frame format of RFC 6455

A frame is a byte with the fin bit and the opcode, a byte with the mask bit and the length
field, the extended length if the field says so, the masking key if the mask bit is set, and
the payload, masked. The forms with an extended length of 64 bits and with reserved
bits are left out.
-/

namespace BackendTasks.Net

/-- A frame with a payload of up to 65535 bytes. -/
structure Frame where
  fin : Bool
  opcode : Fin 16
  key : Option Key
  /-- The length is in the two bytes after the length field. -/
  extended : Bool
  payload : Bytes
  payload_le : payload.length ≤ 65535
  short : extended = false → payload.length < 126

namespace Frame

/-- The opcode of a text frame. -/
def text : Fin 16 := ⟨1, by decide⟩

/-- The fin bit and the opcode. -/
def finOpcode (f : Frame) : UInt8 := (if f.fin then 0x80 else 0) ||| UInt8.ofNat f.opcode

def lengthField (f : Frame) : ℕ := if f.extended then 126 else f.payload.length

/-- The mask bit and the length field. -/
def maskLength (f : Frame) : UInt8 :=
  (if f.key.isSome then 0x80 else 0) ||| UInt8.ofNat f.lengthField

def extension (f : Frame) : Bytes := if f.extended then be16 f.payload.length else []

/-- All but the first byte. -/
def rest (f : Frame) : Bytes :=
  f.maskLength :: (f.extension ++ (keyBytes f.key ++ mask f.key 0 f.payload))

def serialize (f : Frame) : Bytes := f.finOpcode :: f.rest

theorem lengthField_lt (f : Frame) : f.lengthField < 127 := by
  have hshort := f.short
  unfold lengthField
  split
  · omega
  · rename_i hext
    exact (hshort (by simpa using hext)).trans (by omega)

theorem lengthField_ne (f : Frame) (h : f.extended = false) : f.lengthField ≠ 126 := by
  have hshort := f.short h
  simp only [lengthField, h, Bool.false_eq_true, if_false]
  omega

/-! ## Reading the first two bytes -/

theorem fin_of_finOpcode (f : Frame) : decide (f.finOpcode &&& 0x80 ≠ 0) = f.fin := by
  have h : ∀ (fin : Bool) (opcode : Fin 16),
      decide (((if fin then 0x80 else 0) ||| UInt8.ofNat opcode) &&& 0x80 ≠ 0) = fin := by decide
  exact h f.fin f.opcode

theorem opcode_of_finOpcode (f : Frame) : f.finOpcode &&& 0x0F = UInt8.ofNat f.opcode := by
  have h : ∀ (fin : Bool) (opcode : Fin 16),
      ((if fin then 0x80 else 0) ||| UInt8.ofNat opcode) &&& 0x0F = UInt8.ofNat opcode := by decide
  exact h f.fin f.opcode

theorem lengthField_of_maskLength (f : Frame) : (f.maskLength &&& 0x7F).toNat = f.lengthField := by
  have h : ∀ (masked : Bool) (n : Fin 127),
      (((if masked then 0x80 else 0) ||| UInt8.ofNat n) &&& 0x7F).toNat = n := by decide
  exact h f.key.isSome ⟨f.lengthField, f.lengthField_lt⟩

theorem masked_of_maskLength (f : Frame) : decide (f.maskLength &&& 0x80 ≠ 0) = f.key.isSome := by
  have h : ∀ (masked : Bool) (n : Fin 127),
      decide (((if masked then 0x80 else 0) ||| UInt8.ofNat n) &&& 0x80 ≠ 0) = masked := by decide
  exact h f.key.isSome ⟨f.lengthField, f.lengthField_lt⟩

end Frame

/-- A byte is its highest bit and the other seven. -/
theorem high_or_low (b : UInt8) :
    (if b &&& 0x80 ≠ 0 then 0x80 else 0) ||| UInt8.ofNat (b &&& 0x7F).toNat = b := by
  have h : ∀ n : Fin 256, (if UInt8.ofNat n &&& 0x80 ≠ 0 then 0x80 else 0) |||
      UInt8.ofNat (UInt8.ofNat n &&& 0x7F).toNat = UInt8.ofNat n := by decide +kernel
  have hb := h ⟨b.toNat, b.toNat_lt⟩
  rwa [UInt8.ofNat_toNat] at hb

theorem low_lt (b : UInt8) : (b &&& 0x7F).toNat < 128 := by
  rw [UInt8.toNat_and]
  exact Nat.lt_of_le_of_lt Nat.and_le_right (by decide)

end BackendTasks.Net
