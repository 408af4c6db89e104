import Mathlib.Data.Nat.Notation
import Mathlib.Data.List.OfFn

/-!
# Bytes on the wire

Byte strings, numbers of 16 bits in network order (`be16`), and the cyclic masking of a
byte string with a key of four bytes (`mask`), which undoes itself (`mask_mask`).
-/

namespace BackendTasks.Net

abbrev Bytes := List UInt8

/-- The bytes of an ASCII text. -/
def ascii (s : String) : Bytes := s.toList.map fun c => UInt8.ofNat c.toNat

/-! ## Numbers of 16 bits -/

/-- The higher byte, then the lower one. -/
def be16 (n : ℕ) : Bytes := [UInt8.ofNat (n / 256), UInt8.ofNat (n % 256)]

/-- The number with these bytes. -/
def ofBe16 (hi lo : UInt8) : ℕ := hi.toNat * 256 + lo.toNat

theorem ofBe16_lt (hi lo : UInt8) : ofBe16 hi lo < 65536 := by
  have h₁ := hi.toNat_lt
  have h₂ := lo.toNat_lt
  unfold ofBe16
  omega

theorem ofBe16_ofNat (n : ℕ) :
    ofBe16 (UInt8.ofNat (n / 256)) (UInt8.ofNat (n % 256)) = n % 65536 := by
  simp only [ofBe16, UInt8.toNat_ofNat']
  omega

theorem be16_ofBe16 (hi lo : UInt8) : be16 (ofBe16 hi lo) = [hi, lo] := by
  have h₁ := hi.toNat_lt
  have h₂ := lo.toNat_lt
  have hdiv : ofBe16 hi lo / 256 = hi.toNat := by unfold ofBe16; omega
  have hmod : ofBe16 hi lo % 256 = lo.toNat := by unfold ofBe16; omega
  rw [be16, hdiv, hmod, UInt8.ofNat_toNat, UInt8.ofNat_toNat]

/-- Shifting the higher byte and joining the lower one. -/
theorem shiftLeft_or (hi lo : UInt8) : hi.toNat <<< 8 ||| lo.toNat = ofBe16 hi lo := by
  have h := lo.toNat_lt
  rw [← Nat.shiftLeft_add_eq_or_of_lt (i := 8) h, Nat.shiftLeft_eq]
  rfl

/-- Keeping the lower 8 bits of the higher and of the lower byte keeps the lower 16 bits. -/
theorem be16_and (n : ℕ) :
    [UInt8.ofNat (n >>> 8 &&& 0xFF), UInt8.ofNat (n &&& 0xFF)] = be16 (n % 65536) := by
  have hand : ∀ m : ℕ, m &&& 0xFF = m % 256 := fun m => Nat.and_two_pow_sub_one_eq_mod m 8
  have hhi : n / 2 ^ 8 % 256 = n % 65536 / 256 := by omega
  have hlo : n % 256 = n % 65536 % 256 := by omega
  rw [be16, hand, hand, Nat.shiftRight_eq_div_pow, hhi, hlo]

/-! ## Masking -/

/-- A masking key. -/
abbrev Key := Fin 4 → UInt8

/-- The bytes of the key, if there is one. -/
def keyBytes : Option Key → Bytes
  | some k => [k 0, k 1, k 2, k 3]
  | none => []

/-- The byte at position `i`, combined with the byte of the key whose turn it is. -/
def maskByte : Option Key → ℕ → UInt8 → UInt8
  | some k, i, b => b ^^^ k (Fin.ofNat 4 i)
  | none, _, b => b

/-- The bytes from position `i` on, masked. -/
def mask (key : Option Key) : ℕ → Bytes → Bytes
  | _, [] => []
  | i, b :: bs => maskByte key i b :: mask key (i + 1) bs

theorem maskByte_maskByte (key : Option Key) (i : ℕ) (b : UInt8) :
    maskByte key i (maskByte key i b) = b := by
  cases key with
  | none => rfl
  | some k => simp only [maskByte, UInt8.xor_assoc, UInt8.xor_self, UInt8.xor_zero]

/-- **Masking twice gives the bytes back.** -/
theorem mask_mask (key : Option Key) (i : ℕ) (bs : Bytes) : mask key i (mask key i bs) = bs := by
  induction bs generalizing i with
  | nil => rfl
  | cons b bs ih => rw [mask, mask, ih, maskByte_maskByte]

theorem mask_none (i : ℕ) (bs : Bytes) : mask none i bs = bs := by
  induction bs generalizing i with
  | nil => rfl
  | cons b bs ih => rw [mask, ih, maskByte]

@[simp] theorem length_mask (key : Option Key) (i : ℕ) (bs : Bytes) :
    (mask key i bs).length = bs.length := by
  induction bs generalizing i with
  | nil => rfl
  | cons b bs ih => rw [mask, List.length_cons, ih, List.length_cons]

/-! ## Computations that may fail -/

theorem bind_eq_ok {ε : Type*} {α β : Type} {x : Except ε α} {f : α → Except ε β} {b : β} :
    (x >>= f) = .ok b ↔ ∃ a, x = .ok a ∧ f a = .ok b := by
  cases x with
  | error e => simp [bind, Except.bind]
  | ok a => simp [bind, Except.bind]

theorem bind_eq_error {ε : Type*} {α β : Type} {x : Except ε α} {f : α → Except ε β} {e : ε} :
    (x >>= f) = .error e ↔ x = .error e ∨ ∃ a, x = .ok a ∧ f a = .error e := by
  cases x with
  | error e => simp [bind, Except.bind]
  | ok a => simp [bind, Except.bind]

end BackendTasks.Net
