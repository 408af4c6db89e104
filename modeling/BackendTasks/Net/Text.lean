import BackendTasks.Net.Bytes
import Mathlib.Data.List.Basic
import Mathlib.Data.List.TakeWhile

/-!
# Texts read as a stream

What `std::istringstream`, `std::getline`, `operator>>` and `std::stoul` do with a text, in
the classic locale. A stream is the text not read yet: `getline`, `>>` and `read`
fail, or read less, just when it ends.
-/

namespace BackendTasks.Net

/-- `std::isspace`. -/
def isSpace (b : UInt8) : Bool := b == 32 || (9 ≤ b && b ≤ 13)

/-- `std::isdigit`. -/
def isDigit (b : UInt8) : Bool := 48 ≤ b && b ≤ 57

/-! ## C strings -/

/-- The bytes up to the first NUL, what a C string of these bytes is. -/
def cstr (bytes : Bytes) : Bytes := bytes.takeWhile (· != 0)

theorem cstr_eq_self {bytes : Bytes} : cstr bytes = bytes ↔ 0 ∉ bytes := by
  unfold cstr
  rw [List.takeWhile_eq_self_iff]
  constructor
  · intro h hmem
    simpa using h 0 hmem
  · intro h b hb
    rw [bne_iff_ne]
    rintro rfl
    exact h hb

theorem cstr_cstr (bytes : Bytes) : cstr (cstr bytes) = cstr bytes := by
  rw [cstr_eq_self]
  intro hmem
  simpa using List.mem_takeWhile_imp hmem

/-! ## getline -/

/-- What successive calls of `getline` give: each line, and the text behind it. -/
def getlines : Bytes → List (Bytes × Bytes)
  | [] => []
  | b :: bs =>
    if b = 10 then ([], bs) :: getlines bs
    else match getlines bs with
      | [] => [([b], [])]
      | (line, behind) :: more => (b :: line, behind) :: more

theorem getlines_line {line : Bytes} (h : 10 ∉ line) (behind : Bytes) :
    getlines (line ++ 10 :: behind) = (line, behind) :: getlines behind := by
  induction line with
  | nil => rfl
  | cons b line ih =>
    rw [List.mem_cons, not_or] at h
    rw [List.cons_append, getlines, if_neg (Ne.symm h.1), ih h.2]

/-- The last line may have no end. -/
theorem getlines_last {line : Bytes} (h : 10 ∉ line) (hne : line ≠ []) : getlines line = [(line, [])] := by
  induction line with
  | nil => exact absurd rfl hne
  | cons b line ih =>
    rw [List.mem_cons, not_or] at h
    rw [getlines, if_neg (Ne.symm h.1)]
    cases line with
    | nil => rfl
    | cons c line => rw [ih h.2 (List.cons_ne_nil _ _)]

theorem exists_line {text : Bytes} (hne : text ≠ []) :
    ∃ line behind, getlines text = (line, behind) :: getlines behind ∧
      (text = line ++ 10 :: behind ∨ text = line ∧ behind = []) := by
  by_cases h : 10 ∈ text
  · obtain ⟨line, behind, htext, hline⟩ := List.eq_append_cons_of_mem h
    exact ⟨line, behind, by rw [htext, getlines_line hline], .inl htext⟩
  · exact ⟨text, [], getlines_last h hne, .inr ⟨rfl, rfl⟩⟩

/-- Where a line is in the text. -/
theorem mem_getlines {text : Bytes} {entry : Bytes × Bytes} (h : entry ∈ getlines text) :
    ∃ front, text = front ++ (entry.1 ++ 10 :: entry.2) ∨ text = front ++ entry.1 ∧ entry.2 = [] := by
  induction hn : text.length using Nat.strong_induction_on generalizing text with
  | _ n ih =>
    by_cases hne : text = []
    · rw [hne, getlines] at h
      simp at h
    obtain ⟨line, behind, hlines, htext⟩ := exists_line hne
    rw [hlines] at h
    rcases List.mem_cons.1 h with rfl | h
    · exact ⟨[], htext⟩
    rcases htext with htext | ⟨-, hbehind⟩
    · have hlt : behind.length < n := by
        rw [← hn, htext, List.length_append, List.length_cons]
        omega
      obtain ⟨front, hfront⟩ := ih _ hlt h rfl
      refine ⟨line ++ 10 :: front, ?_⟩
      rw [htext, List.append_assoc, List.append_assoc, List.cons_append, List.cons_append]
      exact hfront.imp (fun hf => by rw [← hf]) fun hf => ⟨by rw [← hf.1], hf.2⟩
    · rw [hbehind, getlines] at h
      simp at h

/-- A line that is not the first begins behind the end of another one. -/
theorem mem_tail_getlines {text : Bytes} {entry : Bytes × Bytes} (h : entry ∈ (getlines text).tail) :
    10 :: entry.1 <:+: text := by
  induction hn : text.length using Nat.strong_induction_on generalizing text with
  | _ n ih =>
    by_cases hne : text = []
    · rw [hne, getlines] at h
      simp at h
    obtain ⟨line, behind, hlines, htext⟩ := exists_line hne
    rw [hlines, List.tail_cons] at h
    have hbehind : behind ≠ [] := by
      rintro rfl
      simp [getlines] at h
    obtain rfl := htext.resolve_right fun hlast => hbehind hlast.2
    obtain ⟨first, behind', hlines', htext'⟩ := exists_line hbehind
    rw [hlines'] at h
    rcases List.mem_cons.1 h with rfl | h
    · rcases htext' with rfl | ⟨rfl, -⟩
      · exact ⟨line, 10 :: behind', by simp⟩
      · exact ⟨line, [], by simp⟩
    · have hlt : behind.length < n := by
        rw [← hn, List.length_append, List.length_cons]
        omega
      have hmem : entry ∈ (getlines behind).tail := by
        rw [hlines']
        exact h
      exact (ih _ hlt hmem rfl).trans ⟨line ++ [10], [], by simp⟩

/-- A text without a line end that stands in the text stands in one of its lines. -/
theorem infix_iff_line {part text : Bytes} (hne : part ≠ []) (hpart : 10 ∉ part) :
    part <:+: text ↔ ∃ line ∈ (getlines text).map Prod.fst, part <:+: line := by
  induction hn : text.length using Nat.strong_induction_on generalizing text with
  | _ n ih =>
    by_cases htext : text = []
    · simp [htext, getlines, hne]
    obtain ⟨line, behind, hlines, rfl | ⟨rfl, rfl⟩⟩ := exists_line htext
    · have hlt : behind.length < n := by
        rw [← hn, List.length_append, List.length_cons]
        omega
      have hbehind : part <:+: 10 :: behind ↔ part <:+: behind := by
        rw [List.infix_cons_iff, or_iff_right]
        intro hbegins
        obtain ⟨b, part, rfl⟩ := List.exists_cons_of_ne_nil hne
        obtain ⟨rfl, -⟩ := List.cons_prefix_cons.1 hbegins
        exact hpart List.mem_cons_self
      -- a part that lies across the end of the line would have the line end
      have hsplit : part <:+: line ++ 10 :: behind ↔ part <:+: line ∨ part <:+: behind := by
        rw [List.infix_append_iff_ne_nil, hbehind]
        constructor
        · rintro (hline | hmore | ⟨front, back, -, hback, rfl, -, hbegins⟩)
          · exact .inl hline
          · exact .inr hmore
          · obtain ⟨b, back, rfl⟩ := List.exists_cons_of_ne_nil hback
            obtain ⟨rfl, -⟩ := List.cons_prefix_cons.1 hbegins
            exact absurd (List.mem_append_right _ List.mem_cons_self) hpart
        · exact fun h => h.imp_right .inl
      rw [hsplit, hlines, List.map_cons, List.exists_mem_cons_iff, ih _ hlt rfl]
    · rw [hlines, List.map_cons, List.exists_mem_cons_iff]
      simp [getlines]

/-- The beginning of a text ends in its first line, or has it. -/
theorem split_line {b : UInt8} {read rest line behind : Bytes} (h : read ++ rest = line ++ b :: behind) :
    (∃ more, line = read ++ more ∧ rest = more ++ b :: behind) ∨
      ∃ read', read = line ++ b :: read' ∧ behind = read' ++ rest := by
  rcases List.append_eq_append_iff.1 h with ⟨more, hline, hrest⟩ | ⟨more, hread, hbehind⟩
  · exact .inl ⟨more, hline, hrest⟩
  · cases more with
    | nil => exact .inl ⟨[], by simpa using hread.symm, hbehind.symm⟩
    | cons c more =>
      obtain ⟨rfl, rfl⟩ := List.cons.inj hbehind
      exact .inr ⟨more, hread, rfl⟩

/-- The first line of a part of a text is in the first line of the text, or is it. -/
theorem first_line {read rest line behind whole more : Bytes}
    (hlines : getlines read = (line, behind) :: getlines behind) (hwhole : 10 ∉ whole)
    (h : read ++ rest = whole ++ 10 :: more) :
    (∃ missing, whole = line ++ missing ∧ behind = []) ∨ line = whole ∧ more = behind ++ rest := by
  rcases split_line h with ⟨missing, hread, -⟩ | ⟨read', rfl, hmore⟩
  · have hnot : 10 ∉ read := fun hmem => hwhole (hread ▸ List.mem_append_left _ hmem)
    have hne : read ≠ [] := by
      rintro rfl
      simp [getlines] at hlines
    rw [getlines_last hnot hne] at hlines
    obtain ⟨rfl, rfl⟩ := Prod.mk.inj (List.cons.inj hlines).1
    exact .inl ⟨missing, hread, rfl⟩
  · rw [getlines_line hwhole] at hlines
    obtain ⟨rfl, rfl⟩ := Prod.mk.inj (List.cons.inj hlines).1
    exact .inr ⟨rfl, hmore⟩

theorem first_line_within {read rest line behind whole more : Bytes}
    (hlines : getlines read = (line, behind) :: getlines behind) (hwhole : 10 ∉ whole)
    (h : read ++ rest = whole ++ 10 :: more) : line <+: whole := by
  rcases first_line hlines hwhole h with ⟨missing, hline, -⟩ | ⟨rfl, -⟩
  · exact ⟨missing, hline.symm⟩
  · exact List.prefix_rfl

/-- Where the first `b` divides a text. -/
theorem divide {b : UInt8} {front : Bytes} (h : b ∉ front) (behind : Bytes) :
    (front ++ b :: behind).takeWhile (· != b) = front ∧
      (front ++ b :: behind).dropWhile (· != b) = b :: behind := by
  have hall : ∀ c ∈ front, (c != b) = true := by
    intro c hc
    rw [bne_iff_ne]
    rintro rfl
    exact h hc
  rw [List.takeWhile_append_of_pos hall, List.dropWhile_append_of_pos hall,
    List.takeWhile_cons_of_neg (by simp), List.dropWhile_cons_of_neg (by simp), List.append_nil]
  exact ⟨rfl, rfl⟩

theorem divide_unique {b : UInt8} {front front' behind behind' : Bytes} (h : b ∉ front) (h' : b ∉ front')
    (heq : front ++ b :: behind = front' ++ b :: behind') : front = front' ∧ behind = behind' := by
  obtain ⟨hfront, hbehind⟩ := divide h behind
  obtain ⟨hfront', hbehind'⟩ := divide h' behind'
  rw [heq] at hfront hbehind
  exact ⟨hfront.symm.trans hfront', (List.cons.inj (hbehind.symm.trans hbehind')).2⟩

/-- What holds of both parts, however the text is divided at its first `b`. -/
theorem forall_divided {b : UInt8} {front behind : Bytes} {P : Bytes → Bytes → Prop} (h : b ∉ front) :
    (∀ front' behind', front ++ b :: behind = front' ++ b :: behind' → b ∉ front' → P front' behind') ↔
      P front behind := by
  constructor
  · exact fun hall => hall front behind rfl h
  · intro hP front' behind' heq h'
    obtain ⟨rfl, rfl⟩ := divide_unique h h' heq
    exact hP

/-! ## Words -/

/-- `stream >> word`: the next word, and the text behind it. -/
def readWord (text : Bytes) : Bytes × Bytes :=
  let text := text.dropWhile isSpace
  (text.takeWhile (!isSpace ·), text.dropWhile (!isSpace ·))

/-- A word, after white space and before some more. -/
theorem readWord_word {space word : Bytes} {b : UInt8} (hspace : ∀ c ∈ space, isSpace c = true)
    (hword : ∀ c ∈ word, isSpace c = false) (hne : word ≠ []) (hb : isSpace b = true) (behind : Bytes) :
    readWord (space ++ word ++ b :: behind) = (word, b :: behind) := by
  obtain ⟨c, word, rfl⟩ := List.exists_cons_of_ne_nil hne
  have hc : isSpace c = false := hword c List.mem_cons_self
  have hskip : (space ++ (c :: word) ++ b :: behind).dropWhile isSpace = (c :: word) ++ b :: behind := by
    rw [List.append_assoc, List.dropWhile_append_of_pos hspace, List.cons_append,
      List.dropWhile_cons_of_neg (by simp [hc])]
  have hall : ∀ d ∈ c :: word, (!isSpace d) = true := by
    intro d hd
    rw [hword d hd]
    rfl
  simp only [readWord, hskip]
  rw [List.takeWhile_append_of_pos hall, List.dropWhile_append_of_pos hall,
    List.takeWhile_cons_of_neg (by simp [hb]), List.dropWhile_cons_of_neg (by simp [hb]),
    List.append_nil]

theorem readWord_solid {text : Bytes} (h : ∀ c ∈ text, isSpace c = false) : readWord text = (text, []) := by
  have hnot : ∀ c ∈ text, (!isSpace c) = true := by
    intro c hc
    rw [h c hc]
    rfl
  have hskip : text.dropWhile isSpace = text := by
    cases text with
    | nil => rfl
    | cons c text => exact List.dropWhile_cons_of_neg (by simp [h c List.mem_cons_self])
  simp only [readWord, hskip, List.takeWhile_eq_self_iff.2 hnot, List.dropWhile_eq_nil_iff.2 hnot]

theorem readWord_space {text : Bytes} (h : ∀ c ∈ text, isSpace c = true) : readWord text = ([], []) := by
  simp only [readWord, List.dropWhile_eq_nil_iff.2 h]
  rfl

/-- What is not white space is in the word or behind it. -/
theorem readWord_count (text : Bytes) :
    (readWord text).1.length + (readWord text).2.countP (!isSpace ·) = text.countP (!isSpace ·) := by
  have hskip : (text.takeWhile isSpace).countP (!isSpace ·) = 0 := by
    rw [List.countP_eq_zero]
    intro c hc
    simp [List.mem_takeWhile_imp hc]
  have hword : ∀ rest : Bytes, (rest.takeWhile (!isSpace ·)).countP (!isSpace ·) =
      (rest.takeWhile (!isSpace ·)).length := by
    intro rest
    rw [List.countP_eq_length]
    exact fun c hc => List.mem_takeWhile_imp (p := (!isSpace ·)) hc
  conv_rhs => rw [← List.takeWhile_append_dropWhile (p := isSpace) (l := text), List.countP_append, hskip,
    Nat.zero_add]
  simp only [readWord]
  rw [← hword, ← List.countP_append, List.takeWhile_append_dropWhile]

/-! ## stoul -/

/-- Why `stoul` throws. -/
inductive StoulError
  | invalidArgument
  | outOfRange
  deriving DecidableEq

/-- The number that decimal digits stand for. -/
def decimal (digits : Bytes) : ℕ := digits.foldl (fun n d => 10 * n + (d.toNat - 48)) 0

/-- The sign, if there is one, and the text behind it. -/
def readSign : Bytes → Bool × Bytes
  | 45 :: text => (true, text)
  | 43 :: text => (false, text)
  | text => (false, text)

/-- `std::stoul(text)`: white space, a sign and digits are read; a number with a minus sign is
negated modulo 2^64. -/
def stoul (text : Bytes) : Except StoulError ℕ :=
  let (negative, text) := readSign (text.dropWhile isSpace)
  let digits := text.takeWhile isDigit
  if digits = [] then .error .invalidArgument
  else if UInt64.size ≤ decimal digits then .error .outOfRange
  else .ok (if negative then (UInt64.size - decimal digits) % UInt64.size else decimal digits)

/-! ## Decimal numbers -/

/-- Digits that stand for `n`. -/
structure IsDecimal (digits : Bytes) (n : ℕ) : Prop where
  ne_nil : digits ≠ []
  digit : ∀ b ∈ digits, isDigit b = true
  value : decimal digits = n

/-- `std::to_string(n)`. -/
def toDecimal (n : ℕ) : Bytes := ascii (toString n)

/-- `std::to_string(n)` of an `int`. -/
def intToDecimal (n : ℤ) : Bytes := ascii (toString n)

theorem digit_range {c : Char} (h : c.isDigit = true) : 48 ≤ c.toNat ∧ c.toNat ≤ 57 :=
  Char.isDigit_iff_toNat.1 h

theorem toNat_of_isDigit {c : Char} (h : c.isDigit = true) : (UInt8.ofNat c.toNat).toNat = c.toNat := by
  have hle := (digit_range h).2
  rw [UInt8.toNat_ofNat', Nat.mod_eq_of_lt (by omega)]

theorem isDecimal_toDecimal (n : ℕ) : IsDecimal (toDecimal n) n := by
  have hdigits : toDecimal n = (Nat.toDigits 10 n).map fun c => UInt8.ofNat c.toNat := by
    rw [toDecimal, ascii, Nat.toString_eq_ofList_toDigits, String.toList_ofList]
  have hdigit : ∀ c ∈ Nat.toDigits 10 n, c.isDigit = true :=
    fun c hc => Nat.isDigit_of_mem_toDigits (by decide) (by decide) hc
  rw [hdigits]
  refine ⟨?_, ?_, ?_⟩
  · rw [Ne, List.map_eq_nil_iff]
    exact Nat.toDigits_ne_nil
  · intro b hb
    obtain ⟨c, hc, rfl⟩ := List.mem_map.1 hb
    obtain ⟨hlo, hhi⟩ := digit_range (hdigit c hc)
    have hnat := toNat_of_isDigit (hdigit c hc)
    rw [isDigit, Bool.and_eq_true, decide_eq_true_iff, decide_eq_true_iff, UInt8.le_iff_toNat_le,
      UInt8.le_iff_toNat_le, hnat]
    exact ⟨hlo, hhi⟩
  · have hvalue : decimal ((Nat.toDigits 10 n).map fun c => UInt8.ofNat c.toNat) =
        Nat.ofDigitChars 10 (Nat.toDigits 10 n) 0 := by
      rw [decimal, List.foldl_map]
      refine List.foldl_ext _ _ _ fun a c hc => ?_
      rw [toNat_of_isDigit (hdigit c hc)]
      rfl
    rw [hvalue, Nat.ofDigitChars_ten_toDigits]

theorem isSpace_of_isDigit {b : UInt8} (h : isDigit b = true) : isSpace b = false := by
  rw [isDigit, Bool.and_eq_true, decide_eq_true_iff, decide_eq_true_iff, UInt8.le_iff_toNat_le,
    UInt8.le_iff_toNat_le] at h
  have hlo : 48 ≤ b.toNat := h.1
  rw [isSpace, Bool.or_eq_false_iff, Bool.and_eq_false_iff]
  refine ⟨?_, .inr ?_⟩
  · rw [beq_eq_false_iff_ne]
    rintro rfl
    exact absurd hlo (by decide)
  · rw [decide_eq_false_iff_not, UInt8.le_iff_toNat_le]
    exact fun hle => absurd (hlo.trans hle) (by decide)

/-- **`stoul` reads what stands for a number.** -/
theorem stoul_decimal {text : Bytes} {n : ℕ} (h : IsDecimal text n) (hn : n < UInt64.size) :
    stoul text = .ok n := by
  obtain ⟨hne, hdigit, hvalue⟩ := h
  obtain ⟨b, bs, rfl⟩ := List.exists_cons_of_ne_nil hne
  have hb : isDigit b = true := hdigit b List.mem_cons_self
  have hspace : (b :: bs).dropWhile isSpace = b :: bs := by
    rw [List.dropWhile_cons_of_neg (by simp [isSpace_of_isDigit hb])]
  have hsign : readSign (b :: bs) = (false, b :: bs) := by
    unfold readSign
    split
    · rename_i heq
      cases heq
      simp [isDigit] at hb
    · rename_i heq
      cases heq
      simp [isDigit] at hb
    · rfl
  have hall : (b :: bs).takeWhile isDigit = b :: bs := List.takeWhile_eq_self_iff.2 hdigit
  simp only [stoul, hspace, hsign, hall, hvalue]
  rw [if_neg hne, if_neg (Nat.not_le.2 hn)]
  rfl

end BackendTasks.Net
