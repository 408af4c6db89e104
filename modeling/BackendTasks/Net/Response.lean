import BackendTasks.Net.Text

/-!
# The response format of HTTP/1.1

A response is read as it is defined: the head ends at the first empty line, its first line has
the status, and every other line is a name and a value with ": " between them
(`readResponse`). A response whose lines have no `\r` is read as it was written (`readResponse_lines`).
-/

namespace BackendTasks.Net

variable {text line head rest : Bytes} {lines : List Bytes}

/-! ## Splitting at a pattern -/

/-- What is before and behind the first place at which the text has the pattern. -/
def splitFirst (pattern : Bytes) : Bytes → Option (Bytes × Bytes)
  | [] => none
  | b :: text =>
    if pattern <+: b :: text then some ([], (b :: text).drop pattern.length)
    else (splitFirst pattern text).map fun r => (b :: r.1, r.2)

/-- The parts of the text between its line ends. -/
def splitLines : Bytes → List Bytes
  | [] => [[]]
  | 13 :: 10 :: text => [] :: splitLines text
  | b :: text =>
    match splitLines text with
    | [] => [[b]]
    | line :: lines => (b :: line) :: lines

/-- A pattern is not found in bytes that are all other than its first. -/
theorem splitFirst_skip {b : UInt8} (pattern : Bytes) (h : b ∉ head) (text : Bytes) :
    splitFirst (b :: pattern) (head ++ text) =
      (splitFirst (b :: pattern) text).map fun r => (head ++ r.1, r.2) := by
  induction head with
  | nil => simp
  | cons c head ih =>
    obtain ⟨hc, hhead⟩ := not_or.1 (mt List.mem_cons.2 h)
    have hnot : ¬ b :: pattern <+: c :: (head ++ text) := fun hpre => hc (List.cons_prefix_cons.1 hpre).1
    rw [List.cons_append, splitFirst, if_neg hnot, ih hhead, Option.map_map]
    rfl

theorem splitFirst_here {b : UInt8} (pattern text : Bytes) :
    splitFirst (b :: pattern) (b :: (pattern ++ text)) = some ([], text) := by
  have hpre : b :: pattern <+: b :: (pattern ++ text) := ⟨text, rfl⟩
  rw [splitFirst, if_pos hpre]
  simp

/-- **The first place** is behind bytes that are all other than the first of the pattern. -/
theorem splitFirst_append {b : UInt8} (pattern : Bytes) (h : b ∉ head) (text : Bytes) :
    splitFirst (b :: pattern) (head ++ b :: (pattern ++ text)) = some (head, text) := by
  rw [splitFirst_skip pattern h, splitFirst_here]
  simp

/-- What is before the pattern, the pattern, and what is behind it. -/
theorem eq_of_splitFirst {pattern behind : Bytes} (h : splitFirst pattern text = some (head, behind)) :
    text = head ++ pattern ++ behind := by
  induction text generalizing head with
  | nil => simp [splitFirst] at h
  | cons b text ih =>
    rw [splitFirst] at h
    split at h
    · rename_i hpre
      obtain ⟨rest, hrest⟩ := hpre
      rw [← hrest, List.drop_left, Option.some.injEq, Prod.mk.injEq] at h
      rw [← h.1, ← h.2, List.nil_append, hrest]
    · obtain ⟨⟨front, rest⟩, hfound, heq⟩ := Option.map_eq_some_iff.1 h
      obtain ⟨rfl, rfl⟩ := Prod.mk.inj heq
      rw [ih hfound, List.cons_append, List.cons_append]

/-- A pattern that is found is found where it is when more text follows. -/
theorem splitFirst_more {pattern behind : Bytes} (h : splitFirst pattern text = some (head, behind))
    (more : Bytes) : splitFirst pattern (text ++ more) = some (head, behind ++ more) := by
  induction text generalizing head with
  | nil => simp [splitFirst] at h
  | cons b text ih =>
    rw [splitFirst] at h
    rw [List.cons_append, splitFirst]
    split at h
    · rename_i hpre
      obtain ⟨rest, hrest⟩ := hpre
      rw [← hrest, List.drop_left, Option.some.injEq, Prod.mk.injEq] at h
      have hthis : b :: (text ++ more) = pattern ++ (rest ++ more) := by
        rw [← List.append_assoc, hrest, List.cons_append]
      rw [hthis, if_pos (List.prefix_append _ _), List.drop_left, ← h.1, ← h.2]
    · rename_i hpre
      obtain ⟨⟨front, rest⟩, hfound, heq⟩ := Option.map_eq_some_iff.1 h
      obtain ⟨rfl, rfl⟩ := Prod.mk.inj heq
      -- the text is long enough for the pattern, so it is not at its beginning either
      have hlen := congrArg List.length (eq_of_splitFirst hfound)
      simp only [List.length_append] at hlen
      have hnot : ¬ pattern <+: b :: (text ++ more) := by
        intro hlong
        have hthis : b :: text <+: b :: (text ++ more) := ⟨more, rfl⟩
        exact hpre (List.prefix_of_prefix_length_le hlong hthis (by rw [List.length_cons]; omega))
      rw [if_neg hnot, ih hfound]
      rfl

theorem splitLines_skip (h : 13 ∉ line) (text : Bytes) :
    splitLines (line ++ 13 :: 10 :: text) = line :: splitLines text := by
  induction line with
  | nil => rw [List.nil_append, splitLines]
  | cons b line ih =>
    obtain ⟨hb, hline⟩ := not_or.1 (mt List.mem_cons.2 h)
    rw [List.cons_append, splitLines, ih hline]
    rintro _ rfl
    exact absurd rfl hb

theorem splitLines_last (h : 13 ∉ line) : splitLines line = [line] := by
  induction line with
  | nil => rfl
  | cons b line ih =>
    obtain ⟨hb, hline⟩ := not_or.1 (mt List.mem_cons.2 h)
    rw [splitLines, ih hline]
    rintro _ rfl
    exact absurd rfl hb

/-! ## Numbers -/

/-- Decimal digits as a number. -/
def readDecimal (text : Bytes) : Option ℕ :=
  if text ≠ [] ∧ text.all isDigit = true then some (decimal text) else none

/-- A number that may have a minus sign. -/
def readInt : Bytes → Option ℤ
  | 45 :: text => (readDecimal text).map fun n => -(n : ℤ)
  | text => (readDecimal text).map fun n => (n : ℤ)

theorem readDecimal_eq {n : ℕ} (h : IsDecimal text n) : readDecimal text = some n := by
  rw [readDecimal, if_pos ⟨h.ne_nil, List.all_eq_true.2 h.digit⟩, h.value]

theorem intToDecimal_neg (n : ℕ) : intToDecimal (.negSucc n) = 45 :: toDecimal (n + 1) := by
  unfold intToDecimal toDecimal ascii
  have htext : (toString (Int.negSucc n)) = "-" ++ toString (n + 1) := rfl
  rw [htext, String.toList_append, List.map_append]
  rfl

/-- **`std::to_string` of an `int` is read back.** -/
theorem readInt_intToDecimal (n : ℤ) : readInt (intToDecimal n) = some n := by
  cases n with
  | ofNat n =>
    have hdecimal := isDecimal_toDecimal n
    have hread := readDecimal_eq hdecimal
    change readInt (toDecimal n) = some (n : ℤ)
    obtain ⟨b, digits, hdigits⟩ := List.exists_cons_of_ne_nil hdecimal.ne_nil
    rw [hdigits] at hread ⊢
    have hb : b ≠ 45 := by
      rintro rfl
      have hdigit := hdecimal.digit 45 (hdigits ▸ List.mem_cons_self)
      simp [isDigit] at hdigit
    rw [readInt, hread]
    · rfl
    · rintro _ ⟨⟩
      exact hb rfl
  | negSucc n =>
    rw [intToDecimal_neg, readInt, readDecimal_eq (isDecimal_toDecimal (n + 1))]
    rfl

/-- The bytes of a decimal number are digits and a sign. -/
theorem mem_intToDecimal {n : ℤ} {b : UInt8} (h : b ∈ intToDecimal n) : b = 45 ∨ isDigit b = true := by
  cases n with
  | ofNat n => exact .inr ((isDecimal_toDecimal n).digit b h)
  | negSucc n =>
    rw [intToDecimal_neg] at h
    rcases List.mem_cons.1 h with rfl | h
    · exact .inl rfl
    · exact .inr ((isDecimal_toDecimal (n + 1)).digit b h)

/-! ## The response -/

/-- What a response says. -/
structure Reading where
  status : ℤ
  fields : List (Bytes × Bytes)
  body : Bytes
  deriving DecidableEq

/-- The number between the first two blanks. -/
def readStatus (line : Bytes) : Option ℤ := do
  let (_, line) ← splitFirst [32] line
  let (status, _) ← splitFirst [32] line
  readInt status

/-- The lines "name: value". -/
def readFields (lines : List Bytes) : Option (List (Bytes × Bytes)) :=
  lines.mapM (splitFirst [58, 32])

/-- The head is what is before the first empty line. -/
def readResponse (text : Bytes) : Option Reading := do
  let (head, body) ← splitFirst [13, 10, 13, 10] text
  match splitLines head with
  | [] => none
  | line :: lines =>
    let status ← readStatus line
    let fields ← readFields lines
    return ⟨status, fields, body⟩

theorem readStatus_line {version status : Bytes} (hversion : 32 ∉ version) (hstatus : 32 ∉ status)
    (reason : Bytes) : readStatus (version ++ 32 :: (status ++ 32 :: reason)) = readInt status := by
  have h₁ := splitFirst_append [] hversion (status ++ 32 :: reason)
  have h₂ := splitFirst_append [] hstatus reason
  rw [List.nil_append] at h₁ h₂
  simp [readStatus, h₁, h₂]

theorem readFields_lines {fields : List (Bytes × Bytes)} (h : ∀ field ∈ fields, 58 ∉ field.1) :
    readFields (fields.map fun field => field.1 ++ 58 :: 32 :: field.2) = some fields := by
  induction fields with
  | nil => rfl
  | cons field fields ih =>
    obtain ⟨hfield, hfields⟩ := List.forall_mem_cons.1 h
    have hsplit := splitFirst_append [32] hfield field.2
    rw [List.singleton_append] at hsplit
    have hmore := ih hfields
    rw [readFields] at hmore
    simp [readFields, hsplit, hmore]

/-- **A head of lines without `\r`** is read line by line, and the body is left as it is. -/
theorem splitFirst_head (hne : lines ≠ []) (h : ∀ line ∈ lines, line ≠ [] ∧ 13 ∉ line) (body : Bytes) :
    ∃ head, splitFirst [13, 10, 13, 10] (lines.flatMap (· ++ [13, 10]) ++ 13 :: 10 :: body) =
      some (head, body) ∧ splitLines head = lines := by
  induction lines with
  | nil => exact absurd rfl hne
  | cons line lines ih =>
    obtain ⟨⟨-, hline⟩, hlines⟩ := List.forall_mem_cons.1 h
    cases lines with
    | nil =>
      have htext : [line].flatMap (· ++ [13, 10]) ++ 13 :: 10 :: body =
          line ++ 13 :: ([10, 13, 10] ++ body) := by simp
      exact ⟨line, by rw [htext, splitFirst_append [10, 13, 10] hline], splitLines_last hline⟩
    | cons next lines =>
      obtain ⟨head, hsplit, hhead⟩ := ih (List.cons_ne_nil _ _) hlines
      obtain ⟨hnext, hnext'⟩ := hlines next List.mem_cons_self
      obtain ⟨c, next', rfl⟩ := List.exists_cons_of_ne_nil hnext
      obtain ⟨rest, hrest⟩ : ∃ rest, ((c :: next') :: lines).flatMap (· ++ [13, 10]) ++ 13 :: 10 :: body =
          c :: rest := ⟨_, rfl⟩
      have htext : (line :: (c :: next') :: lines).flatMap (· ++ [13, 10]) ++ 13 :: 10 :: body =
          line ++ 13 :: 10 :: c :: rest := by
        rw [← hrest]
        simp
      -- the next line is not empty, so the pattern is not at the end of this one
      have hcr : 13 ≠ c := fun heq => hnext' (heq ▸ List.mem_cons_self)
      have hthis : ¬ [13, 10, 13, 10] <+: 13 :: 10 :: c :: rest := by simp [hcr]
      have hlf : ¬ [13, 10, 13, 10] <+: 10 :: c :: rest := by simp
      refine ⟨line ++ 13 :: 10 :: head, ?_, by rw [splitLines_skip hline, hhead]⟩
      rw [hrest] at hsplit
      rw [htext, splitFirst_skip [10, 13, 10] hline, splitFirst, if_neg hthis, splitFirst, if_neg hlf,
        hsplit]
      rfl

/-- The lines of the head of a response. -/
def responseLines (version status reason : Bytes) (fields : List (Bytes × Bytes)) : List Bytes :=
  (version ++ 32 :: (status ++ 32 :: reason)) :: fields.map fun field => field.1 ++ 58 :: 32 :: field.2

/-- **A response is read as it was written.** -/
theorem readResponse_lines {version status reason : Bytes} {code : ℤ} {fields : List (Bytes × Bytes)}
    (hversion : 32 ∉ version) (hstatus : 32 ∉ status) (hcode : readInt status = some code)
    (hfields : ∀ field ∈ fields, 58 ∉ field.1)
    (hlines : ∀ line ∈ responseLines version status reason fields, 13 ∉ line) (body : Bytes) :
    readResponse ((responseLines version status reason fields).flatMap (· ++ [13, 10]) ++
      13 :: 10 :: body) = some ⟨code, fields, body⟩ := by
  have hne : ∀ line ∈ responseLines version status reason fields, line ≠ [] := by
    intro line hline
    rcases List.mem_cons.1 hline with rfl | hline
    · simp
    · obtain ⟨field, -, rfl⟩ := List.mem_map.1 hline
      simp
  have hlist : responseLines version status reason fields ≠ [] := List.cons_ne_nil _ _
  obtain ⟨head, hsplit, hhead⟩ := splitFirst_head hlist (fun line hline => ⟨hne line hline, hlines line hline⟩)
    body
  rw [readResponse, hsplit]
  simp [hhead, responseLines, readStatus_line hversion hstatus, hcode, readFields_lines hfields]

/-- What is read depends on the head, and on the body as it is. -/
theorem readResponse_some {reading : Reading} (h : readResponse text = some reading) :
    ∃ head, splitFirst [13, 10, 13, 10] text = some (head, reading.body) ∧
      ∀ text' body, splitFirst [13, 10, 13, 10] text' = some (head, body) →
        readResponse text' = some { reading with body := body } := by
  rw [readResponse] at h
  obtain ⟨⟨head, body⟩, hsplit, hread⟩ := Option.bind_eq_some_iff.1 h
  dsimp only at hread
  cases hlines : splitLines head with
  | nil => simp [hlines] at hread
  | cons line lines =>
    rw [hlines] at hread
    obtain ⟨status, hstatus, hread⟩ := Option.bind_eq_some_iff.1 hread
    obtain ⟨fields, hfields, hread⟩ := Option.bind_eq_some_iff.1 hread
    cases hread
    refine ⟨head, hsplit, fun text' body' hsplit' => ?_⟩
    rw [readResponse, hsplit']
    simp [hlines, hstatus, hfields]

/-- More text is more body. -/
theorem readResponse_more {reading : Reading} (h : readResponse text = some reading) (more : Bytes) :
    readResponse (text ++ more) = some { reading with body := reading.body ++ more } := by
  obtain ⟨head, hsplit, hread⟩ := readResponse_some h
  exact hread _ _ (splitFirst_more hsplit more)

theorem length_readResponse {reading : Reading} (h : readResponse text = some reading) :
    reading.body.length < text.length := by
  obtain ⟨head, hsplit, -⟩ := readResponse_some h
  have hlen := congrArg List.length (eq_of_splitFirst hsplit)
  simp only [List.length_append, List.length_cons, List.length_nil] at hlen
  omega

end BackendTasks.Net
