import BackendTasks.Net.Text

/-!
# The head of a text

The lines behind the first one, up to a blank line, and the text behind that. Which lines are blank
is a parameter.
-/

namespace BackendTasks.Net

variable {blank : Bytes → Bool} {text line name value : Bytes}

/-- The lines between the first one and the first blank one behind it. -/
def headLines (blank : Bytes → Bool) (text : Bytes) : List Bytes :=
  ((getlines text).tail.map Prod.fst).takeWhile fun line => !blank line

/-- The first line. -/
def firstLine (text : Bytes) : Bytes := ((getlines text).map Prod.fst).headD []

/-- The lines from that blank line on. -/
def restLines (blank : Bytes → Bool) (text : Bytes) : List Bytes :=
  ((getlines text).tail.map Prod.fst).dropWhile fun line => !blank line

/-- The text behind that blank line. -/
def afterBlank (blank : Bytes → Bool) (text : Bytes) : Bytes :=
  (((getlines text).tail.find? fun entry => blank entry.1).map Prod.snd).getD []

theorem lines_eq (blank : Bytes → Bool) (hne : text ≠ []) :
    (getlines text).map Prod.fst = firstLine text :: (headLines blank text ++ restLines blank text) := by
  obtain ⟨line, behind, hlines, -⟩ := exists_line hne
  rw [headLines, restLines, List.takeWhile_append_dropWhile, firstLine, hlines]
  rfl

/-- The text behind the colon in a line that begins with the name and a colon. -/
def field (name line : Bytes) : Option Bytes :=
  if name ++ [58] <+: line then some (line.drop (name.length + 1)) else none

theorem field_eq_some : field name line = some value ↔ line = name ++ 58 :: value := by
  unfold field
  constructor
  · intro h
    split at h
    · rename_i hbegins
      obtain ⟨rest, rfl⟩ := hbegins
      have hdrop : (name ++ [58] ++ rest).drop (name.length + 1) = rest :=
        List.drop_left' (by simp)
      rw [hdrop] at h
      obtain rfl := Option.some.inj h
      simp
    · simp at h
  · rintro rfl
    have hbegins : name ++ [58] <+: name ++ 58 :: value := ⟨value, by simp⟩
    have hdrop : (name ++ 58 :: value).drop (name.length + 1) = value := by
      rw [← List.singleton_append, ← List.append_assoc]
      exact List.drop_left' (by simp)
    rw [if_pos hbegins, hdrop]

theorem field_eq_none : field name line = none ↔ ∀ value, line ≠ name ++ 58 :: value := by
  constructor
  · rintro h value rfl
    have hsome := field_eq_some.2 (rfl : name ++ 58 :: value = name ++ 58 :: value)
    rw [h] at hsome
    simp at hsome
  · intro h
    cases hfield : field name line with
    | none => rfl
    | some value => exact absurd (field_eq_some.1 hfield) (h value)

/-- Letters in lower case. -/
def lowercase (text : Bytes) : Bytes := text.map fun b => if 65 ≤ b && b ≤ 90 then b + 32 else b

/-- A text that is a word without white space up to letter case has none either. -/
theorem isSpace_of_lowercase {word : Bytes} (hword : ∀ b ∈ word, isSpace b = false)
    (h : lowercase value = word) : ∀ b ∈ value, isSpace b = false := by
  intro b hb
  subst h
  have hlower := hword _ (List.mem_map_of_mem hb)
  by_contra hspace
  rw [Bool.not_eq_false] at hspace
  have hrange : b = 32 ∨ 9 ≤ b ∧ b ≤ 13 := by simpa [isSpace] using hspace
  have hnot : ¬ (65 ≤ b ∧ b ≤ 90) := by
    simp only [UInt8.le_iff_toNat_le] at hrange ⊢
    rintro ⟨hge, -⟩
    rcases hrange with rfl | ⟨-, hle⟩
    · exact absurd hge (by decide)
    · exact absurd (hge.trans hle) (by decide)
  have hsame : (if 65 ≤ b && b ≤ 90 then b + 32 else b) = b := if_neg (by simpa using hnot)
  rw [hsame, hspace] at hlower
  simp at hlower

/-- Without the white space at both ends. -/
def trim (text : Bytes) : Bytes := ((text.dropWhile isSpace).reverse.dropWhile isSpace).reverse

theorem exists_trim (text : Bytes) : ∃ before after, text = before ++ trim text ++ after ∧
    (∀ b ∈ before, isSpace b = true) ∧ ∀ b ∈ after, isSpace b = true := by
  refine ⟨text.takeWhile isSpace, ((text.dropWhile isSpace).reverse.takeWhile isSpace).reverse, ?_, ?_, ?_⟩
  · rw [trim, List.append_assoc, ← List.reverse_append, List.takeWhile_append_dropWhile,
      List.reverse_reverse, List.takeWhile_append_dropWhile]
  · exact fun b hb => List.mem_takeWhile_imp hb
  · exact fun b hb => List.mem_takeWhile_imp (List.mem_reverse.1 hb)

theorem trim_eq {before after : Bytes} (hbefore : ∀ b ∈ before, isSpace b = true)
    (hafter : ∀ b ∈ after, isSpace b = true) (hvalue : ∀ b ∈ value, isSpace b = false) :
    trim (before ++ value ++ after) = value := by
  have hskip {space text : Bytes} (hspace : ∀ b ∈ space, isSpace b = true)
      (htext : ∀ b, text.head? = some b → isSpace b = false) : (space ++ text).dropWhile isSpace = text := by
    rw [List.dropWhile_append_of_pos hspace]
    cases text with
    | nil => rfl
    | cons b text => exact List.dropWhile_cons_of_neg (by simp [htext b rfl])
  by_cases hnil : value = []
  · have hall : (before ++ after).dropWhile isSpace = [] :=
      List.dropWhile_eq_nil_iff.2 fun b hb => (List.mem_append.1 hb).elim (hbefore b) (hafter b)
    rw [hnil, List.append_nil, trim, hall]
    rfl
  · have hfirst : (before ++ value ++ after).dropWhile isSpace = value ++ after := by
      rw [List.append_assoc]
      refine hskip hbefore fun b hb => ?_
      rw [List.head?_append_of_ne_nil _ hnil] at hb
      exact hvalue b (List.mem_of_mem_head? hb)
    rw [trim, hfirst, List.reverse_append,
      hskip (fun b hb => hafter b (List.mem_reverse.1 hb))
        fun b hb => hvalue b (List.mem_reverse.1 (List.mem_of_mem_head? hb)),
      List.reverse_reverse]

/-- Without any white space. -/
def solid (text : Bytes) : Bytes := text.filter (!isSpace ·)

/-- One of the lines is a header with this name, in any letter case, and with this value. -/
def HasHeader (lines : List Bytes) (name value : Bytes) : Prop :=
  ∃ key, lowercase key = lowercase name ∧ key ++ 58 :: value ∈ lines

end BackendTasks.Net
