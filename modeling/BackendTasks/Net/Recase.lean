import BackendTasks.Net.Head
import Mathlib.Data.List.Forall2

/-!
# Header names in another letter case

Two texts that differ in the letter case of names in their head, and nowhere else
(`RecasedHead`). They have the same first line, the same text behind the blank line, and head lines
that are the same up to the case of their names (`RecasedHead.lines`); and any choice of spellings
for the head lines is made by some text (`exists_recased`).
-/

namespace BackendTasks.Net

variable {blank : Bytes → Bool} {text text' line line' name name' value behind behind' : Bytes} {c : UInt8}

/-! ## Lower case -/

/-- A capital letter becomes a small one. -/
theorem small_letter {b : UInt8} (hb : (65 ≤ b && b ≤ 90) = true) : 97 ≤ b + 32 := by
  simp only [Bool.and_eq_true, decide_eq_true_eq, UInt8.le_iff_toNat_le] at hb
  have h₁ : UInt8.toNat 65 = 65 := rfl
  have h₂ : UInt8.toNat 90 = 90 := rfl
  have h₃ : UInt8.toNat 32 = 32 := rfl
  have h₄ : UInt8.toNat 97 = 97 := rfl
  rw [UInt8.le_iff_toNat_le, UInt8.toNat_add]
  omega

theorem lowercase_idem (text : Bytes) : lowercase (lowercase text) = lowercase text := by
  unfold lowercase
  rw [List.map_map]
  refine List.map_congr_left fun b _ => ?_
  dsimp only [Function.comp]
  by_cases hb : (65 ≤ b && b ≤ 90) = true
  · have hsmall : ¬ (65 ≤ b + 32 && b + 32 ≤ 90) = true := by
      have hlow := small_letter hb
      simp only [Bool.and_eq_true, decide_eq_true_eq, not_and, UInt8.not_le]
      exact fun _ => UInt8.lt_of_lt_of_le (by decide) hlow
    simp only [if_pos hb, if_neg hsmall]
  · simp only [if_neg hb]

/-- Bytes below the letters are the same in lower case. -/
theorem mem_lowercase (hc : c < 65) : c ∈ lowercase text ↔ c ∈ text := by
  have hbyte : ∀ b : UInt8, (if 65 ≤ b && b ≤ 90 then b + 32 else b) = c ↔ b = c := by
    intro b
    by_cases hb : (65 ≤ b && b ≤ 90) = true
    · have hletter : 65 ≤ b := by
        rw [Bool.and_eq_true, decide_eq_true_iff] at hb
        exact hb.1
      have hsmall : (65 : UInt8) ≤ b + 32 := UInt8.le_trans (by decide) (small_letter hb)
      rw [if_pos hb]
      refine iff_of_false ?_ ?_
      · rintro rfl
        exact UInt8.not_le.2 hc hsmall
      · rintro rfl
        exact UInt8.not_le.2 hc hletter
    · rw [if_neg hb]
  simp only [lowercase, List.mem_map, hbyte, exists_eq_right]

theorem mem_of_lowercase (hc : c < 65) (h : lowercase name = lowercase name') : c ∈ name ↔ c ∈ name' := by
  rw [← mem_lowercase hc, h, mem_lowercase hc]

/-! ## Header lines -/

/-- The lines are the same up to the letter case of the name before the colon. -/
def SameHeader (line line' : Bytes) : Prop :=
  line = line' ∨ ∃ name name' value, 58 ∉ name ∧ lowercase name = lowercase name' ∧
    line = name ++ 58 :: value ∧ line' = name' ++ 58 :: value

theorem SameHeader.mem_iff (h : SameHeader line line') (hc : c < 65) : c ∈ line ↔ c ∈ line' := by
  rcases h with rfl | ⟨name, name', value, -, hname, rfl, rfl⟩
  · rfl
  · simp only [List.mem_append, mem_of_lowercase hc hname]

/-- A line without a colon stays as it is. -/
theorem SameHeader.eq_of_not_mem (h : SameHeader line line') (hcolon : 58 ∉ line) : line = line' := by
  rcases h with rfl | ⟨name, name', value, -, -, rfl, rfl⟩
  · rfl
  · simp at hcolon

theorem SameHeader.symm (h : SameHeader line line') : SameHeader line' line := by
  rcases h with rfl | ⟨name, name', value, hcolon, hname, rfl, rfl⟩
  · exact .inl rfl
  · exact .inr ⟨name', name, value, mt (mem_of_lowercase (by decide) hname).2 hcolon, hname.symm, rfl, rfl⟩

/-- The name of one is the name of the other up to case. -/
theorem SameHeader.field (h : SameHeader line line') (hname : 58 ∉ name) (hline : line = name ++ 58 :: value) :
    ∃ name', lowercase name' = lowercase name ∧ line' = name' ++ 58 :: value := by
  rcases h with rfl | ⟨key, key', value', hkey, hcase, rfl, rfl⟩
  · exact ⟨name, rfl, hline⟩
  · obtain ⟨rfl, rfl⟩ := divide_unique hkey hname hline
    exact ⟨key', hcase.symm, rfl⟩

/-! ## Texts -/

/-- The texts are the same but for the case of names in lines before the first blank one. -/
inductive Recased (blank : Bytes → Bool) : Bytes → Bytes → Prop
  | same (text : Bytes) : Recased blank text text
  | line {line line' behind behind' : Bytes} : 10 ∉ line → blank line = false → SameHeader line line' →
      Recased blank behind behind' → Recased blank (line ++ 10 :: behind) (line' ++ 10 :: behind')
  | last {line line' : Bytes} : 10 ∉ line → blank line = false → SameHeader line line' → Recased blank line line'

/-- The texts are the same but for the case of names in their heads. -/
def RecasedHead (blank : Bytes → Bool) (text text' : Bytes) : Prop :=
  text = text' ∨ ∃ first behind behind', 10 ∉ first ∧ text = first ++ 10 :: behind ∧
    text' = first ++ 10 :: behind' ∧ Recased blank behind behind'

theorem SameHeader.blank_eq (hblank : ∀ line, blank line = true → 58 ∉ line) (h : SameHeader line line')
    (hline : blank line = false) : blank line' = false := by
  by_contra hline'
  have hblank' : blank line' = true := by simpa using hline'
  rw [← h.symm.eq_of_not_mem (hblank _ hblank'), hblank'] at hline
  simp at hline

/-- The lines before the first blank one, and the text behind it. -/
theorem Recased.lines (hblank : ∀ line, blank line = true → 58 ∉ line) (h : Recased blank text text') :
    List.Forall₂ SameHeader (((getlines text).map Prod.fst).takeWhile fun line => !blank line)
        (((getlines text').map Prod.fst).takeWhile fun line => !blank line) ∧
      ((getlines text).find? fun entry => blank entry.1).map Prod.snd =
        ((getlines text').find? fun entry => blank entry.1).map Prod.snd := by
  induction h with
  | same text => exact ⟨List.forall₂_same.2 fun _ _ => .inl rfl, rfl⟩
  | line hend hline hsame _ ih =>
    have hend' := mt (hsame.mem_iff (by decide)).2 hend
    rw [getlines_line hend, getlines_line hend']
    simp only [List.map_cons, List.find?_cons, List.takeWhile_cons, hline, hsame.blank_eq hblank hline, Bool.not_false,
      ↓reduceIte]
    exact ⟨.cons hsame ih.1, ih.2⟩
  | @last line line' hend hline hsame =>
    have hend' := mt (hsame.mem_iff (by decide)).2 hend
    by_cases hne : line = []
    · subst hne
      rw [← hsame.eq_of_not_mem (by simp)]
      exact ⟨.nil, rfl⟩
    · have hne' : line' ≠ [] := by
        rintro rfl
        exact hne (hsame.symm.eq_of_not_mem (by simp)).symm
      rw [getlines_last hend hne, getlines_last hend' hne']
      simp [hline, hsame.blank_eq hblank hline, hsame]

/-- **What a change of case leaves** of the head and of the text behind it. -/
theorem RecasedHead.lines (hblank : ∀ line, blank line = true → 58 ∉ line) (h : RecasedHead blank text text') :
    List.Forall₂ SameHeader (headLines blank text) (headLines blank text') ∧
      afterBlank blank text = afterBlank blank text' := by
  rcases h with rfl | ⟨first, behind, behind', hfirst, rfl, rfl, h⟩
  · exact ⟨List.forall₂_same.2 fun _ _ => .inl rfl, rfl⟩
  · obtain ⟨hlines, hbehind⟩ := h.lines hblank
    simp only [headLines, afterBlank, getlines_line hfirst, List.tail_cons, hbehind, and_true]
    exact hlines

/-- Each line comes from one that is the same up to case. -/
theorem RecasedHead.mem (hblank : ∀ line, blank line = true → 58 ∉ line) (h : RecasedHead blank text text')
    (hline : line' ∈ headLines blank text') : ∃ line ∈ headLines blank text, SameHeader line line' := by
  have hlines := (h.lines hblank).1
  generalize headLines blank text = lines at hlines ⊢
  generalize headLines blank text' = lines' at hlines hline
  induction hlines with
  | nil => simp at hline
  | cons hsame _ ih =>
    rcases List.mem_cons.1 hline with rfl | hline
    · exact ⟨_, List.mem_cons_self, hsame⟩
    · obtain ⟨line, hmem, hsame⟩ := ih hline
      exact ⟨line, List.mem_cons_of_mem _ hmem, hsame⟩

/-! ## Spelling the names -/

theorem exists_recased_lines (hblank : ∀ line, blank line = true → 58 ∉ line) {f : Bytes → Bytes}
    (hf : ∀ line, SameHeader line (f line)) (text : Bytes) :
    ∃ text', Recased blank text text' ∧
      (((getlines text').map Prod.fst).takeWhile fun line => !blank line) =
        (((getlines text).map Prod.fst).takeWhile fun line => !blank line).map f := by
  induction hn : text.length using Nat.strong_induction_on generalizing text with
  | _ n ih =>
    by_cases hend : 10 ∈ text
    · obtain ⟨line, behind, rfl, hline⟩ := List.eq_append_cons_of_mem hend
      cases hblankline : blank line with
      | true =>
        refine ⟨_, .same _, ?_⟩
        rw [getlines_line hline]
        simp [hblankline]
      | false =>
        have hlt : behind.length < n := by
          rw [← hn, List.length_append, List.length_cons]
          omega
        obtain ⟨behind', hbehind, hlines⟩ := ih _ hlt behind rfl
        refine ⟨_, .line hline hblankline (hf line) hbehind, ?_⟩
        rw [getlines_line hline, getlines_line (mt ((hf line).mem_iff (by decide)).2 hline)]
        simp [hblankline, (hf line).blank_eq hblank hblankline, hlines]
    · by_cases hne : text = []
      · subst hne
        exact ⟨[], .same _, rfl⟩
      cases hblankline : blank text with
      | true =>
        refine ⟨_, .same _, ?_⟩
        rw [getlines_last hend hne]
        simp [hblankline]
      | false =>
        have hne' : f text ≠ [] := by
          intro heq
          have hnil := (hf text).symm.eq_of_not_mem (by simp [heq])
          exact hne (hnil ▸ heq)
        refine ⟨_, .last hend hblankline (hf text), ?_⟩
        rw [getlines_last hend hne, getlines_last (mt ((hf text).mem_iff (by decide)).2 hend) hne']
        simp [hblankline, (hf text).blank_eq hblank hblankline]

/-- **Every spelling of the names** is that of some text. -/
theorem exists_recased (hblank : ∀ line, blank line = true → 58 ∉ line) {f : Bytes → Bytes}
    (hf : ∀ line, SameHeader line (f line)) (text : Bytes) :
    ∃ text', RecasedHead blank text text' ∧ headLines blank text' = (headLines blank text).map f := by
  by_cases hend : 10 ∈ text
  · obtain ⟨first, behind, rfl, hfirst⟩ := List.eq_append_cons_of_mem hend
    obtain ⟨behind', hbehind, hlines⟩ := exists_recased_lines hblank hf behind
    refine ⟨_, .inr ⟨first, behind, behind', hfirst, rfl, rfl, hbehind⟩, ?_⟩
    simp only [headLines, getlines_line hfirst, List.tail_cons, hlines]
  · refine ⟨text, .inl rfl, ?_⟩
    have hnil : headLines blank text = [] := by
      by_cases hne : text = []
      · subst hne
        rfl
      · rw [headLines, getlines_last hend hne]
        rfl
    rw [hnil, List.map_nil]

/-- The name of the line in small letters, or, in one line, as it is given. -/
def spell (target exact : Bytes) (line : Bytes) : Bytes :=
  if 58 ∈ line then
    (if line = target then exact else lowercase (line.takeWhile (· != 58))) ++ line.dropWhile (· != 58)
  else line

variable {target exact wanted : Bytes}

theorem spell_field (hname : 58 ∉ name) (value : Bytes) :
    spell target exact (name ++ 58 :: value) =
      (if name ++ 58 :: value = target then exact else lowercase name) ++ 58 :: value := by
  have hmem : 58 ∈ name ++ 58 :: value := by simp
  obtain ⟨hkey, hvalue⟩ := divide hname value
  rw [spell, if_pos hmem, hkey, hvalue]

/-- The spelling is one of the name's. -/
theorem spell_same (htarget : ∀ name value, target = name ++ 58 :: value → 58 ∉ name →
    lowercase name = lowercase exact) (line : Bytes) : SameHeader line (spell target exact line) := by
  by_cases hcolon : 58 ∈ line
  · obtain ⟨name, value, rfl, hname⟩ := List.eq_append_cons_of_mem hcolon
    rw [spell_field hname]
    split
    · rename_i heq
      exact .inr ⟨name, exact, value, hname, htarget name value heq.symm hname, rfl, rfl⟩
    · exact .inr ⟨name, lowercase name, value, hname, (lowercase_idem name).symm, rfl, rfl⟩
  · rw [spell, if_neg hcolon]
    exact .inl rfl

/-- A name with a capital letter is only in the line where it was put. -/
theorem field_spell (hwanted : 58 ∉ wanted) (hcase : lowercase wanted ≠ wanted) (hexact : 58 ∉ exact)
    (h : field wanted (spell target exact line) = some value) :
    wanted = exact ∧ line = target ∧ ∃ name, 58 ∉ name ∧ line = name ++ 58 :: value := by
  rw [field_eq_some] at h
  by_cases hcolon : 58 ∈ line
  · obtain ⟨name, value', rfl, hname⟩ := List.eq_append_cons_of_mem hcolon
    rw [spell_field hname] at h
    split at h
    · rename_i heq
      obtain ⟨rfl, rfl⟩ := divide_unique hexact hwanted h
      exact ⟨rfl, heq, name, hname, rfl⟩
    · obtain ⟨rfl, -⟩ := divide_unique (mt (mem_lowercase (by decide)).1 hname) hwanted h
      exact absurd (lowercase_idem name) hcase
  · rw [spell, if_neg hcolon] at h
    rw [h] at hcolon
    simp at hcolon

end BackendTasks.Net
