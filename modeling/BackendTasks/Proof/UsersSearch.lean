import BackendTasks.Proof.UsersTable
import Mathlib.Data.List.Lex
import Mathlib.Data.List.TakeWhile
import Mathlib.Data.Char

/-!
# `findUsersByName`

The name that is searched for stands in the pattern as it is, up to its first NUL, so its `%`, `_` and
backslashes keep their meaning there. It finds the names that have a part it stands for.

* `searches_iff`: these are the names that have it as a part just when no name in the table tells the two
  apart; so it is whatever the table just when the string has none of these characters.
-/

namespace BackendTasks.UserManager

open Net Sched Sql

variable {L : Sql.Locale} {names : SortOrder (List Char)} {t : Users (List Char)} {s : List Char}

/-- Whatever the order in which the rows are met, the users whose names have the string as a part are
found, and no others. -/
def SubstringSearch (L : Sql.Locale) (names : SortOrder (List Char)) (t : Users (List Char)) (s : List Char) :
    Prop :=
  ∀ scan, ∃ us, findUsersByName L names t scan s = .ok us ∧
    (us.map User.toRow).Perm (t.rows.filter fun row => HasPart L s row.name)

/-- The name has a part that the string, up to its first NUL, stands for. -/
def StandsIn (L : Sql.Locale) (s name : List Char) : Prop :=
  Finds ((parameter s).map L.lower) (name.map L.lower)

open Classical in
/-- **What is selected.** -/
theorem selectWhere_stands (L : Sql.Locale) (s : List Char) (rows : List (Row (List Char))) :
    selectWhere (fun row => ilike L row.name ('%' :: parameter s ++ ['%'])) rows =
      .ok (rows.filter fun row => StandsIn L s row.name) := by
  refine selectWhere_ok fun row _ => ?_
  obtain ⟨found, hfound, hiff⟩ := ilike_finds L (parameter s) row.name
  rw [hfound]
  congr 1
  rw [Bool.eq_iff_iff, hiff, decide_eq_true_iff]
  rfl

theorem full_of_toRow (u : User (List Char)) : u.toRow.Full := ⟨rfl, rfl⟩

/-- **When the search is one for a part of the name**, in this table. -/
theorem substringSearch_iff : SubstringSearch L names t s ↔
    ∀ row ∈ t.rows, (StandsIn L s row.name ↔ HasPart L s row.name) ∧ (HasPart L s row.name → row.Full) := by
  classical
  have hperm : ∀ scan,
      (orderBy (names.on (·.name)) ((t.scan scan).filter fun row => StandsIn L s row.name)).Perm
      (t.rows.filter fun row => StandsIn L s row.name) :=
    fun scan => (orderBy_perm _ _).trans ((t.scan_perm scan).filter _)
  constructor
  · intro h row hrow
    obtain ⟨us, hus, hfound⟩ := h t.rows
    rw [findUsersByName, selectWhere_stands] at hus
    have hrows := dataCollection_eq hus
    have hsame : row ∈ t.rows.filter (fun row => StandsIn L s row.name) ↔
        row ∈ t.rows.filter fun row => HasPart L s row.name := by
      rw [← (hperm t.rows).mem_iff, ← hrows, hfound.mem_iff]
    simp only [List.mem_filter, hrow, true_and, decide_eq_true_iff] at hsame
    refine ⟨hsame, fun hpart => ?_⟩
    have hmem : row ∈ us.map User.toRow :=
      hfound.mem_iff.2 (List.mem_filter.2 ⟨hrow, decide_eq_true hpart⟩)
    obtain ⟨u, -, rfl⟩ := List.mem_map.1 hmem
    exact full_of_toRow u
  · intro h scan
    have hsame : (t.rows.filter fun row => StandsIn L s row.name) =
        t.rows.filter fun row => HasPart L s row.name :=
      List.filter_congr fun row hrow => by simp [(h row hrow).1]
    have hmem : ∀ row ∈ orderBy (names.on (·.name)) ((t.scan scan).filter fun row => StandsIn L s row.name),
        row ∈ t.rows ∧ HasPart L s row.name := by
      intro row hrow
      rw [(hperm scan).mem_iff, hsame] at hrow
      exact ⟨(List.mem_filter.1 hrow).1, of_decide_eq_true (List.mem_filter.1 hrow).2⟩
    obtain ⟨us, hus, hmap⟩ := dataCollection_ok
      (fun row hrow => (h row (hmem row hrow).1).2 (hmem row hrow).2) fun row hrow => (hmem row hrow).1
    refine ⟨us, ?_, ?_⟩
    · rw [findUsersByName, selectWhere_stands]
      exact hus
    · rw [hmap, ← hsame]
      exact hperm scan

theorem parameter_eq_self : parameter s = s ↔ '\x00' ∉ s := by
  rw [parameter, List.takeWhile_eq_self_iff]
  constructor
  · intro h hnul
    exact absurd (h _ hnul) (by decide)
  · intro hnul c hc
    rw [bne_iff_ne]
    rintro rfl
    exact hnul hc

/-- A plain string without NUL stands for itself alone. -/
theorem standsIn_plain (hs : Plain s) (hnul : '\x00' ∉ s) (name : List Char) :
    StandsIn L s name ↔ HasPart L s name := by
  obtain ⟨found, hfound, hiff⟩ := ilike_finds L (parameter s) name
  rw [StandsIn, ← hiff]
  rw [parameter_eq_self.2 hnul, ilike_part hs] at hfound
  rw [← Except.ok.inj hfound, decide_eq_true_iff]

/-- Any other finds a name that does not have it. -/
theorem exists_standsIn (h : ¬ (Plain s ∧ '\x00' ∉ s)) : ∃ name, StandsIn L s name ∧ ¬ HasPart L s name := by
  have hstands : ∀ {name}, ilike L name ('%' :: parameter s ++ ['%']) = .ok true → StandsIn L s name := by
    intro name hname
    obtain ⟨found, hfound, hiff⟩ := ilike_finds L (parameter s) name
    exact hiff.1 (Except.ok.inj (hfound.symm.trans hname))
  by_cases hnul : '\x00' ∈ s
  · obtain ⟨name, hfound, hlen, -⟩ := exists_sample (L := L) (parameter s)
    refine ⟨name, hstands hfound, fun hpart => ?_⟩
    have hcut : parameter s <+: s := List.takeWhile_prefix _
    have hshort : (parameter s).length ≠ s.length :=
      fun heq => parameter_eq_self.1 (hcut.eq_of_length heq) hnul
    have hle := hcut.length_le
    have hle' := hpart.length_le
    omega
  · obtain ⟨name, hfound, hpart⟩ := exists_found (L := L) fun hs => h ⟨hs, hnul⟩
    rw [← parameter_eq_self.2 hnul] at hfound
    exact ⟨name, hstands hfound, hpart⟩

/-- A table with one row. -/
def single (name : List Char) : Users (List Char) where
  rows := [⟨1, name, some 1, some []⟩]
  check := List.forall_mem_singleton.2 rfl
  apart := List.pairwise_singleton ..

/-- **When the search is one for a part of the name**: just when every name in the table has a part that
the string stands for if and only if it has the string as a part, and no row that should be found has a
null. That is so for all tables without such a null just when the string has no `%`, no `_`, no
backslash and no NUL. -/
theorem searches_iff (L : Sql.Locale) (names : SortOrder (List Char)) (s : List Char) :
    (∀ t, SubstringSearch L names t s ↔ ∀ row ∈ t.rows,
      (StandsIn L s row.name ↔ HasPart L s row.name) ∧ (HasPart L s row.name → row.Full)) ∧
    ((∀ t, (∀ row ∈ t.rows, HasPart L s row.name → row.Full) → SubstringSearch L names t s) ↔
      Plain s ∧ '\x00' ∉ s) := by
  refine ⟨fun t => substringSearch_iff, fun h => ?_, fun hs t hfull => ?_⟩
  · by_contra hs
    obtain ⟨name, hstands, hpart⟩ := exists_standsIn (L := L) hs
    have hsearch := substringSearch_iff.1 (h (single name) fun row hrow _ => ?_)
    · exact hpart ((hsearch _ List.mem_cons_self).1.1 hstands)
    · obtain rfl := List.mem_singleton.1 hrow
      exact ⟨rfl, rfl⟩
  · exact substringSearch_iff.2 fun row hrow => ⟨standsIn_plain hs.1 hs.2 row.name, hfull row hrow⟩

/-! ## The letters A to Z -/

theorem big_letter {c : Char} (h : c.val ≥ 'A'.val ∧ c.val ≤ 'Z'.val) : 65 ≤ c.toNat ∧ c.toNat ≤ 90 :=
  ⟨UInt32.le_iff_toNat_le.1 h.1, UInt32.le_iff_toNat_le.1 h.2⟩

theorem toLower_big {c : Char} (h : c.val ≥ 'A'.val ∧ c.val ≤ 'Z'.val) : c.toLower.toNat = c.toNat + 32 := by
  have hrange := big_letter h
  have hval : c.toLower.val = c.val + 32 := by
    unfold Char.toLower
    rw [dif_pos h]
    rfl
  have hnat : c.val.toNat = c.toNat := rfl
  have h32 : UInt32.toNat 32 = 32 := rfl
  change c.toLower.val.toNat = c.val.toNat + 32
  rw [hval, UInt32.toNat_add]
  omega

def asciiLocale : Sql.Locale where
  lower := Char.toLower
  lower_sign c sign h := by
    by_cases hc : c.val ≥ 'A'.val ∧ c.val ≤ 'Z'.val
    · have hlow := toLower_big hc
      have hrange := big_letter hc
      have hsign : sign.toNat < 97 ∧ (sign.toNat < 65 ∨ 90 < sign.toNat) := by
        simp only [signs, List.mem_cons, List.not_mem_nil, or_false] at h
        rcases h with rfl | rfl | rfl
        all_goals decide
      refine iff_of_false ?_ ?_
      · rintro rfl
        omega
      · rintro rfl
        omega
    · unfold Char.toLower
      rw [dif_neg hc]

/-- **A search that finds too much.** "Bob" has no underscore. -/
theorem underscore_found : ∃ t, (calls (List Char)).Reach t ∧
    (t.rows.map fun row => row.name) = ["Bob".toList] ∧
    ¬ SubstringSearch asciiLocale (.linear _) t ['_'] := by
  obtain ⟨t, ht, hrows⟩ := Lts.exists_reachIf (calls (List Char)) (fun _ _ => True)
    [(⟨.fine, .fine, 1, [], []⟩, .registerUser "Bob".toList 30)]
    (fun t => (t.rows.map fun row => row.name) = ["Bob".toList]) (by decide)
  have hnames := of_decide_eq_true hrows
  obtain ⟨row, hrow, hname⟩ : ∃ row ∈ t.rows, row.name = "Bob".toList := by
    rw [← List.mem_map, hnames]
    exact List.mem_cons_self
  have hbob : Finds ['_'] ("Bob".toList.map asciiLocale.lower) := .inl ⟨['b'], .one 'b' .nil, by decide⟩
  refine ⟨t, ht, hnames, fun h => ?_⟩
  have hpart := (substringSearch_iff.1 h row hrow).1.1 (by rw [hname]; exact hbob)
  rw [hname] at hpart
  exact absurd hpart (by decide)

end BackendTasks.UserManager
