import BackendTasks.Proof.UsersTable

/-!
# `increaseUserAge`

All users of a name grow older by one statement, but PostgreSQL checks the unique index after each row.
A row whose new age is the old age of a namesake collides with it when it comes first.

* `shifts_iff`: the statement does what it should just when every such namesake is visited before the
  row that takes its age.
-/

namespace BackendTasks.UserManager

open Net Sched Sql

variable {Name : Type} [DecidableEq Name] {t : Users Name} {luck : Luck} {name : Name} {years : ℤ}

/-- The row, so many years older. -/
def olderBy (years : ℤ) (row : Row Name) : Row Name := { row with age := row.age.map (· + years) }

/-- The order in which the UPDATE visits the rows with the name. -/
def visits (t : Users Name) (luck : Luck) (name : Name) : List ℕ :=
  if luck.order.Perm (t.places (·.name == name)) then luck.order else t.places (·.name == name)

/-- The call succeeds, adds the years to the age of every row with the name, and changes nothing else. -/
def Shifts (t : Users Name) (luck : Luck) (name : Name) (years : ℤ) : Prop :=
  ∃ t', increaseUserAge t luck name years = (t', .ok ()) ∧
    t'.rows = t.rows.map fun row => if row.name = name then olderBy years row else row

/-- All resulting ages are positive and fit 32 bits. -/
def InRange (t : Users Name) (name : Name) (years : ℤ) : Prop :=
  ∀ row ∈ t.rows, row.name = name → ∀ age, row.age = some age →
    0 < age + years ∧ age + years ≤ 2147483647

/-- Each namesake whose age a row takes is visited before the row. -/
def OldestFirst (t : Users Name) (luck : Luck) (name : Name) (years : ℤ) : Prop :=
  ∀ i j a b age, t.rows[i]? = some a → t.rows[j]? = some b → i ≠ j → a.name = name → b.name = name →
    a.age = some age → b.age = some (age + years) →
    (visits t luck name).idxOf j < (visits t luck name).idxOf i

/-! ## The rows that are visited -/

theorem visits_perm : (visits t luck name).Perm (t.places (·.name == name)) := by
  unfold visits
  split
  · assumption
  · exact List.Perm.refl _

theorem visits_nodup : (visits t luck name).Nodup :=
  visits_perm.nodup_iff.2 (List.nodup_range.filter _)

theorem mem_visits {i : ℕ} : i ∈ visits t luck name ↔ ∃ row, t.rows[i]? = some row ∧ row.name = name := by
  rw [visits_perm.mem_iff, Table.places, List.mem_filter, List.mem_range]
  cases hrow : t.rows[i]? with
  | none => simp
  | some row => simp [(List.getElem?_eq_some_iff.1 hrow).1]

/-- Two rows have no key in common. -/
theorem apart_of_ne {i j : ℕ} {a b : Row Name} (ha : t.rows[i]? = some a) (hb : t.rows[j]? = some b)
    (hij : i ≠ j) : sameKey a b = false := by
  obtain ⟨hi, rfl⟩ := List.getElem?_eq_some_iff.1 ha
  obtain ⟨hj, rfl⟩ := List.getElem?_eq_some_iff.1 hb
  have hapart := List.pairwise_iff_getElem.1 t.apart
  rcases Nat.lt_or_gt_of_ne hij with hlt | hgt
  · exact hapart i j hi hj hlt
  · rw [sameKey_comm]
    exact hapart j i hj hi hgt

/-- What comes before a place in an order. -/
theorem idxOf_lt_iff {before after : List ℕ} {i : ℕ} (hi : i ∉ before) (j : ℕ) :
    (before ++ i :: after).idxOf j < (before ++ i :: after).idxOf i ↔ j ∈ before := by
  rw [List.idxOf_append_of_notMem hi, List.idxOf_cons_self, Nat.add_zero]
  by_cases hj : j ∈ before
  · rw [List.idxOf_append_of_mem hj]
    exact iff_of_true (List.idxOf_lt_length_of_mem hj) hj
  · rw [List.idxOf_append_of_notMem hj]
    exact iff_of_false (by omega) hj

/-! ## One row after the other -/

theorem addYears_eq {row : Row Name} (h : InRange t name years) (hrow : row ∈ t.rows) (hname : row.name = name) :
    addYears years row = .ok (olderBy years row) ∧ (users Name).check (olderBy years row) = true := by
  obtain ⟨hid, -⟩ := row_check hrow
  have hcheck : (users Name).check (olderBy years row) =
      (isInt row.id && (row.age.map (· + years)).all fun age => isInt age && 0 < age) := rfl
  rw [hcheck, hid]
  cases hage : row.age with
  | none =>
    have hsame : olderBy years row = row := by
      cases row
      simp_all [olderBy]
    rw [addYears, hage, hsame]
    exact ⟨rfl, rfl⟩
  | some age =>
    obtain ⟨hpos, hle⟩ := h row hrow hname age hage
    have hint : isInt (age + years) = true := by
      simp only [isInt, Bool.and_eq_true, decide_eq_true_eq]
      omega
    rw [addYears, hage]
    simp [hint, hpos, olderBy, hage]

theorem sameKey_iff {a b : Row Name} :
    sameKey a b = true ↔ a.id = b.id ∨ a.name = b.name ∧ ∃ age, a.age = some age ∧ b.age = some age := by
  simp only [sameKey, Bool.or_eq_true, Bool.and_eq_true, beq_iff_eq, Option.isSome_iff_exists]
  constructor
  · rintro (hid | ⟨⟨hname, hage⟩, age, hsome⟩)
    · exact .inl hid
    · exact .inr ⟨hname, age, hsome, hage ▸ hsome⟩
  · rintro (hid | ⟨hname, age, hage, hage'⟩)
    · exact .inl hid
    · exact .inr ⟨⟨hname, hage.trans hage'.symm⟩, age, hage⟩

/-- Rows that are as much older collide just when they did before. -/
theorem sameKey_olderBy (a b : Row Name) :
    sameKey (olderBy years a) (olderBy years b) = sameKey a b := by
  rw [Bool.eq_iff_iff, sameKey_iff, sameKey_iff]
  simp only [olderBy, Option.map_eq_some_iff]
  refine or_congr_right (and_congr_right fun _ => ?_)
  constructor
  · rintro ⟨_, ⟨age, hage, rfl⟩, ⟨age', hage', heq⟩⟩
    exact ⟨age, hage, add_right_cancel heq ▸ hage'⟩
  · rintro ⟨age, hage, hage'⟩
    exact ⟨age + years, ⟨age, hage, rfl⟩, age, hage', rfl⟩

/-- No row collides in its turn just when each row whose age another one takes was visited before. -/
theorem inTurn_iff (t : Users Name) (luck : Luck) (name : Name) (years : ℤ) :
    Table.InTurn (users Name) (olderBy years) (visits t luck name) t.rows ↔
      OldestFirst t luck name years := by
  constructor
  · intro h i j a b age ha hb hij hname hname' hage hage'
    have hi : i ∈ visits t luck name := mem_visits.2 ⟨a, ha, hname⟩
    obtain ⟨before, after, hsplit, hbefore⟩ := List.eq_append_cons_of_mem hi
    rw [hsplit, idxOf_lt_iff hbefore]
    by_contra hj
    have hnot : (Table.changed (olderBy years) before t.rows)[j]? = some b := by
      rw [Table.getElem?_changed, hb, Option.map_some, if_neg hj]
    have hclash : sameKey b (olderBy years a) = false := h before i after hsplit a ha j b hij.symm hnot
    have hsame : sameKey b (olderBy years a) = true :=
      sameKey_iff.2 (.inr ⟨hname'.trans hname.symm, age + years, hage', by simp [olderBy, hage]⟩)
    rw [hsame] at hclash
    simp at hclash
  · intro h before i after hsplit r hr j a hji ha
    rw [Table.getElem?_changed] at ha
    obtain ⟨b, hb, rfl⟩ := Option.map_eq_some_iff.1 ha
    have hname : r.name = name := by
      obtain ⟨r', hr', hname⟩ := mem_visits.1 (hsplit ▸ by simp : i ∈ visits t luck name)
      rw [Option.some.inj (hr.symm.trans hr'), hname]
    have hapart := apart_of_ne hb hr hji
    change sameKey _ _ = false
    by_cases hj : j ∈ before
    · rw [if_pos hj, sameKey_olderBy, hapart]
    · rw [if_neg hj, ← Bool.not_eq_true, sameKey_iff]
      rintro (hid | ⟨hname', age, hage, hage'⟩)
      · have hsame : sameKey b r = true := sameKey_iff.2 (.inl hid)
        rw [hapart] at hsame
        simp at hsame
      · obtain ⟨old, hold, rfl⟩ := Option.map_eq_some_iff.1 hage'
        have hbefore : i ∉ before := by
          have hnodup : (visits t luck name).Nodup := visits_nodup
          rw [hsplit] at hnodup
          exact fun hmem => (List.nodup_append.1 hnodup).2.2 i hmem i List.mem_cons_self rfl
        have hlater := h i j r b old hr hb hji.symm hname (hname'.trans hname) hold hage
        rw [hsplit, idxOf_lt_iff hbefore] at hlater
        exact hj hlater

/-- **When all namesakes are shifted**: just when the connection works, and each namesake whose age a
row takes is visited before the row. -/
theorem shifts_iff (h : InRange t name years) (luck : Luck) :
    Shifts t luck name years ↔ luck.fate = .fine ∧ OldestFirst t luck name years := by
  have hplace : ∀ i ∈ visits t luck name, ∃ r, t.rows[i]? = some r ∧
      addYears years r = .ok (olderBy years r) ∧ (users Name).check (olderBy years r) = true := by
    intro i hi
    obtain ⟨row, hrow, hname⟩ := mem_visits.1 hi
    exact ⟨row, hrow, addYears_eq h (List.mem_of_getElem? hrow) hname⟩
  have hrows : (t.rows.map fun row => if row.name = name then olderBy years row else row) =
      Table.changed (olderBy years) (visits t luck name) t.rows := by
    refine List.ext_getElem? fun i => ?_
    rw [Table.getElem?_changed, List.getElem?_map]
    cases hrow : t.rows[i]? with
    | none => rfl
    | some row =>
      have hvisited : i ∈ visits t luck name ↔ row.name = name := by simp [mem_visits, hrow]
      simp only [Option.map_some, hvisited]
  have hupdate : t.updateWhere (·.name == name) (addYears years) luck.order =
      Table.update (addYears years) (visits t luck name) t := rfl
  rw [← inTurn_iff, ← Table.update_iff visits_nodup hplace, Shifts, increaseUserAge, hupdate, hrows]
  cases luck.fate with
  | broken => simp [work]
  | fine =>
    cases Table.update (addYears years) (visits t luck name) t with
    | error e => simp [work]
    | ok t' => simp [work]

/-- Two users named Alice, aged 25 and 30. -/
def alices : List (Luck × Call Bytes) :=
  [(⟨.fine, .fine, 1, [], []⟩, .registerUser (ascii "Alice") 25),
    (⟨.fine, .fine, 2, [], []⟩, .registerUser (ascii "Alice") 30)]

/-- The rows of these users. -/
def aliceRows : List (Row Bytes) :=
  [⟨1, ascii "Alice", some 25, some []⟩, ⟨2, ascii "Alice", some 30, some []⟩]

theorem inRange_alices {t : Users Bytes} (hrows : t.rows = aliceRows) : InRange t (ascii "Alice") 5 := by
  intro row hrow _ age hage
  rw [hrows, aliceRows, List.mem_cons, List.mem_singleton] at hrow
  rcases hrow with rfl | rfl
  · obtain rfl := Option.some.inj hage
    decide
  · obtain rfl := Option.some.inj hage
    decide

/-- The older one first. -/
theorem shifts_iff_alices : ∃ t, (calls Bytes).Reach t ∧ t.rows = aliceRows ∧
    Shifts t ⟨.fine, .fine, 0, [], [1, 0]⟩ (ascii "Alice") 5 := by
  obtain ⟨t, ht, hrun⟩ := Lts.exists_reachIf (calls Bytes) (fun _ _ => True) alices
    (fun t => t.rows = aliceRows ∧ visits t ⟨.fine, .fine, 0, [], [1, 0]⟩ (ascii "Alice") = [1, 0])
    (by decide)
  obtain ⟨hrows, hvisits⟩ := of_decide_eq_true hrun
  refine ⟨t, ht, hrows, (shifts_iff (inRange_alices hrows) _).2 ⟨rfl, ?_⟩⟩
  intro i j a b age ha hb hij _ _ hage hage'
  rw [hrows] at ha hb
  rw [hvisits]
  have hi : i < 2 := (List.getElem?_eq_some_iff.1 ha).1
  have hj : j < 2 := (List.getElem?_eq_some_iff.1 hb).1
  obtain ⟨rfl, rfl⟩ | ⟨rfl, rfl⟩ : i = 0 ∧ j = 1 ∨ i = 1 ∧ j = 0 := by omega
  · decide
  · obtain rfl := Option.some.inj ha
    obtain rfl := Option.some.inj hb
    obtain rfl := Option.some.inj hage
    simp at hage'

/-- **Two namesakes who collide.** The younger one is visited first, and takes the age of the older
one. -/
theorem alices_collide : ∃ t, (calls Bytes).Reach t ∧ t.rows = aliceRows ∧ InRange t (ascii "Alice") 5 ∧
    ¬ Shifts t ⟨.fine, .fine, 0, [], [0, 1]⟩ (ascii "Alice") 5 := by
  obtain ⟨t, ht, hrun⟩ := Lts.exists_reachIf (calls Bytes) (fun _ _ => True) alices
    (fun t => t.rows = aliceRows ∧
      (increaseUserAge t ⟨.fine, .fine, 0, [], [0, 1]⟩ (ascii "Alice") 5).2 = .error .uniqueViolation)
    (by decide)
  obtain ⟨hrows, herror⟩ := of_decide_eq_true hrun
  refine ⟨t, ht, hrows, inRange_alices hrows, ?_⟩
  rintro ⟨t', hok, -⟩
  rw [hok] at herror
  simp at herror

end BackendTasks.UserManager
