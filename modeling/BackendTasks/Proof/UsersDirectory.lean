import BackendTasks.Proof.UsersAges
import BackendTasks.Sched.Trace
import Mathlib.Data.Set.Card

/-!
# The users as a directory

What the program keeps is a set of names with ages (`Directory`). Each call changes it in one way
(`Call.apply`), and may be turned down (`Call.Allowed`).

* `service_refines`: the table is the directory that the calls so far make, those that threw left
  out; and a call succeeds just when the directory allows it and PostgreSQL is able to carry it out.
* `reads_directory`: what the reading functions give is read off the directory.
-/

namespace BackendTasks.UserManager

open Net Sched Sql

variable {Name : Type}

/-! ## Directories -/

/-- Names with ages. -/
abbrev Directory (Name : Type) := Set (Name × ℤ)

/-- The ages that the table takes. -/
def ValidAge (age : ℤ) : Prop := 0 < age ∧ age ≤ 2147483647

/-- The entry, with another age if it has the name. -/
def reage [DecidableEq Name] (name : Name) (k : ℤ → ℤ) (p : Name × ℤ) : Name × ℤ :=
  if p.1 = name then (p.1, k p.2) else p

/-- What a call makes of a directory. -/
def Call.apply [DecidableEq Name] (d : Directory Name) : Call Name → Directory Name
  | .registerUser name age => insert (name, age) d
  | .addUser name age => insert (name, age) d
  | .updateUserAge name newAge => reage name (fun _ => newAge) '' d
  | .increaseUserAge name years => reage name (· + years) '' d
  | .deleteUser name => {p ∈ d | p.1 ≠ name}
  | .clearUsers => ∅

/-- Whether the directory allows a call: only `registerUser` may name an entry that is there, and
namesakes cannot get the same age. -/
def Call.Allowed (d : Directory Name) : Call Name → Prop
  | .registerUser name age => (name, age) ∈ d ∨ ValidAge age
  | .addUser name age => (name, age) ∉ d ∧ ValidAge age
  | .updateUserAge name newAge =>
    ∀ age, (name, age) ∈ d → ValidAge newAge ∧ ∀ age', (name, age') ∈ d → age' = age
  | .increaseUserAge name years => ∀ age, (name, age) ∈ d → ValidAge (age + years)
  | .deleteUser _ => True
  | .clearUsers => True

variable [DecidableEq Name] {t t' : Users Name} {luck : Luck} {name : Name} {age newAge years : ℤ}
  {row : Row Name} {e : SqlError}

/-- The directory that the table holds. -/
def people (t : Users Name) : Directory Name :=
  {p | ∃ row ∈ t.rows, row.name = p.1 ∧ row.age = some p.2}

/-- Whether PostgreSQL is able to carry out a call. An INSERT takes an id, and an UPDATE of namesakes
an order in which they do not collide. -/
def Able (t : Users Name) (luck : Luck) : Call Name → Prop
  | .registerUser name age =>
    luck.select = .fine ∧ ((name, age) ∈ people t ∨ luck.fate = .fine ∧ Fresh t luck.id)
  | .addUser _ _ => luck.fate = .fine ∧ Fresh t luck.id
  | .updateUserAge _ _ => luck.fate = .fine
  | .increaseUserAge name years => luck.fate = .fine ∧ OldestFirst t luck name years
  | .deleteUser _ => luck.fate = .fine
  | .clearUsers => luck.fate = .fine

/-! ## What the statements do to the directory -/

theorem mem_people :
    (name, age) ∈ people t ↔ ∃ row ∈ t.rows, row.name = name ∧ row.age = some age := Iff.rfl

theorem people_insert {id : ℤ} {now : Option Bytes}
    (hrows : t'.rows = t.rows ++ [⟨id, name, some age, now⟩]) :
    people t' = insert (name, age) (people t) := by
  ext ⟨n, a⟩
  rw [Set.mem_insert_iff, Prod.mk.injEq, mem_people, mem_people, hrows]
  constructor
  · rintro ⟨row, hrow, hname, hage⟩
    rcases List.mem_append.1 hrow with hrow | hrow
    · exact .inr ⟨row, hrow, hname, hage⟩
    · obtain rfl := List.mem_singleton.1 hrow
      exact .inl ⟨hname.symm, (Option.some.inj hage).symm⟩
  · rintro (⟨rfl, rfl⟩ | ⟨row, hrow, hname, hage⟩)
    · exact ⟨_, List.mem_append_right _ (List.mem_singleton_self _), rfl, rfl⟩
    · exact ⟨row, List.mem_append_left _ hrow, hname, hage⟩

/-- A row whose age is changed, if it has one. -/
def withAge (k : ℤ → ℤ) (row : Row Name) : Row Name := { row with age := row.age.map k }

theorem people_update {k : ℤ → ℤ}
    (hrows : t'.rows = t.rows.map fun row => if row.name == name then withAge k row else row) :
    people t' = reage name k '' people t := by
  have hstep : ∀ (row : Row Name) (p : Name × ℤ), row.name = p.1 → row.age = some p.2 →
      (if row.name == name then withAge k row else row).name = (reage name k p).1 ∧
        (if row.name == name then withAge k row else row).age = some (reage name k p).2 := by
    intro row p hname hage
    by_cases h : row.name = name
    · simp [h, reage, withAge, hage, ← hname]
    · simp [h, reage, hage, ← hname]
  ext q
  rw [Set.mem_image]
  constructor
  · rintro ⟨row', hrow', hname', hage'⟩
    rw [hrows] at hrow'
    obtain ⟨row, hrow, rfl⟩ := List.mem_map.1 hrow'
    obtain ⟨age, hage⟩ : ∃ age, row.age = some age := by
      cases h : row.age with
      | some age => exact ⟨age, rfl⟩
      | none => by_cases hn : row.name = name <;> simp [hn, withAge, h] at hage'
    obtain ⟨hn, ha⟩ := hstep row (row.name, age) rfl hage
    exact ⟨(row.name, age), ⟨row, hrow, rfl, hage⟩,
      Prod.ext (hn.symm.trans hname') (Option.some.inj (ha.symm.trans hage'))⟩
  · rintro ⟨p, ⟨row, hrow, hname, hage⟩, rfl⟩
    obtain ⟨hn, ha⟩ := hstep row p hname hage
    exact ⟨_, hrows ▸ List.mem_map_of_mem hrow, hn, ha⟩

theorem people_delete (t : Users Name) (p : Row Name → Bool) :
    people (t.delete p) =
      {q | ∃ row ∈ t.rows, p row = false ∧ row.name = q.1 ∧ row.age = some q.2} := by
  ext q
  simp [people, Table.delete, and_assoc]

/-! ## When the statements succeed -/

theorem isInt_iff {n : ℤ} : isInt n = true ↔ -2147483648 ≤ n ∧ n ≤ 2147483647 := by
  rw [isInt, Bool.and_eq_true, decide_eq_true_iff, decide_eq_true_iff]

theorem validAge_of_row (hrow : row ∈ t.rows) (hage : row.age = some age) : ValidAge age := by
  obtain ⟨hint, hpos⟩ := (row_check hrow).2 age hage
  exact ⟨hpos, (isInt_iff.1 hint).2⟩

theorem check_withAge {id : ℤ} {now : Option Bytes} (hid : isInt id = true) (hage : ValidAge age) :
    (users Name).check ⟨id, name, some age, now⟩ = true := by
  obtain ⟨hpos, hle⟩ := hage
  have hint : isInt age = true := isInt_iff.2 ⟨by omega, hle⟩
  have hcheck : (users Name).check ⟨id, name, some age, now⟩ =
      (isInt id && (isInt age && 0 < age)) := rfl
  rw [hcheck, hid, hint, Bool.true_and, Bool.true_and, decide_eq_true_iff]
  exact hpos

/-- **When an INSERT succeeds**: just when there is an id, and the entry is new and valid. -/
theorem insertUser_iff (t : Users Name) (luck : Luck) (name : Name) (age : ℤ) :
    (∃ t', insertUser t luck name age = .ok t') ↔
      Fresh t luck.id ∧ (name, age) ∉ people t ∧ ValidAge age := by
  unfold insertUser
  by_cases hfresh : Fresh t luck.id
  · rw [if_pos hfresh]
    constructor
    · rintro ⟨t', h⟩
      obtain ⟨hrows, hnew⟩ := Table.insert_ok h
      have hrow : ⟨luck.id, name, some age, some luck.now⟩ ∈ t'.rows := by
        rw [hrows]
        exact List.mem_append_right _ (List.mem_singleton_self _)
      refine ⟨hfresh, ?_, validAge_of_row hrow rfl⟩
      rintro ⟨row, hrow, hname, hage⟩
      have hclash : sameKey row ⟨luck.id, name, some age, some luck.now⟩ = false := hnew row hrow
      have hsame : sameKey row ⟨luck.id, name, some age, some luck.now⟩ = true :=
        sameKey_iff.2 (.inr ⟨hname, age, hage, rfl⟩)
      rw [hsame] at hclash
      simp at hclash
    · rintro ⟨⟨hpos, hle, hids⟩, hnew, hvalid⟩
      obtain ⟨t', h, -⟩ := Table.insert_of (t := t) (r := ⟨luck.id, name, some age, some luck.now⟩)
        (check_withAge (isInt_iff.2 ⟨by omega, hle⟩) hvalid) (by
          intro row hrow
          change sameKey _ _ = false
          rw [← Bool.not_eq_true, sameKey_iff]
          rintro (hid | ⟨hname, age', hage, hage'⟩)
          · exact hids row hrow hid
          · obtain rfl := Option.some.inj hage'
            exact hnew ⟨row, hrow, hname, hage⟩)
      exact ⟨t', h⟩
  · rw [if_neg hfresh]
    exact iff_of_false (by simp) fun h => hfresh h.1

theorem insertUser_people (h : insertUser t luck name age = .ok t') :
    people t' = insert (name, age) (people t) := by
  unfold insertUser at h
  split at h
  · exact people_insert (Table.insert_ok h).1
  · simp at h

/-- A row with a certain age. -/
def atAge (newAge : ℤ) (row : Row Name) : Row Name := { row with age := some newAge }

/-- A namesake of a row is the row, if all of the name have one age. -/
theorem name_ne {i j : ℕ} {r b : Row Name} (h : AllReadable t)
    (hone : ∀ age, (r.name, age) ∈ people t → ∀ age', (r.name, age') ∈ people t → age' = age)
    (hr : t.rows[i]? = some r) (hb : t.rows[j]? = some b) (hji : j ≠ i) : b.name ≠ r.name := by
  intro hname
  have hrmem := List.mem_of_getElem? hr
  have hbmem := List.mem_of_getElem? hb
  obtain ⟨age, hage, -⟩ := age_pos h hrmem
  obtain ⟨age', hage', -⟩ := age_pos h hbmem
  obtain rfl := hone age ⟨r, hrmem, rfl, hage⟩ age' ⟨b, hbmem, hname, hage'⟩
  have hapart := apart_of_ne hb hr hji
  rw [sameKey_iff.2 (.inr ⟨hname, age', hage', hage⟩)] at hapart
  simp at hapart

/-- Rows without namesakes do not collide when they get another age. -/
theorem inTurn_atAge {visited : List ℕ} (h : AllReadable t)
    (hplace : ∀ i ∈ visited, ∃ row, t.rows[i]? = some row ∧ row.name = name)
    (hone : ∀ age, (name, age) ∈ people t → ∀ age', (name, age') ∈ people t → age' = age) :
    Table.InTurn (users Name) (atAge newAge) visited t.rows := by
  intro before i after hsplit r hr j a hji ha
  have hi : i ∈ visited := hsplit ▸ List.mem_append_right _ List.mem_cons_self
  obtain ⟨r', hr', rfl⟩ := hplace i hi
  obtain rfl := Option.some.inj (hr.symm.trans hr')
  rw [Table.getElem?_changed] at ha
  obtain ⟨b, hb, rfl⟩ := Option.map_eq_some_iff.1 ha
  have hname : b.name ≠ r.name := name_ne h hone hr hb hji
  have hj : j ∉ before := by
    intro hmem
    obtain ⟨b', hb', hname'⟩ := hplace j (hsplit ▸ List.mem_append_left _ hmem)
    obtain rfl := Option.some.inj (hb.symm.trans hb')
    exact hname hname'
  rw [if_neg hj]
  change sameKey _ _ = false
  rw [← Bool.not_eq_true, sameKey_iff]
  rintro (hid | ⟨hsame, -⟩)
  · have hapart := apart_of_ne hb hr hji
    have hclash : sameKey b r = true := sameKey_iff.2 (.inl hid)
    rw [hclash] at hapart
    simp at hapart
  · exact hname hsame

/-- **When all rows of a name get one age**: just when there is none, or one and the age is valid. -/
theorem update_age_iff (h : AllReadable t) (order : List ℕ) :
    (∃ t', t.updateWhere (·.name == name) (fun row => .ok (atAge newAge row)) order = .ok t') ↔
      (Call.updateUserAge name newAge).Allowed (people t) := by
  constructor
  · rintro ⟨t', ht'⟩ age hage
    obtain ⟨row, hrow, hname, hage⟩ := hage
    have hrows :
        t'.rows = t.rows.map fun row => if row.name == name then atAge newAge row else row :=
      Table.updateWhere_rows (fun _ _ hr => (Except.ok.inj hr).symm) ht'
    have hmoved : ∀ {i : ℕ} {row : Row Name}, t.rows[i]? = some row → row.name = name →
        t'.rows[i]? = some (atAge newAge row) := by
      intro i row hi hname
      simp [hrows, hi, hname]
    obtain ⟨i, hi⟩ := List.mem_iff_getElem?.1 hrow
    refine ⟨validAge_of_row (List.mem_of_getElem? (hmoved hi hname)) rfl, ?_⟩
    rintro age' ⟨row', hrow', hname', hage'⟩
    obtain ⟨j, hj⟩ := List.mem_iff_getElem?.1 hrow'
    by_cases hij : i = j
    · subst hij
      obtain rfl := Option.some.inj (hi.symm.trans hj)
      exact Option.some.inj (hage'.symm.trans hage)
    · -- two rows of the name would have one key
      have hapart := apart_of_ne (hmoved hi hname) (hmoved hj hname') hij
      have hsame : sameKey (atAge newAge row) (atAge newAge row') = true :=
        sameKey_iff.2 (.inr ⟨hname.trans hname'.symm, newAge, rfl, rfl⟩)
      rw [hsame] at hapart
      simp at hapart
  · intro hallowed
    obtain ⟨visited, hperm, hupdate, -⟩ :=
      Table.updateWhere_eq t (·.name == name) (fun row => .ok (atAge newAge row)) order
    have hnodup : visited.Nodup := hperm.nodup_iff.2 (List.nodup_range.filter _)
    have hplace : ∀ i ∈ visited, ∃ row, t.rows[i]? = some row ∧ row.name = name := by
      intro i hi
      obtain ⟨row, hrow, hname⟩ := Table.mem_places.1 (hperm.mem_iff.1 hi)
      exact ⟨row, hrow, by simpa using hname⟩
    have hvalid : ∀ i ∈ visited, ∃ row, t.rows[i]? = some row ∧
        (.ok (atAge newAge row) : Except SqlError (Row Name)) = .ok (atAge newAge row) ∧
          (users Name).check (atAge newAge row) = true := by
      intro i hi
      obtain ⟨row, hrow, hname⟩ := hplace i hi
      have hmem := List.mem_of_getElem? hrow
      obtain ⟨age, hage, -⟩ := age_pos h hmem
      have hnew : ValidAge newAge := (hallowed age ⟨row, hmem, hname, hage⟩).1
      exact ⟨row, hrow, rfl, check_withAge (row_check hmem).1 hnew⟩
    obtain ⟨t', ht', -⟩ := (Table.update_iff hnodup hvalid).2
      (inTurn_atAge h hplace fun age hage => (hallowed age hage).2)
    exact ⟨t', hupdate ▸ ht'⟩

theorem update_age_people {order : List ℕ} (h : AllReadable t)
    (ht' : t.updateWhere (·.name == name) (fun row => .ok (atAge newAge row)) order = .ok t') :
    people t' = reage name (fun _ => newAge) '' people t := by
  refine people_update ((Table.updateWhere_rows (fun _ _ hr => (Except.ok.inj hr).symm) ht').trans ?_)
  refine List.map_congr_left fun row hrow => ?_
  obtain ⟨age, hage⟩ := Option.isSome_iff_exists.1 (h row hrow).age
  have hsame : atAge newAge row = withAge (fun _ => newAge) row := by
    unfold atAge withAge
    rw [hage, Option.map_some]
  rw [hsame]

omit [DecidableEq Name] in
theorem addYears_older {row' : Row Name} (h : addYears years row = .ok row') :
    row' = olderBy years row := by
  unfold addYears at h
  cases hage : row.age with
  | none =>
    rw [hage] at h
    obtain rfl := Except.ok.inj h
    cases row
    simp_all [olderBy]
  | some age =>
    rw [hage] at h
    split at h
    · simp at *
    · rename_i hsome
      obtain rfl := Option.some.inj hsome
      split at h
      · obtain rfl := Except.ok.inj h
        unfold olderBy
        rw [hage, Option.map_some]
      · simp at h

theorem increase_people {order : List ℕ}
    (ht' : t.updateWhere (·.name == name) (addYears years) order = .ok t') :
    people t' = reage name (· + years) '' people t :=
  people_update (k := (· + years)) (Table.updateWhere_rows (fun _ _ => addYears_older) ht')

/-- **When all namesakes grow older**: just when their ages stay valid and they do not collide. -/
theorem increase_iff (t : Users Name) (luck : Luck) (name : Name) (years : ℤ) :
    (∃ t', t.updateWhere (·.name == name) (addYears years) luck.order = .ok t') ↔
      (Call.increaseUserAge name years).Allowed (people t) ∧ OldestFirst t luck name years := by
  have hrange : (Call.increaseUserAge name years).Allowed (people t) ↔ InRange t name years :=
    ⟨fun h row hrow hname age hage => h age ⟨row, hrow, hname, hage⟩,
      fun h age ⟨row, hrow, hname, hage⟩ => h row hrow hname age hage⟩
  have hupdate : t.updateWhere (·.name == name) (addYears years) luck.order =
      Table.update (addYears years) (visits t luck name) t := rfl
  have hplace : InRange t name years → ∀ i ∈ visits t luck name, ∃ row, t.rows[i]? = some row ∧
      addYears years row = .ok (olderBy years row) ∧
        (users Name).check (olderBy years row) = true := by
    intro hvalid i hi
    obtain ⟨row, hrow, hname⟩ := mem_visits.1 hi
    exact ⟨row, hrow, addYears_eq hvalid (List.mem_of_getElem? hrow) hname⟩
  rw [hrange, ← inTurn_iff]
  constructor
  · rintro ⟨t', ht'⟩
    have hvalid : InRange t name years := by
      intro row hrow hname age hage
      have hmem : olderBy years row ∈ t'.rows := by
        rw [Table.updateWhere_rows (fun _ _ => addYears_older) ht']
        exact List.mem_map.2 ⟨row, hrow, by simp [hname]⟩
      exact validAge_of_row hmem (by rw [olderBy, hage, Option.map_some])
    rw [hupdate] at ht'
    exact ⟨hvalid, (Table.update_iff visits_nodup (hplace hvalid)).1
      ⟨t', ht', Table.update_rows visits_nodup (fun _ _ => addYears_older) ht'⟩⟩
  · rintro ⟨hvalid, hturn⟩
    obtain ⟨t', ht', -⟩ := (Table.update_iff visits_nodup (hplace hvalid)).2 hturn
    exact ⟨t', hupdate.trans ht'⟩

/-! ## Calls -/

theorem work_iff {fate : Fate} {statement : Except SqlError (Users Name)} :
    (work fate t statement).2 = .ok () ↔ fate = .fine ∧ ∃ t', statement = .ok t' := by
  cases fate <;> cases statement <;> simp [work]

/-- A transaction that succeeds leaves what its statement gives. -/
theorem work_people {fate : Fate} {statement : Except SqlError (Users Name)} {d : Directory Name}
    (hstatement : ∀ t', statement = .ok t' → people t' = d)
    (h : (work fate t statement).2 = .ok ()) :
    people (work fate t statement).1 = d := by
  obtain ⟨rfl, t', rfl⟩ := work_iff.1 h
  exact hstatement t' rfl

theorem userExists_iff (t : Users Name) (name : Name) (age : ℤ) :
    userExists .fine t name age = .ok true ↔ (name, age) ∈ people t := by
  simp [userExists, mem_people]

theorem userExists_not (t : Users Name) (name : Name) (age : ℤ) :
    userExists .fine t name age = .ok false ↔ (name, age) ∉ people t := by
  simp [userExists, mem_people]

/-- What `registerUser` does when the first transaction works. -/
theorem registerUser_known (hselect : luck.select = .fine) (h : (name, age) ∈ people t) :
    registerUser t luck name age = (t, .ok ()) := by
  simp only [registerUser, hselect, (userExists_iff t name age).2 h]

theorem registerUser_new (hselect : luck.select = .fine) (h : (name, age) ∉ people t) :
    registerUser t luck name age = addUser t luck name age := by
  simp only [registerUser, hselect, (userExists_not t name age).2 h]

theorem registerUser_broken (hselect : luck.select ≠ .fine) :
    registerUser t luck name age = (t, .error .brokenConnection) := by
  cases hfate : luck.select with
  | fine => exact absurd hfate hselect
  | broken => simp only [registerUser, userExists, hfate]

theorem addUser_iff (t : Users Name) (luck : Luck) (name : Name) (age : ℤ) :
    (addUser t luck name age).2 = .ok () ↔
      luck.fate = .fine ∧ Fresh t luck.id ∧ (name, age) ∉ people t ∧ ValidAge age := by
  rw [addUser, work_iff, insertUser_iff]

/-- **When a call succeeds**: just when the directory allows it and PostgreSQL is able to carry it
out. -/
theorem call_iff (h : AllReadable t) (luck : Luck) (x : Call Name) :
    (call t luck x).2 = .ok () ↔ x.Allowed (people t) ∧ Able t luck x := by
  cases x with
  | registerUser name age =>
    change (registerUser t luck name age).2 = .ok () ↔ (_ ∨ _) ∧ _ ∧ (_ ∨ _)
    by_cases hselect : luck.select = .fine
    · by_cases hknown : (name, age) ∈ people t
      · rw [registerUser_known hselect hknown]
        exact iff_of_true rfl ⟨.inl hknown, hselect, .inl hknown⟩
      · rw [registerUser_new hselect hknown, addUser_iff]
        tauto
    · rw [registerUser_broken hselect]
      exact iff_of_false (by simp) fun h => hselect h.2.1
  | addUser name age =>
    change (addUser t luck name age).2 = .ok () ↔ (_ ∧ _) ∧ _ ∧ _
    rw [addUser_iff]
    tauto
  | updateUserAge name newAge =>
    change (work _ _ _).2 = .ok () ↔ _
    rw [work_iff, and_comm]
    exact and_congr_left fun _ => update_age_iff h luck.order
  | increaseUserAge name years =>
    change (work _ _ _).2 = .ok () ↔ _ ∧ luck.fate = .fine ∧ _
    rw [work_iff, increase_iff]
    tauto
  | deleteUser name =>
    change (work _ _ _).2 = .ok () ↔ True ∧ luck.fate = .fine
    rw [work_iff]
    simp
  | clearUsers =>
    change (work _ _ _).2 = .ok () ↔ True ∧ luck.fate = .fine
    rw [work_iff]
    simp

/-- **What a call that succeeds does to the directory.** -/
theorem call_people (h : AllReadable t) {x : Call Name} (hok : (call t luck x).2 = .ok ()) :
    people (call t luck x).1 = x.apply (people t) := by
  cases x with
  | registerUser name age =>
    obtain ⟨-, hselect, -⟩ := (call_iff h luck (.registerUser name age)).1 hok
    change people (registerUser t luck name age).1 = insert (name, age) (people t)
    by_cases hknown : (name, age) ∈ people t
    · rw [registerUser_known hselect hknown, Set.insert_eq_of_mem hknown]
    · change (registerUser t luck name age).2 = .ok () at hok
      rw [registerUser_new hselect hknown] at hok ⊢
      exact work_people (fun _ => insertUser_people) hok
  | addUser name age => exact work_people (fun _ => insertUser_people) hok
  | updateUserAge name newAge => exact work_people (fun _ => update_age_people h) hok
  | increaseUserAge name years => exact work_people (fun _ => increase_people) hok
  | deleteUser name =>
    refine work_people (fun t' ht' => ?_) hok
    obtain rfl := Except.ok.inj ht'
    rw [people_delete]
    ext ⟨n, a⟩
    constructor
    · rintro ⟨row, hrow, hother, hname, hage⟩
      exact ⟨⟨row, hrow, hname, hage⟩, fun heq => by simp_all⟩
    · rintro ⟨⟨row, hrow, hname, hage⟩, hother⟩
      exact ⟨row, hrow, by simp_all, hname, hage⟩
  | clearUsers =>
    refine work_people (fun t' ht' => ?_) hok
    obtain rfl := Except.ok.inj ht'
    rw [people_delete]
    ext p
    simp [Call.apply]

/-- The call of a step did not throw. -/
def answered (e : Edge (Users Name) (Luck × Call Name)) : Bool :=
  (call e.before e.label.1 e.label.2).2.isOk

theorem answered_iff (e : Edge (Users Name) (Luck × Call Name)) :
    answered e = true ↔ (call e.before e.label.1 e.label.2).2 = .ok () := by
  unfold answered
  cases (call e.before e.label.1 e.label.2).2 <;> simp [Except.isOk, Except.toBool]

/-- A call that throws leaves the table as it was. -/
theorem call_unchanged {x : Call Name} (h : (call t luck x).2 ≠ .ok ()) :
    (call t luck x).1 = t := by
  cases hresult : (call t luck x).2 with
  | ok u => exact absurd hresult h
  | error e => exact call_error (Prod.ext rfl hresult)

/-- **The program keeps a directory.** After any calls, the table is the directory that those which
did not throw make, one after the other. A call succeeds just when this directory allows it and
PostgreSQL is able to carry it out, and one that throws leaves the table as it was. This rests on the
assumption about COMMIT (`Fate`): a call whose COMMIT was executed and not answered would throw and
count among those that make the directory. -/
theorem service_refines {ok : Users Name → Luck × Call Name → Prop}
    {tr : List (Edge (Users Name) (Luck × Call Name))} (h : (calls Name).Traced ok tr t) :
    people t = tr.foldr (fun e d => if answered e then e.label.2.apply d else d) ∅ ∧
      (∀ luck x, (call t luck x).2 = .ok () ↔ x.Allowed (people t) ∧ Able t luck x) ∧
      ∀ luck x, (call t luck x).2 ≠ .ok () → (call t luck x).1 = t := by
  refine ⟨?_, fun luck x => call_iff (users_readable h.reach) luck x, fun luck x => call_unchanged⟩
  have hinit : people (calls Name).init = ∅ := by
    ext p
    simp [people, calls, Table.empty]
  rw [← hinit]
  refine h.folded people fun t a t' ht _ hs => ?_
  obtain rfl := Option.some.inj hs
  by_cases hok : (call t a.1 a.2).2 = .ok ()
  · rw [if_pos ((answered_iff ⟨t, a, _⟩).2 hok)]
    exact call_people (users_readable ht) hok
  · rw [if_neg (fun hanswered => hok ((answered_iff ⟨t, a, _⟩).1 hanswered)), call_unchanged hok]

/-- Alice is registered twice and grows older; then there is a second Alice, and the ages cannot be
made equal. -/
theorem service_refines_alice :
    ∃ (t : Users Bytes) (tr : List (Edge (Users Bytes) (Luck × Call Bytes))),
    (calls Bytes).Traced (fun _ _ => True) tr t ∧ tr.length = 5 ∧
      tr.map answered = [false, true, true, true, true] ∧
      people t = tr.foldr (fun e d => if answered e then e.label.2.apply d else d) ∅ := by
  obtain ⟨tr, t, htr, hend⟩ := Lts.exists_traced (calls Bytes) (fun _ _ => True)
    [(⟨.fine, .fine, 1, [], []⟩, .registerUser (ascii "Alice") 25),
      (⟨.fine, .fine, 2, [], []⟩, .registerUser (ascii "Alice") 25),
      (⟨.fine, .fine, 0, [], [0]⟩, .increaseUserAge (ascii "Alice") 5),
      (⟨.fine, .fine, 2, [], []⟩, .addUser (ascii "Alice") 25),
      (⟨.fine, .fine, 0, [], []⟩, .updateUserAge (ascii "Alice") 40)]
    (fun tr _ => tr.length == 5 && tr.map answered == [false, true, true, true, true]) (by decide)
  rw [Bool.and_eq_true, beq_iff_eq, beq_iff_eq] at hend
  exact ⟨t, tr, htr, hend.1, hend.2, (service_refines htr).1⟩

/-! ## Reading -/

theorem people_ncard (h : AllReadable t) : (people t).ncard = t.rows.length := by
  have hset : people t =
      ((t.rows.map fun row => (row.name, row.age.getD 0)).toFinset : Set (Name × ℤ)) := by
    ext ⟨n, a⟩
    simp only [List.coe_toFinset, List.mem_map, Set.mem_ofPred_eq, Prod.mk.injEq, mem_people]
    refine exists_congr fun row => and_congr_right fun hrow => and_congr_right fun _ => ?_
    obtain ⟨age, hage⟩ := Option.isSome_iff_exists.1 (h row hrow).age
    simp [hage]
  have hnodup : (t.rows.map fun row => (row.name, row.age.getD 0)).Nodup := by
    have hpairs := List.pairwise_map.1 (pairs_nodup h)
    refine List.pairwise_map.2 (hpairs.imp_of_mem fun {a b} ha hb hab heq => hab ?_)
    obtain ⟨age, hage⟩ := Option.isSome_iff_exists.1 (h a ha).age
    obtain ⟨age', hage'⟩ := Option.isSome_iff_exists.1 (h b hb).age
    simp only [hage, hage', Option.getD_some, Prod.mk.injEq] at heq ⊢
    exact ⟨heq.1, congrArg some heq.2⟩
  rw [hset, Set.ncard_coe_finset, List.toFinset_card_of_nodup hnodup, List.length_map]

/-- `getUserByAgeRange` shows the rows with an age in the range, in the order of their ages. -/
theorem getUserByAgeRange_ok (h : AllReadable t) (scan : List (Row Name)) (minAge maxAge : ℤ) :
    ∃ us, getUserByAgeRange t scan minAge maxAge = .ok us ∧ us.Pairwise (fun a b => a.age ≤ b.age) ∧
      (us.map User.toRow).Perm
        (t.rows.filter fun row => row.age.any fun age => minAge ≤ age && age ≤ maxAge) := by
  have hperm : (orderBy ((SortOrder.linear ℤ).nullsLast.on (·.age))
      ((t.scan scan).filter fun row => row.age.any fun age => minAge ≤ age && age ≤ maxAge)).Perm
        (t.rows.filter fun row => row.age.any fun age => minAge ≤ age && age ≤ maxAge) :=
    (orderBy_perm _ _).trans ((t.scan_perm scan).filter _)
  have hmem := fun row hrow => List.mem_of_mem_filter (hperm.mem_iff (a := row).1 hrow)
  obtain ⟨us, hus, hmap⟩ := dataCollection_ok
    (fun row hrow => ⟨(h row (hmem row hrow)).age, (h row (hmem row hrow)).createdAt⟩) hmem
  refine ⟨us, hus, ?_, hmap ▸ hperm⟩
  have hsorted := orderBy_sorted ((SortOrder.linear ℤ).nullsLast.on (fun row : Row Name => row.age))
    ((t.scan scan).filter fun row => row.age.any fun age => minAge ≤ age && age ≤ maxAge)
  rw [Sorted, ← hmap, List.pairwise_map] at hsorted
  exact hsorted.imp fun hle => of_decide_eq_true hle

/-- **What is read is the directory.** After any calls, on a connection that works, `userExists`
tells which entries and which names there are, `getUserCount` how many, and `getUserByAgeRange`,
whatever the order in which the rows are met, gives each entry whose age is in the range once, in the
order of the ages. -/
theorem reads_directory {ok : Users Name → Luck × Call Name → Prop}
    (h : (calls Name).ReachIf ok t) :
    (∀ name age, userExists .fine t name age = .ok true ↔ (name, age) ∈ people t) ∧
    (∀ name, userExistsNamed .fine t name = .ok true ↔ ∃ age, (name, age) ∈ people t) ∧
    getUserCount t = .ok (people t).ncard ∧
    ∀ scan minAge maxAge, ∃ us, getUserByAgeRange t scan minAge maxAge = .ok us ∧
      us.Pairwise (fun a b => a.age ≤ b.age) ∧ (us.map fun u => (u.name, u.age)).Nodup ∧
      ∀ name age, (name, age) ∈ us.map (fun u => (u.name, u.age)) ↔
        (name, age) ∈ people t ∧ minAge ≤ age ∧ age ≤ maxAge := by
  have hread := users_readable h
  refine ⟨userExists_iff t, fun name => ?_, ?_, fun scan minAge maxAge => ?_⟩
  · have hage : (∃ age, (name, age) ∈ people t) ↔ ∃ row ∈ t.rows, row.name = name := by
      constructor
      · rintro ⟨age, row, hrow, hname, -⟩
        exact ⟨row, hrow, hname⟩
      · rintro ⟨row, hrow, hname⟩
        obtain ⟨age, hage, -⟩ := age_pos hread hrow
        exact ⟨age, row, hrow, hname, hage⟩
    rw [hage]
    simp [userExistsNamed]
  · rw [people_ncard hread]
    exact getUserCount_ok hread
  · obtain ⟨us, hus, hsorted, hperm⟩ := getUserByAgeRange_ok hread scan minAge maxAge
    have hpairs : (us.map fun u => (u.name, some u.age)) =
        (us.map User.toRow).map fun row => (row.name, row.age) := by
      rw [List.map_map]
      rfl
    have hnodup : (us.map fun u => (u.name, some u.age)).Nodup := by
      rw [hpairs, (hperm.map _).nodup_iff]
      exact (pairs_nodup hread).sublist (List.filter_sublist.map _)
    refine ⟨us, hus, hsorted, ?_, fun name age => ?_⟩
    · have hsome : (us.map fun u => (u.name, some u.age)) =
          (us.map fun u => (u.name, u.age)).map fun p => (p.1, some p.2) := by
        rw [List.map_map]
        rfl
      rw [hsome] at hnodup
      exact hnodup.of_map _
    · have hshown : (name, age) ∈ us.map (fun u => (u.name, u.age)) ↔
          ∃ row ∈ us.map User.toRow, row.name = name ∧ row.age = some age := by
        simp [User.toRow]
      rw [hshown, mem_people]
      constructor
      · rintro ⟨row, hrow, hname, hage⟩
        have hin := hperm.mem_iff.1 hrow
        rw [List.mem_filter, hage] at hin
        exact ⟨⟨row, hin.1, hname, hage⟩, by simpa using hin.2⟩
      · rintro ⟨⟨row, hrow, hname, hage⟩, hrange⟩
        refine ⟨row, hperm.mem_iff.2 (List.mem_filter.2 ⟨hrow, ?_⟩), hname, hage⟩
        rw [hage]
        simpa using hrange

/-- One of two users is in the range. -/
theorem reads_directory_bob : ∃ (t : Users Bytes) (us : List (User Bytes)),
    (calls Bytes).Reach t ∧ getUserByAgeRange t [] 20 26 = .ok us ∧
      (ascii "Alice", 25) ∈ us.map (fun u => (u.name, u.age)) ∧
      (ascii "Bob", 30) ∉ us.map (fun u => (u.name, u.age)) ∧
      userExistsNamed .fine t (ascii "Bob") = .ok true := by
  obtain ⟨t, ht, hrows⟩ := Lts.exists_reachIf (calls Bytes) (fun _ _ => True)
    [(⟨.fine, .fine, 1, [], []⟩, .registerUser (ascii "Alice") 25),
      (⟨.fine, .fine, 2, [], []⟩, .registerUser (ascii "Bob") 30)]
    (fun t => t.rows = [⟨1, ascii "Alice", some 25, some []⟩, ⟨2, ascii "Bob", some 30, some []⟩])
    (by decide)
  have hrows := of_decide_eq_true hrows
  have halice : (ascii "Alice", 25) ∈ people t := ⟨_, hrows ▸ List.mem_cons_self, rfl, rfl⟩
  have hbob : (ascii "Bob", 30) ∈ people t :=
    ⟨_, hrows ▸ List.mem_cons_of_mem _ List.mem_cons_self, rfl, rfl⟩
  obtain ⟨-, hnamed, -, hrange⟩ := reads_directory ht
  obtain ⟨us, hus, -, -, hin⟩ := hrange [] 20 26
  exact ⟨t, us, ht, hus, (hin _ _).2 ⟨halice, by decide, by decide⟩,
    fun hmem => absurd ((hin _ _).1 hmem).2.2 (by decide), (hnamed _).2 ⟨30, hbob⟩⟩

end BackendTasks.UserManager
