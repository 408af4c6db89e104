import BackendTasks.Spec.UserManager
import Mathlib.Data.Int.Interval

/-!
# The users table

* `call_error`: a call that throws leaves the table as it was, as long as no answer to a COMMIT is lost
  (`Fate`).
* `users_readable`: after any calls, every row has an age and a time of creation.
* `users_ok`: **the rows keep the constraints of the schema, and `getUsers` gives all of them in
  the order of their ids.**

The schema allows a null age and a null time. No function of `Database` stores one, and this is why
`dataCollection` does not throw.
-/

namespace BackendTasks.UserManager

open Net Sched Sql

variable {Name : Type} {row row' : Row Name}

/-! ## Rows without nulls -/

/-- A row that `dataCollection` can convert. -/
structure Readable (row : Row Name) : Prop where
  id_pos : 1 ≤ row.id
  id_le : row.id ≤ 2147483647
  age : row.age.isSome
  createdAt : row.createdAt.isSome

theorem updated_readable {newAge : ℤ} (h : Readable row)
    (heq : (.ok { row with age := some newAge } : Except SqlError (Row Name)) = .ok row') :
    Readable row' := by
  obtain rfl := Except.ok.inj heq
  exact { h with age := by simp }

theorem addYears_readable {years : ℤ} (h : Readable row) (heq : addYears years row = .ok row') :
    Readable row' := by
  unfold addYears at heq
  split at heq
  · obtain rfl := Except.ok.inj heq
    exact h
  · split at heq
    · exact updated_readable h heq
    · simp at heq

/-! ## A call that throws -/

variable [DecidableEq Name] {t t' : Users Name} {luck : Luck} {e : SqlError}

/-- A transaction that throws is rolled back. -/
theorem work_error {fate : Fate} {statement : Except SqlError (Users Name)}
    (h : work fate t statement = (t', .error e)) : t' = t := by
  unfold work at h
  split at h
  · simp at h
  · exact (Prod.ext_iff.1 h).1.symm
  · exact (Prod.ext_iff.1 h).1.symm

theorem registerUser_error {name : Name} {age : ℤ}
    (h : registerUser t luck name age = (t', .error e)) : t' = t := by
  unfold registerUser at h
  split at h
  · exact (Prod.ext_iff.1 h).1.symm
  · simp at h
  · exact work_error h

/-- **A call that throws leaves the table exactly as it was.** -/
theorem call_error {x : Call Name} (h : call t luck x = (t', .error e)) : t' = t := by
  cases x with
  | registerUser name age => exact registerUser_error h
  | addUser name age => exact work_error h
  | updateUserAge name newAge => exact work_error h
  | increaseUserAge name years => exact work_error h
  | deleteUser name => exact work_error h
  | clearUsers => exact work_error h

/-! ## No null is stored -/

def AllReadable (t : Users Name) : Prop := ∀ row ∈ t.rows, Readable row

theorem insertUser_readable {name : Name} {age : ℤ} (h : AllReadable t)
    (heq : insertUser t luck name age = .ok t') : AllReadable t' := by
  unfold insertUser at heq
  split at heq
  · rename_i hfresh
    intro row hrow
    rw [(Table.insert_ok heq).1] at hrow
    rcases List.mem_append.1 hrow with hrow | hrow
    · exact h row hrow
    · obtain rfl := List.mem_singleton.1 hrow
      exact ⟨hfresh.1, hfresh.2.1, rfl, rfl⟩
  · simp at heq

theorem updateWhere_readable {p : Row Name → Bool} {f : Row Name → Except SqlError (Row Name)}
    {order : List ℕ} (hf : ∀ row row', Readable row → f row = .ok row' → Readable row')
    (h : AllReadable t) (heq : t.updateWhere p f order = .ok t') : AllReadable t' := by
  obtain ⟨visited, -, hupdate, -⟩ := Table.updateWhere_eq t p f order
  rw [hupdate] at heq
  exact Table.update_forall hf h heq

theorem delete_readable {p : Row Name → Bool} (h : AllReadable t) : AllReadable (t.delete p) :=
  fun row hrow => h row (List.mem_of_mem_filter hrow)

/-- A transaction keeps the rows readable if its statement does. -/
theorem work_readable {fate : Fate} {statement : Except SqlError (Users Name)} (h : AllReadable t)
    (hstatement : ∀ t', statement = .ok t' → AllReadable t') :
    AllReadable (work fate t statement).1 := by
  unfold work
  split
  · exact hstatement _ rfl
  · exact h
  · exact h

theorem addUser_readable (h : AllReadable t) (luck : Luck) (name : Name) (age : ℤ) :
    AllReadable (addUser t luck name age).1 :=
  work_readable h fun _ heq => insertUser_readable h heq

theorem registerUser_readable (h : AllReadable t) (luck : Luck) (name : Name) (age : ℤ) :
    AllReadable (registerUser t luck name age).1 := by
  unfold registerUser
  split
  · exact h
  · exact h
  · exact addUser_readable h luck name age

theorem call_readable (h : AllReadable t) (luck : Luck) (x : Call Name) :
    AllReadable (call t luck x).1 := by
  cases x with
  | registerUser name age => exact registerUser_readable h luck name age
  | addUser name age => exact addUser_readable h luck name age
  | updateUserAge name newAge =>
    exact work_readable h fun _ heq =>
      updateWhere_readable (fun _ _ hrow => updated_readable hrow) h heq
  | increaseUserAge name years =>
    exact work_readable h fun _ heq =>
      updateWhere_readable (fun _ _ hrow => addYears_readable hrow) h heq
  | deleteUser name =>
    refine work_readable h fun _ heq => ?_
    obtain rfl := Except.ok.inj heq
    exact delete_readable h
  | clearUsers =>
    refine work_readable h fun _ heq => ?_
    obtain rfl := Except.ok.inj heq
    exact delete_readable h

/-- **After any calls**, every row has an id from `SERIAL`, an age and a time. -/
theorem users_readable {ok : Users Name → Luck × Call Name → Prop}
    (h : (calls Name).ReachIf ok t) : AllReadable t := by
  refine h.invariant (fun row hrow => absurd hrow List.not_mem_nil) fun t a t' _ ht _ hstep => ?_
  obtain rfl := Option.some.inj hstep
  exact call_readable ht a.1 a.2

/-! ## The constraints -/

theorem ids_nodup (t : Users Name) : (t.rows.map (·.id)).Nodup := by
  refine List.pairwise_map.2 (t.apart.imp fun {a b} hab => ?_)
  have hclash : sameKey a b = false := hab
  unfold sameKey at hclash
  intro hid
  simp [hid] at hclash

/-- The unique index tells rows apart by name and age if no age is null. -/
theorem pairs_nodup (h : AllReadable t) : (t.rows.map fun row => (row.name, row.age)).Nodup := by
  refine List.pairwise_map.2 (t.apart.imp_of_mem fun {a b} ha _ hab => ?_)
  have hclash : sameKey a b = false := hab
  have hage : a.age.isSome := (h a ha).age
  unfold sameKey at hclash
  intro hpair
  obtain ⟨hname, hage'⟩ := Prod.ext_iff.1 hpair
  simp only [Bool.or_eq_false_iff, Bool.and_eq_false_iff] at hclash
  rcases hclash.2 with (hne | hne) | hne
  · exact absurd hname (by simpa using hne)
  · exact absurd hage' (by simpa using hne)
  · simp [hage] at hne

theorem row_check (hrow : row ∈ t.rows) :
    isInt row.id = true ∧ ∀ age, row.age = some age → isInt age = true ∧ 0 < age := by
  have hcheck : (isInt row.id && row.age.all fun age => isInt age && 0 < age) = true := t.check row hrow
  simp only [Bool.and_eq_true] at hcheck
  refine ⟨hcheck.1, fun age hage => ?_⟩
  simpa [hage] using hcheck.2

theorem age_pos (h : AllReadable t) (hrow : row ∈ t.rows) : ∃ age, row.age = some age ∧ 0 < age := by
  obtain ⟨age, hage⟩ := Option.isSome_iff_exists.1 (h row hrow).age
  exact ⟨age, hage, ((row_check hrow).2 age hage).2⟩

/-! ## `getUsers` and `getUserCount` -/

/-- The row that a result shows. -/
def User.toRow (user : User Name) : Row Name :=
  ⟨user.id, user.name, some user.age, some user.createdAt⟩

/-- The row has no null. -/
def Row.Full (row : Row Name) : Prop := row.age.isSome ∧ row.createdAt.isSome

instance (row : Row Name) : Decidable row.Full := inferInstanceAs (Decidable (_ ∧ _))

/-- **`dataCollection` converts every row** that has no null, and each result shows its row. -/
theorem dataCollection_ok {res : List (Row Name)} (hfull : ∀ row ∈ res, row.Full)
    (hres : ∀ row ∈ res, row ∈ t.rows) : ∃ us, dataCollection res = .ok us ∧ us.map User.toRow = res := by
  induction res with
  | nil => exact ⟨[], rfl, rfl⟩
  | cons row res ih =>
    obtain ⟨⟨hage, hcreated⟩, hfull⟩ := List.forall_mem_cons.1 hfull
    obtain ⟨hrow, hrest⟩ := List.forall_mem_cons.1 hres
    obtain ⟨us, hus, hmap⟩ := ih hfull hrest
    obtain ⟨age, hage⟩ := Option.isSome_iff_exists.1 hage
    obtain ⟨createdAt, hcreated⟩ := Option.isSome_iff_exists.1 hcreated
    obtain ⟨hid, hageInt⟩ := row_check hrow
    refine ⟨⟨row.id, row.name, age, createdAt⟩ :: us, ?_, ?_⟩
    · have hconv : asInt (some row.id) = .ok row.id := if_pos hid
      have hconv' : asInt (some age) = .ok age := if_pos (hageInt age hage).1
      unfold dataCollection
      rw [hage, hcreated, hconv, hconv', hus]
      rfl
    · rw [List.map_cons, hmap]
      simp only [User.toRow, ← hage, ← hcreated]

omit [DecidableEq Name] in
/-- What `dataCollection` returns shows the rows. -/
theorem dataCollection_eq {res : List (Row Name)} {us : List (User Name)} (h : dataCollection res = .ok us) :
    us.map User.toRow = res := by
  have hint : ∀ {n : Option ℤ} {m}, asInt n = .ok m → n = some m := by
    intro n m hn
    cases n with
    | none => simp [asInt] at hn
    | some n =>
      simp only [asInt] at hn
      split at hn
      · rw [Except.ok.inj hn]
      · simp at hn
  have hstring : ∀ {text : Option Bytes} {str}, asString text = .ok str → text = some str := by
    intro text str htext
    cases text with
    | none => simp [asString] at htext
    | some text => rw [Except.ok.inj htext]
  induction res generalizing us with
  | nil =>
    obtain rfl := Except.ok.inj h
    rfl
  | cons row res ih =>
    obtain ⟨id, hid, h⟩ := bind_eq_ok.1 h
    obtain ⟨age, hage, h⟩ := bind_eq_ok.1 h
    obtain ⟨createdAt, hcreated, h⟩ := bind_eq_ok.1 h
    obtain ⟨more, hmore, h⟩ := bind_eq_ok.1 h
    obtain rfl := Except.ok.inj h
    rw [List.map_cons, ih hmore, User.toRow, ← Option.some.inj (hint hid), ← hint hage, ← hstring hcreated]

/-- ORDER BY id. -/
theorem sorted_rows (t : Users Name) :
    (t.rows.mergeSort fun a b => a.id ≤ b.id).Pairwise fun a b => a.id < b.id := by
  have hperm := List.mergeSort_perm t.rows fun a b => a.id ≤ b.id
  have hle : (t.rows.mergeSort fun a b => a.id ≤ b.id).Pairwise fun a b => a.id ≤ b.id := by
    refine (List.pairwise_mergeSort (fun a b c => ?_) (fun a b => ?_) t.rows).imp
      fun h => of_decide_eq_true h
    · simp only [decide_eq_true_eq]
      exact le_trans
    · simp only [Bool.or_eq_true, decide_eq_true_eq]
      exact le_total ..
  have hne : (t.rows.mergeSort fun a b => a.id ≤ b.id).Pairwise fun a b => a.id ≠ b.id :=
    List.pairwise_map.1 ((hperm.map Row.id).nodup_iff.2 (ids_nodup t))
  exact (hle.and hne).imp fun h => lt_of_le_of_ne h.1 h.2

/-- There are no more rows than ids. -/
theorem length_le (h : AllReadable t) : t.rows.length ≤ 2147483647 := by
  have hsub : (t.rows.map (·.id)).toFinset ⊆ Finset.Icc 1 2147483647 := by
    intro id hid
    obtain ⟨row, hrow, rfl⟩ := List.mem_map.1 (List.mem_toFinset.1 hid)
    exact Finset.mem_Icc.2 ⟨(h row hrow).id_pos, (h row hrow).id_le⟩
  have hcard := Finset.card_le_card hsub
  rw [List.toFinset_card_of_nodup (ids_nodup t), List.length_map, Int.card_Icc] at hcard
  simpa using hcard

theorem getUserCount_ok (h : AllReadable t) : getUserCount t = .ok t.rows.length := by
  have hle := length_le h
  have hint : isInt t.rows.length = true := by
    unfold isInt
    simp only [Bool.and_eq_true, decide_eq_true_eq]
    omega
  exact if_pos hint

/-- **`getUsers` does not throw.** It gives each row once, in the order of the ids. -/
theorem getUsers_ok (h : AllReadable t) :
    ∃ us, getUsers t = .ok us ∧ us.Pairwise (fun a b => a.id < b.id) ∧ (us.map User.toRow).Perm t.rows := by
  have hperm := List.mergeSort_perm t.rows fun a b => a.id ≤ b.id
  have hmem : ∀ row ∈ t.rows.mergeSort fun a b => a.id ≤ b.id, row ∈ t.rows :=
    fun row hrow => hperm.mem_iff.1 hrow
  have hfull : ∀ row ∈ t.rows.mergeSort fun a b => a.id ≤ b.id, row.Full :=
    fun row hrow => ⟨(h row (hmem row hrow)).age, (h row (hmem row hrow)).createdAt⟩
  obtain ⟨us, hus, hmap⟩ := dataCollection_ok hfull hmem
  refine ⟨us, hus, ?_, hmap ▸ hperm⟩
  have hsorted := sorted_rows t
  rw [← hmap] at hsorted
  exact List.pairwise_map (f := User.toRow) |>.1 hsorted

/-- **The users table.** After any calls, ids are unique, pairs of name and age are unique and every
age is positive; a call that throws changes nothing; and `getUsers` gives every row once, in the
order of the ids, and as many as `getUserCount` says. -/
theorem users_ok (h : (calls Name).Reach t) :
    (t.rows.map (·.id)).Nodup ∧ (t.rows.map fun row => (row.name, row.age)).Nodup ∧
    (∀ row ∈ t.rows, ∃ age, row.age = some age ∧ 0 < age) ∧
    (∀ luck x t' e, call t luck x = (t', .error e) → t' = t) ∧
    ∃ us, getUsers t = .ok us ∧ us.Pairwise (fun a b => a.id < b.id) ∧ (us.map User.toRow).Perm t.rows ∧
      getUserCount t = .ok us.length := by
  have hread := users_readable h
  obtain ⟨us, hus, hsorted, hperm⟩ := getUsers_ok hread
  refine ⟨ids_nodup t, pairs_nodup hread, fun row hrow => age_pos hread hrow,
    fun luck x t' e he => call_error he, us, hus, hsorted, hperm, ?_⟩
  rw [getUserCount_ok hread, ← hperm.length_eq, List.length_map]

/-- Two users of one name, both made older. -/
theorem users_ok_alice :
    ∃ t, (calls Bytes).Reach t ∧ (t.rows.map fun row => (row.id, row.age)) = [(1, some 30), (2, some 35)] ∧
      ∃ us, getUsers t = .ok us ∧ getUserCount t = .ok us.length := by
  obtain ⟨t, ht, hrows⟩ := Lts.exists_reachIf (calls Bytes) (fun _ _ => True)
    [(⟨.fine, .fine, 1, [], []⟩, .registerUser (ascii "Alice") 25),
      (⟨.fine, .fine, 2, [], []⟩, .registerUser (ascii "Alice") 30),
      (⟨.fine, .fine, 0, [], [1, 0]⟩, .increaseUserAge (ascii "Alice") 5)]
    (fun t => (t.rows.map fun row => (row.id, row.age)) = [(1, some 30), (2, some 35)]) (by decide)
  obtain ⟨-, -, -, -, us, hus, -, -, hcount⟩ := users_ok ht
  exact ⟨t, ht, of_decide_eq_true hrows, us, hus, hcount⟩

end BackendTasks.UserManager
