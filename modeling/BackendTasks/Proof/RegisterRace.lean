import BackendTasks.Spec.UserManager

/-!
# Registrations at once

* `register_alone`: if no client inserts while another client that registers the same name and age
  is about to insert, **every call returns and each of the users is stored once**.
* `rival_doomed`: any other INSERT leaves a client that never returns: its own INSERT breaks the
  unique index, and it throws.

`userExists` and `addUser` are two transactions, so what the first one saw may be outdated in the
second one.
-/

namespace BackendTasks.UserManager

open Net Sched Sql

variable {Name : Type} [DecidableEq Name] {t t' : Users Name} {r r' : Registration Name}

/-! ## The rows of a registration -/

/-- The key of the unique index. -/
def Registration.pair (r : Registration Name) : Name × ℤ := (r.name, r.age)

/-- Whether a row is that of the registered user. -/
def Registration.holds (r : Registration Name) (row : Row Name) : Bool :=
  row.name == r.name && row.age == some r.age

/-- The user is in the table. -/
def Stored (r : Registration Name) (t : Users Name) : Prop := ∃ row ∈ t.rows, r.holds row = true

/-- The row that `addUser` inserts. -/
def Registration.row (r : Registration Name) (id : ℤ) (now : Bytes) : Row Name :=
  ⟨id, r.name, some r.age, some now⟩

theorem holds_row {id : ℤ} {now : Bytes} : r'.holds (r.row id now) = true ↔ r'.pair = r.pair := by
  unfold Registration.holds Registration.row Registration.pair
  simp only [Bool.and_eq_true, beq_iff_eq, Option.some.injEq, Prod.mk.injEq]
  constructor
  · rintro ⟨hname, hage⟩
    exact ⟨hname.symm, hage.symm⟩
  · rintro ⟨hname, hage⟩
    exact ⟨hname.symm, hage.symm⟩

theorem holds_congr (h : r.pair = r'.pair) {row : Row Name} : r.holds row = r'.holds row := by
  have hname : r.name = r'.name := (Prod.ext_iff.1 h).1
  have hage : r.age = r'.age := (Prod.ext_iff.1 h).2
  unfold Registration.holds
  rw [hname, hage]

/-- Rows of one registration have the same key in the unique index. -/
theorem holds_clash {a b : Row Name} (ha : r.holds a = true) (hb : r.holds b = true) :
    sameKey a b = true := by
  unfold Registration.holds at ha hb
  simp only [Bool.and_eq_true, beq_iff_eq] at ha hb
  unfold sameKey
  simp [ha.1, ha.2, hb.1, hb.2]

/-- A registered user has at most one row. -/
theorem countP_le_one (r : Registration Name) (t : Users Name) : t.rows.countP r.holds ≤ 1 := by
  have hapart : (t.rows.filter r.holds).Pairwise fun a b => sameKey a b = false := t.apart.filter _
  rw [List.countP_eq_length_filter]
  match hrows : t.rows.filter r.holds with
  | [] => exact Nat.zero_le 1
  | [_] => exact le_rfl
  | a :: b :: rest =>
    have hmem : ∀ c ∈ a :: b :: rest, r.holds c = true := fun c hc =>
      (List.mem_filter.1 (hrows ▸ hc)).2
    rw [hrows] at hapart
    have hab : sameKey a b = false := (List.pairwise_cons.1 hapart).1 b List.mem_cons_self
    rw [holds_clash (hmem a List.mem_cons_self)
      (hmem b (List.mem_cons_of_mem _ List.mem_cons_self))] at hab
    simp at hab

theorem Stored.countP (h : Stored r t) : t.rows.countP r.holds = 1 := by
  have hpos : 0 < t.rows.countP r.holds := List.countP_pos_iff.2 h
  have hle := countP_le_one r t
  omega

theorem Stored.append {rows : List (Row Name)} (h : Stored r t) (hrows : t'.rows = t.rows ++ rows) :
    Stored r t' := by
  obtain ⟨row, hrow, hholds⟩ := h
  exact ⟨row, hrows ▸ List.mem_append_left _ hrow, hholds⟩

theorem stored_inserted {id : ℤ} {now : Bytes} (hrows : t'.rows = t.rows ++ [r.row id now]) : Stored r t' :=
  ⟨_, by rw [hrows]; exact List.mem_append_right _ (List.mem_singleton_self _), holds_row.2 rfl⟩

/-! ## The two transactions -/

theorem userExists_eq (r : Registration Name) (t : Users Name) :
    userExists .fine t r.name r.age = .ok (t.rows.any r.holds) := rfl

theorem any_holds : t.rows.any r.holds = true ↔ Stored r t := List.any_eq_true

/-- **A new user is inserted.** -/
theorem insertUser_of (luck : Luck) (hfresh : Fresh t luck.id) (hnew : ¬ Stored r t) :
    ∃ t', insertUser t luck r.name r.age = .ok t' ∧ t'.rows = t.rows ++ [r.row luck.id luck.now] := by
  have hcheck : (users Name).check (r.row luck.id luck.now) = true := by
    have hpos := r.pos
    have hle := r.le
    have hid := hfresh.1
    have hid' := hfresh.2.1
    unfold users isInt Registration.row
    simp only [Option.all_some, Bool.and_eq_true, decide_eq_true_eq]
    omega
  have hclash : ∀ a ∈ t.rows, (users Name).clash a (r.row luck.id luck.now) = false := by
    intro a ha
    have hid : a.id ≠ luck.id := hfresh.2.2 a ha
    have hholds : r.holds a = false := by
      by_contra h
      exact hnew ⟨a, ha, by simpa using h⟩
    unfold Registration.holds at hholds
    change sameKey a (r.row luck.id luck.now) = false
    unfold sameKey Registration.row
    simp only [Bool.or_eq_false_iff, beq_eq_false_iff_ne]
    refine ⟨hid, ?_⟩
    rw [hholds, Bool.false_and]
  obtain ⟨t', ht', hrows⟩ := Table.insert_of hcheck hclash
  refine ⟨t', ?_, hrows⟩
  unfold insertUser
  rw [if_pos hfresh]
  exact ht'

/-- A user that is there is not. -/
theorem insertUser_stored (luck : Luck) (h : Stored r t) :
    ∃ e, insertUser t luck r.name r.age = .error e := by
  obtain ⟨a, ha, hholds⟩ := h
  unfold insertUser
  split
  · exact Table.insert_clash ha (holds_clash hholds (holds_row.2 rfl))
  · exact ⟨_, rfl⟩

/-! ## One step -/

variable {ι : Type} {request : ι → Registration Name} {i : ι} {p p' : Pc} {x : Txn}

/-- **What a client's step can do.** -/
theorem clientStep_cases (h : clientStep request i t p x = some (t', p')) :
    (p = .calling ∧ t' = t ∧
      ((Stored (request i) t ∧ p' = .returned) ∨ (¬ Stored (request i) t ∧ p' = .inserting))) ∨
    (p = .inserting ∧ ∃ id now, x = .insert id now ∧
      ((¬ Stored (request i) t ∧ p' = .returned ∧ t'.rows = t.rows ++ [(request i).row id now]) ∨
        (Stored (request i) t ∧ p' = .threw ∧ t' = t))) := by
  unfold clientStep at h
  split at h
  · rw [userExists_eq] at h
    by_cases hstored : Stored (request i) t
    · rw [any_holds.2 hstored] at h
      cases h
      exact .inl ⟨rfl, rfl, .inl ⟨hstored, rfl⟩⟩
    · rw [Bool.eq_false_iff.2 (mt any_holds.1 hstored)] at h
      cases h
      exact .inl ⟨rfl, rfl, .inr ⟨hstored, rfl⟩⟩
  · rename_i id now
    split at h
    · rename_i hfresh
      refine .inr ⟨rfl, id, now, rfl, ?_⟩
      unfold addUser work at h
      by_cases hstored : Stored (request i) t
      · obtain ⟨e, he⟩ := insertUser_stored ⟨.fine, .fine, id, now, []⟩ hstored
        rw [he] at h
        cases h
        exact .inr ⟨hstored, rfl, rfl⟩
      · obtain ⟨t₁, ht₁, hrows⟩ := insertUser_of ⟨.fine, .fine, id, now, []⟩ hfresh hstored
        rw [ht₁] at h
        cases h
        exact .inl ⟨hstored, rfl, hrows⟩
    · simp at h
  · simp at h

/-- A client that has not ended has a next step, if there is an id left. -/
theorem clientStep_ready (hfresh : ∃ id, Fresh t id) (hp : p = .calling ∨ p = .inserting) :
    ∃ x t' p', clientStep request i t p x = some (t', p') := by
  rcases hp with rfl | rfl
  · refine ⟨.select, ?_⟩
    unfold clientStep
    rw [userExists_eq]
    cases t.rows.any (request i).holds with
    | true => exact ⟨t, .returned, rfl⟩
    | false => exact ⟨t, .inserting, rfl⟩
  · obtain ⟨id, hid⟩ := hfresh
    refine ⟨.insert id [], ?_⟩
    unfold clientStep addUser work
    simp only [if_pos hid]
    cases insertUser t ⟨.fine, .fine, id, [], []⟩ (request i).name (request i).age with
    | ok t' => exact ⟨t', .returned, rfl⟩
    | error e => exact ⟨t, .threw, rfl⟩

/-- How many transactions a call still has to make. -/
def Pc.left : Pc → ℕ
  | .calling => 2
  | .inserting => 1
  | .returned | .threw => 0

/-- Every step brings a call nearer to its end. -/
theorem clientStep_left (h : clientStep request i t p x = some (t', p')) : p'.left < p.left := by
  rcases clientStep_cases h with ⟨rfl, -, ⟨-, rfl⟩ | ⟨-, rfl⟩⟩ | ⟨rfl, -, -, -, ⟨-, rfl, -⟩ | ⟨-, rfl, -⟩⟩
  all_goals decide

/-- No row is removed. -/
theorem clientStep_rows (h : clientStep request i t p x = some (t', p')) :
    ∃ rows, t'.rows = t.rows ++ rows := by
  rcases clientStep_cases h with ⟨-, rfl, -⟩ | ⟨-, id, now, -, ⟨-, -, hins⟩ | ⟨-, -, rfl⟩⟩
  · exact ⟨[], (List.append_nil _).symm⟩
  · exact ⟨_, hins⟩
  · exact ⟨[], (List.append_nil _).symm⟩

/-- What a client may rely on while the others leave its user to it. -/
def Knows (r : Registration Name) (t : Users Name) : Pc → Prop
  | .calling => True
  | .inserting => ¬ Stored r t
  | .returned => Stored r t
  | .threw => False

/-- Its own step. -/
theorem Knows.own (h : Knows (request i) t p) (hs : clientStep request i t p x = some (t', p')) :
    Knows (request i) t' p' := by
  rcases clientStep_cases hs with ⟨-, rfl, hsel⟩ | ⟨rfl, id, now, -, ⟨-, rfl, hins⟩ | ⟨hstored, -⟩⟩
  · rcases hsel with ⟨hstored, rfl⟩ | ⟨hnew, rfl⟩
    · exact hstored
    · exact hnew
  · exact stored_inserted hins
  · exact absurd hstored h

/-- The step of another client, which does not insert the user that this one is about to insert. -/
theorem Knows.other {j : ι} {q : Pc} (h : Knows (request j) t q)
    (halone : p = .inserting → q = .inserting → (request j).pair ≠ (request i).pair)
    (hs : clientStep request i t p x = some (t', p')) : Knows (request j) t' q := by
  rcases clientStep_cases hs with ⟨-, rfl, -⟩ | ⟨hp, id, now, -, ⟨-, -, hins⟩ | ⟨-, -, rfl⟩⟩
  · exact h
  · cases q with
    | calling => trivial
    | returned => exact Stored.append h hins
    | threw => exact h.elim
    | inserting =>
      -- the new row is not that of this client
      rintro ⟨row, hrow, hholds⟩
      rw [hins] at hrow
      rcases List.mem_append.1 hrow with hrow | hrow
      · exact h ⟨row, hrow, hholds⟩
      · obtain rfl := List.mem_singleton.1 hrow
        exact halone hp rfl (holds_row.1 hholds)
  · exact h

/-! ## Runs -/

variable [DecidableEq ι] {t₀ : Users Name} {c c' : Clients ι Name} {j : ι}

/-- No other client that registers the same user is about to insert. -/
def Alone (request : ι → Registration Name) (c : Clients ι Name) (a : ι × Txn) : Prop :=
  c.pc a.1 = .inserting →
    ∀ j, j ≠ a.1 → c.pc j = .inserting → (request j).pair ≠ (request a.1).pair

/-- The rows that the clients have added to those of `t₀`. -/
def Added (request : ι → Registration Name) (t₀ : Users Name) (c : Clients ι Name)
    (added : List (Row Name)) : Prop :=
  c.sh.rows = t₀.rows ++ added ∧
    ∀ row ∈ added, ∃ i, c.pc i = .returned ∧ (request i).holds row = true

variable [Fintype ι]

instance (request : ι → Registration Name) (c : Clients ι Name) (a : ι × Txn) :
    Decidable (Alone request c a) :=
  inferInstanceAs (Decidable (_ → ∀ _, _))

/-- A step is one of its client, and the others stay where they are. -/
theorem step_moved {a : ι × Txn} (h : (clients request t₀).lts.step c a = some c') :
    clientStep request a.1 c.sh (c.pc a.1) a.2 = some (c'.sh, c'.pc a.1) ∧
      ∀ j, j ≠ a.1 → c'.pc j = c.pc j := by
  obtain ⟨t', p', hs, rfl⟩ := Prog.plain_inv (f := clientStep request) (fun _ _ _ _ => rfl) h
  refine ⟨?_, fun j hj => Function.update_of_ne hj ..⟩
  simp only [Function.update_self]
  exact hs

/-- A step keeps the rows of the others, and adds one for a client that returns. -/
theorem Added.step {a : ι × Txn} {added : List (Row Name)} (h : Added request t₀ c added)
    (hstep : (clients request t₀).lts.step c a = some c') : ∃ added', Added request t₀ c' added' := by
  obtain ⟨hs, hother⟩ := step_moved hstep
  obtain ⟨hrows, howners⟩ := h
  have hkeep : ∀ row ∈ added, c.pc a.1 ≠ .returned →
      ∃ j, c'.pc j = .returned ∧ (request j).holds row = true := by
    intro row hrow hnot
    obtain ⟨j, hj, hholds⟩ := howners row hrow
    have hja : j ≠ a.1 := by
      rintro rfl
      exact hnot hj
    exact ⟨j, by rw [hother j hja, hj], hholds⟩
  rcases clientStep_cases hs with ⟨hp, hsh, -⟩ | ⟨hp, id, now, -, ⟨-, hret, hins⟩ | ⟨-, -, hsh⟩⟩
  · exact ⟨added, by rw [hsh, hrows], fun row hrow => hkeep row hrow (by simp [hp])⟩
  · refine ⟨added ++ [(request a.1).row id now], by rw [hins, hrows, List.append_assoc], ?_⟩
    intro row hrow
    rcases List.mem_append.1 hrow with hrow | hrow
    · exact hkeep row hrow (by simp [hp])
    · obtain rfl := List.mem_singleton.1 hrow
      exact ⟨a.1, hret, holds_row.2 rfl⟩
  · exact ⟨added, by rw [hsh, hrows], fun row hrow => hkeep row hrow (by simp [hp])⟩

/-- **While the clients insert alone**, each can rely on what it has seen. -/
theorem knows (h : (clients request t₀).lts.ReachIf (Alone request) c) :
    ∀ i, Knows (request i) c.sh (c.pc i) := by
  refine h.invariant (I := fun c => ∀ i, Knows (request i) c.sh (c.pc i)) ?_ ?_
  · intro i
    trivial
  · intro c a c' _ hc hok hstep i
    obtain ⟨hs, hother⟩ := step_moved hstep
    by_cases hia : i = a.1
    · subst hia
      exact (hc a.1).own hs
    · rw [hother i hia]
      exact (hc i).other (fun hp hq => hok hp i hia hq) hs

/-- In any run, the new rows are those of calls that have returned. -/
theorem exists_added {ok : Clients ι Name → ι × Txn → Prop}
    (h : (clients request t₀).lts.ReachIf ok c) : ∃ added, Added request t₀ c added := by
  refine h.invariant (I := fun c => ∃ added, Added request t₀ c added)
    ⟨[], (List.append_nil _).symm, List.forall_mem_nil _⟩ ?_
  intro c a c' _ ⟨added, hadded⟩ _ hstep
  exact hadded.step hstep

/-- The user that `main` registers twice. -/
def alice : Registration Bytes := ⟨ascii "Alice", 25, by decide, by decide⟩

/-- **Registrations.** If no client inserts a user that another client is about to insert, no call
throws; a call that has returned has its user in one row; the rows besides those of `t₀` are
those of such calls; and a call that has not returned can go on, and comes nearer to its end. -/
theorem register_alone (h : (clients request t₀).lts.ReachIf (Alone request) c) :
    (∀ i, c.pc i ≠ .threw) ∧
    (∀ i, c.pc i = .returned → c.sh.rows.countP (request i).holds = 1) ∧
    (∃ added, Added request t₀ c added) ∧
    ∀ i, c.pc i ≠ .returned → (∃ id, Fresh c.sh id) →
      ∃ x c', (clients request t₀).lts.step c (i, x) = some c' ∧ (c'.pc i).left < (c.pc i).left := by
  have hquiet : ∀ i, c.pc i ≠ .threw := by
    intro i hi
    have hknows := knows h i
    rw [hi] at hknows
    exact hknows
  refine ⟨hquiet, fun i hi => ?_, exists_added h, fun i hi hfresh => ?_⟩
  · have hstored : Stored (request i) c.sh := by
      have hknows := knows h i
      rw [hi] at hknows
      exact hknows
    exact hstored.countP
  have hp : c.pc i = .calling ∨ c.pc i = .inserting := by
    cases hpc : c.pc i with
    | calling => exact .inl rfl
    | inserting => exact .inr rfl
    | returned => exact absurd hpc hi
    | threw => exact absurd hpc (hquiet i)
  obtain ⟨x, t', p', hs⟩ := clientStep_ready hfresh hp
  have hstep := Prog.plain_of (M := clients request t₀) (f := clientStep request) (fun _ _ _ _ => rfl) hs
  exact ⟨x, _, hstep, clientStep_left (step_moved hstep).1⟩

/-- Two clients that register one user, the second one after the first one has returned. -/
theorem register_alone_alice : ∃ c : Clients (Fin 2) Bytes,
    (clients (fun _ => alice) (.empty _)).lts.ReachIf (Alone fun _ => alice) c ∧
      c.pc 0 = .returned ∧ c.pc 1 = .returned ∧ c.sh.rows.countP alice.holds = 1 := by
  obtain ⟨c, hc, hres⟩ := Lts.exists_reachIf (clients (fun _ : Fin 2 => alice) (.empty _)).lts
    (Alone fun _ => alice) [(0, .select), (0, .insert 1 []), (1, .select)]
    (fun c => c.pc 0 == .returned && c.pc 1 == .returned) (by decide)
  rw [Bool.and_eq_true, beq_iff_eq, beq_iff_eq] at hres
  exact ⟨c, hc, hres.1, hres.2, (register_alone hc).2.1 0 hres.1⟩

/-- **A duplicate that is not seen.** Both clients look before either of them inserts, and the second
call throws. -/
theorem register_throws : ∃ c : Clients (Fin 2) Bytes,
    (clients (fun _ => alice) (.empty _)).lts.Reach c ∧ c.pc 1 = .threw := by
  obtain ⟨c, hc, hres⟩ := Lts.exists_reachIf (clients (fun _ : Fin 2 => alice) (.empty _)).lts
    (fun _ _ => True) [(0, .select), (1, .select), (0, .insert 1 []), (1, .insert 2 [])]
    (fun c => c.pc 1 == .threw) (by decide)
  exact ⟨c, hc, beq_iff_eq.1 hres⟩

/-! ## The other runs -/

/-- A client that is about to insert a user that is stored, or whose call has thrown. -/
def Doomed (request : ι → Registration Name) (j : ι) (c : Clients ι Name) : Prop :=
  Stored (request j) c.sh ∧ (c.pc j = .inserting ∨ c.pc j = .threw)

theorem Doomed.step {a : ι × Txn} (h : Doomed request j c)
    (hstep : (clients request t₀).lts.step c a = some c') : Doomed request j c' := by
  obtain ⟨hs, hother⟩ := step_moved hstep
  obtain ⟨rows, hrows⟩ := clientStep_rows hs
  refine ⟨h.1.append hrows, ?_⟩
  by_cases hja : j = a.1
  · subst hja
    rcases clientStep_cases hs with ⟨hp, -⟩ | ⟨-, id, now, -, ⟨hnew, -⟩ | ⟨-, hp', -⟩⟩
    · rcases h.2 with h' | h'
      · simp [hp] at h'
      · simp [hp] at h'
    · exact absurd h.1 hnew
    · exact .inr hp'
  · rw [hother j hja]
    exact h.2

/-- **Otherwise a client is lost.** After an INSERT while another client is about to insert the same
user, that client's call never returns. -/
theorem rival_doomed {a : ι × Txn} {c'' : Clients ι Name} (hp : c.pc a.1 = .inserting) (hj : j ≠ a.1)
    (hpj : c.pc j = .inserting) (hpair : (request j).pair = (request a.1).pair)
    (hstep : (clients request t₀).lts.step c a = some c')
    (hrun : (clients request t₀).lts.Leads c' c'') : c''.pc j ≠ .returned := by
  have hdoomed : Doomed request j c' := by
    obtain ⟨hs, hother⟩ := step_moved hstep
    refine ⟨?_, .inl (by rw [hother j hj, hpj])⟩
    rcases clientStep_cases hs with ⟨hp', -⟩ | ⟨-, id, now, -, ⟨-, -, hins⟩ | ⟨⟨row, hrow, hholds⟩, -, hsh⟩⟩
    · simp [hp] at hp'
    · refine ⟨_, by rw [hins]; exact List.mem_append_right _ (List.mem_singleton_self _), ?_⟩
      exact holds_row.2 hpair
    · exact ⟨row, hsh ▸ hrow, (holds_congr hpair).trans hholds⟩
  have hend : Doomed request j c'' := by
    induction hrun with
    | refl => exact hdoomed
    | tail _ hstep ih =>
      obtain ⟨a, ha⟩ := hstep
      exact ih.step ha
  rcases hend.2 with h | h
  · simp [h]
  · simp [h]

end BackendTasks.UserManager
