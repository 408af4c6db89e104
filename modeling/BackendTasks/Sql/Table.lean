import Mathlib.Data.List.Nodup
import Mathlib.Data.Nat.Notation

/-!
# Tables with constraints

A table holds rows that pass the schema's checks and of which no two have the same key in a unique
index (`Table`). A statement either gives a table again or fails.

An UPDATE changes one row after the other, in any order, and checks the unique indexes after each
of them.
-/

namespace BackendTasks.Sql

/-- Why a statement fails. -/
inductive SqlError
  | brokenConnection
  | checkViolation
  | uniqueViolation
  | outOfRange
  | conversion
  | invalidEscape
  deriving DecidableEq

/-- The column types and checks, and which rows have the same key in a unique index. -/
structure Schema (R : Type*) where
  check : R → Bool
  clash : R → R → Bool
  clash_comm : ∀ a b, clash a b = clash b a

/-- Rows that obey the schema. -/
structure Table {R : Type*} (S : Schema R) where
  rows : List R
  check : ∀ r ∈ rows, S.check r = true
  apart : rows.Pairwise fun a b => S.clash a b = false

variable {R : Type*} {S : Schema R} {t t' : Table S} {r r' : R} {e : SqlError}

/-- Changing one element keeps a relation that the new one has with all others. -/
theorem pairwise_set {Rel : R → R → Prop} {rows : List R} {i : ℕ} (h : rows.Pairwise Rel)
    (hnew : ∀ a ∈ rows.eraseIdx i, Rel a r ∧ Rel r a) : (rows.set i r).Pairwise Rel := by
  induction rows generalizing i with
  | nil => exact h
  | cons a rows ih =>
    obtain ⟨ha, hrows⟩ := List.pairwise_cons.1 h
    cases i with
    | zero =>
      rw [List.eraseIdx_cons_zero] at hnew
      exact List.pairwise_cons.2 ⟨fun b hb => (hnew b hb).2, hrows⟩
    | succ i =>
      rw [List.eraseIdx_cons_succ] at hnew
      obtain ⟨hfirst, hnew⟩ := List.forall_mem_cons.1 hnew
      refine List.pairwise_cons.2 ⟨fun b hb => ?_, ih hrows hnew⟩
      rcases List.mem_or_eq_of_mem_set hb with hb | rfl
      · exact ha b hb
      · exact hfirst.1

namespace Table

/-- A new table. -/
def empty (S : Schema R) : Table S := ⟨[], List.forall_mem_nil _, .nil⟩

/-- INSERT of one row. -/
def insert (t : Table S) (r : R) : Except SqlError (Table S) :=
  if hcheck : S.check r = true then
    if hnew : ∀ a ∈ t.rows, S.clash a r = false then
      .ok {
        rows := t.rows ++ [r]
        check := List.forall_mem_append.2 ⟨t.check, List.forall_mem_singleton.2 hcheck⟩
        apart := List.pairwise_append.2 ⟨t.apart, List.pairwise_singleton .., fun a ha _ hb =>
          List.mem_singleton.1 hb ▸ hnew a ha⟩ }
    else .error .uniqueViolation
  else .error .checkViolation

/-- The change of one row. -/
def setRow (t : Table S) (i : ℕ) (r : R) : Except SqlError (Table S) :=
  if hcheck : S.check r = true then
    if hnew : ∀ a ∈ t.rows.eraseIdx i, S.clash a r = false then
      .ok {
        rows := t.rows.set i r
        check := fun a ha => (List.mem_or_eq_of_mem_set ha).elim (t.check a) fun h => h ▸ hcheck
        apart := pairwise_set t.apart fun a ha => ⟨hnew a ha, (S.clash_comm r a).trans (hnew a ha)⟩ }
    else .error .uniqueViolation
  else .error .checkViolation

/-- An UPDATE of the rows at these places, one after the other. -/
def update (f : R → Except SqlError R) : List ℕ → Table S → Except SqlError (Table S)
  | [], t => .ok t
  | i :: order, t =>
    match t.rows[i]? with
    | none => update f order t
    | some r =>
      match f r with
      | .error e => .error e
      | .ok r =>
        match t.setRow i r with
        | .error e => .error e
        | .ok t => update f order t

/-- DELETE. -/
def delete (t : Table S) (p : R → Bool) : Table S where
  rows := t.rows.filter (!p ·)
  check := fun r hr => t.check r (List.mem_of_mem_filter hr)
  apart := t.apart.filter _

/-- The places of the rows that satisfy `p`. -/
def places (t : Table S) (p : R → Bool) : List ℕ :=
  (List.range t.rows.length).filter fun i => (t.rows[i]?).any p

/-- The UPDATE of the rows that satisfy `p`. They are visited in the given order, if it is one of their
places. -/
def updateWhere (t : Table S) (p : R → Bool) (f : R → Except SqlError R) (order : List ℕ) :
    Except SqlError (Table S) :=
  update f (if order.Perm (t.places p) then order else t.places p) t

/-- The rows as a SELECT meets them: in the given order, if it is one of the rows. -/
def scan [DecidableEq R] (t : Table S) (order : List R) : List R :=
  if order.Perm t.rows then order else t.rows

/-! ## What the statements do -/

theorem insert_ok (h : t.insert r = .ok t') :
    t'.rows = t.rows ++ [r] ∧ ∀ a ∈ t.rows, S.clash a r = false := by
  unfold insert at h
  split at h
  · split at h
    · rename_i hnew
      obtain rfl := Except.ok.inj h
      exact ⟨rfl, hnew⟩
    · simp at h
  · simp at h

theorem insert_of (hcheck : S.check r = true) (hnew : ∀ a ∈ t.rows, S.clash a r = false) :
    ∃ t', t.insert r = .ok t' ∧ t'.rows = t.rows ++ [r] := by
  unfold insert
  rw [dif_pos hcheck, dif_pos hnew]
  exact ⟨_, rfl, rfl⟩

/-- A row that clashes is not inserted. -/
theorem insert_clash {a : R} (ha : a ∈ t.rows) (hclash : S.clash a r = true) :
    ∃ e, t.insert r = .error e := by
  have hnot : ¬ ∀ a ∈ t.rows, S.clash a r = false := by
    intro hnew
    simp [hnew a ha] at hclash
  unfold insert
  by_cases hcheck : S.check r = true
  · rw [dif_pos hcheck, dif_neg hnot]
    exact ⟨_, rfl⟩
  · rw [dif_neg hcheck]
    exact ⟨_, rfl⟩

theorem setRow_ok {i : ℕ} (h : t.setRow i r = .ok t') : t'.rows = t.rows.set i r := by
  unfold setRow at h
  split at h
  · split at h
    · obtain rfl := Except.ok.inj h
      rfl
    · simp at h
  · simp at h

/-- **What holds of each row** is kept by an UPDATE whose expression keeps it. -/
theorem update_forall {f : R → Except SqlError R} {P : R → Prop} {order : List ℕ}
    (hf : ∀ r r', P r → f r = .ok r' → P r') (hP : ∀ r ∈ t.rows, P r)
    (h : update f order t = .ok t') : ∀ r ∈ t'.rows, P r := by
  induction order generalizing t with
  | nil =>
    obtain rfl := Except.ok.inj h
    exact hP
  | cons i order ih =>
    unfold update at h
    split at h
    · exact ih hP h
    · rename_i r hr
      split at h
      · simp at h
      · rename_i r' hr'
        split at h
        · simp at h
        · rename_i t₁ ht₁
          refine ih (fun a ha => ?_) h
          rw [setRow_ok ht₁] at ha
          rcases List.mem_or_eq_of_mem_set ha with ha | rfl
          · exact hP a ha
          · exact hf r a (hP r (List.mem_of_getElem? hr)) hr'

/-- **Every order of the rows is possible**, and no other. -/
theorem updateWhere_eq (t : Table S) (p : R → Bool) (f : R → Except SqlError R) (order : List ℕ) :
    ∃ visited, visited.Perm (t.places p) ∧ t.updateWhere p f order = update f visited t ∧
      (order.Perm (t.places p) → visited = order) := by
  unfold updateWhere
  by_cases h : order.Perm (t.places p)
  · rw [if_pos h]
    exact ⟨order, h, rfl, fun _ => rfl⟩
  · rw [if_neg h]
    exact ⟨t.places p, List.Perm.refl _, rfl, fun h' => absurd h' h⟩

/-! ## When an UPDATE succeeds -/

/-- The rows at these places, changed. -/
def changed (g : R → R) (order : List ℕ) (rows : List R) : List R :=
  rows.mapIdx fun i r => if i ∈ order then g r else r

theorem getElem?_changed (g : R → R) (order : List ℕ) (rows : List R) (j : ℕ) :
    (changed g order rows)[j]? = rows[j]?.map fun r => if j ∈ order then g r else r := by
  rw [changed, List.getElem?_mapIdx]

theorem changed_nil (g : R → R) (rows : List R) : changed g [] rows = rows := by
  refine List.ext_getElem? fun j => ?_
  rw [getElem?_changed]
  simp

/-- A row that is changed first. -/
theorem changed_set {g : R → R} {i : ℕ} {order : List ℕ} {rows : List R} (hi : i ∉ order)
    (hr : rows[i]? = some r) : changed g order (rows.set i (g r)) = changed g (i :: order) rows := by
  refine List.ext_getElem? fun j => ?_
  rw [getElem?_changed, getElem?_changed]
  by_cases hj : j = i
  · subst hj
    have hlt : j < rows.length := (List.getElem?_eq_some_iff.1 hr).1
    rw [List.getElem?_set_self hlt, hr]
    simp [hi]
  · rw [List.getElem?_set_ne (Ne.symm hj)]
    simp [hj]

/-- **When one row may be changed**: just when it has no key of another one. -/
theorem setRow_iff {i : ℕ} (hcheck : S.check r = true) :
    (∃ t', t.setRow i r = .ok t') ↔ ∀ j a, j ≠ i → t.rows[j]? = some a → S.clash a r = false := by
  have hothers : (∀ a ∈ t.rows.eraseIdx i, S.clash a r = false) ↔
      ∀ j a, j ≠ i → t.rows[j]? = some a → S.clash a r = false := by
    simp only [List.mem_eraseIdx_iff_getElem?]
    constructor
    · exact fun h j a hj ha => h a ⟨j, hj, ha⟩
    · rintro h a ⟨j, hj, ha⟩
      exact h j a hj ha
  rw [← hothers]
  unfold setRow
  rw [dif_pos hcheck]
  by_cases hnew : ∀ a ∈ t.rows.eraseIdx i, S.clash a r = false
  · rw [dif_pos hnew]
    exact iff_of_true ⟨_, rfl⟩ hnew
  · rw [dif_neg hnew]
    exact iff_of_false (by simp) hnew

/-- Each row, in its turn, takes a key that no other row has then. -/
def InTurn (S : Schema R) (g : R → R) (order : List ℕ) (rows : List R) : Prop :=
  ∀ before i after, order = before ++ i :: after → ∀ r, rows[i]? = some r →
    ∀ j a, j ≠ i → (changed g before rows)[j]? = some a → S.clash a (g r) = false

theorem mem_places {p : R → Bool} {i : ℕ} : i ∈ t.places p ↔ ∃ r, t.rows[i]? = some r ∧ p r = true := by
  rw [places, List.mem_filter, List.mem_range, Option.any_eq_true]
  refine and_iff_right_of_imp ?_
  rintro ⟨r, hr, -⟩
  exact (List.getElem?_eq_some_iff.1 hr).1

/-- **What an UPDATE leaves**: each row at these places is changed once. -/
theorem update_rows {f : R → Except SqlError R} {g : R → R} {order : List ℕ} (hnodup : order.Nodup)
    (hf : ∀ r r', f r = .ok r' → r' = g r) (h : update f order t = .ok t') :
    t'.rows = changed g order t.rows := by
  induction order generalizing t with
  | nil =>
    obtain rfl := Except.ok.inj h
    exact (changed_nil g t.rows).symm
  | cons i order ih =>
    obtain ⟨hi, hnodup⟩ := List.nodup_cons.1 hnodup
    unfold update at h
    split at h
    · rename_i hnone
      rw [ih hnodup h]
      refine List.ext_getElem? fun j => ?_
      rw [getElem?_changed, getElem?_changed]
      by_cases hj : j = i
      · rw [hj, hnone, Option.map_none, Option.map_none]
      · simp [hj]
    · rename_i r hr
      split at h
      · simp at h
      · rename_i r' hr'
        split at h
        · simp at h
        · rename_i t₁ ht₁
          rw [ih hnodup h, setRow_ok ht₁, hf r r' hr', changed_set hi hr]

theorem updateWhere_rows {p : R → Bool} {f : R → Except SqlError R} {g : R → R} {order : List ℕ}
    (hf : ∀ r r', f r = .ok r' → r' = g r) (h : t.updateWhere p f order = .ok t') :
    t'.rows = t.rows.map fun r => if p r then g r else r := by
  obtain ⟨visited, hperm, hupdate, -⟩ := updateWhere_eq t p f order
  rw [hupdate] at h
  rw [update_rows (hperm.nodup_iff.2 (List.nodup_range.filter _)) hf h]
  refine List.ext_getElem? fun i => ?_
  rw [getElem?_changed, List.getElem?_map]
  cases hr : t.rows[i]? with
  | none => rfl
  | some r =>
    have hvisited : i ∈ visited ↔ p r = true := by
      rw [hperm.mem_iff, mem_places, hr]
      simp
    simp only [Option.map_some, hvisited]

/-- The first row, and then the others when it is changed. -/
theorem inTurn_cons {g : R → R} {i : ℕ} {order : List ℕ} {rows : List R} (hi : i ∉ order)
    (hr : rows[i]? = some r) :
    InTurn S g (i :: order) rows ↔
      (∀ j a, j ≠ i → rows[j]? = some a → S.clash a (g r) = false) ∧
        InTurn S g order (rows.set i (g r)) := by
  have hother : ∀ j ∈ order, (rows.set i (g r))[j]? = rows[j]? := by
    intro j hj
    refine List.getElem?_set_ne ?_
    rintro rfl
    exact hi hj
  constructor
  · intro h
    refine ⟨fun j a hj ha => ?_, fun before i' after hsplit r' hr' j a hj ha => ?_⟩
    · rw [← changed_nil g rows] at ha
      exact h [] i order rfl r hr j a hj ha
    · have hbefore : i ∉ before := fun hmem => hi (hsplit ▸ List.mem_append_left _ hmem)
      have hcons : i :: order = (i :: before) ++ i' :: after := by rw [hsplit, List.cons_append]
      rw [hother i' (hsplit ▸ by simp)] at hr'
      rw [changed_set hbefore hr] at ha
      exact h (i :: before) i' after hcons r' hr' j a hj ha
  · rintro ⟨hfirst, hrest⟩ before i' after hsplit r' hr' j a hj ha
    cases before with
    | nil =>
      obtain ⟨rfl, rfl⟩ := List.cons.inj hsplit
      obtain rfl := Option.some.inj (hr.symm.trans hr')
      rw [changed_nil] at ha
      exact hfirst j a hj ha
    | cons b before =>
      obtain ⟨rfl, rfl⟩ := List.cons.inj hsplit
      have hbefore : i ∉ before := fun hmem => hi (List.mem_append_left _ hmem)
      rw [← changed_set hbefore hr] at ha
      exact hrest before i' after rfl r' ((hother i' (by simp)).trans hr') j a hj ha

/-- A row that may not be changed makes the UPDATE fail. -/
theorem update_stuck {f : R → Except SqlError R} {g : R → R} {i : ℕ} (order : List ℕ)
    (hr : t.rows[i]? = some r) (hfr : f r = .ok (g r)) (h : ¬ ∃ t₁, t.setRow i (g r) = .ok t₁) :
    ¬ ∃ t', update f (i :: order) t = .ok t' := by
  rintro ⟨t', ht'⟩
  simp only [update, hr, hfr] at ht'
  split at ht'
  · simp at ht'
  · rename_i t₁ ht₁
    exact h ⟨t₁, ht₁⟩

/-- **When an UPDATE succeeds**: just when no row takes, in its turn, a key that another row has then. -/
theorem update_iff {f : R → Except SqlError R} {g : R → R} {order : List ℕ} (hnodup : order.Nodup)
    (hf : ∀ i ∈ order, ∃ r, t.rows[i]? = some r ∧ f r = .ok (g r) ∧ S.check (g r) = true) :
    (∃ t', update f order t = .ok t' ∧ t'.rows = changed g order t.rows) ↔ InTurn S g order t.rows := by
  induction order generalizing t with
  | nil =>
    refine iff_of_true ⟨t, rfl, (changed_nil g t.rows).symm⟩ fun before i after h => ?_
    simp at h
  | cons i order ih =>
    obtain ⟨hi, hnodup⟩ := List.nodup_cons.1 hnodup
    obtain ⟨⟨r, hr, hfr, hcheck⟩, hf⟩ := List.forall_mem_cons.1 hf
    rw [inTurn_cons hi hr, ← setRow_iff hcheck]
    by_cases hset : ∃ t₁, t.setRow i (g r) = .ok t₁
    · obtain ⟨t₁, ht₁⟩ := hset
      have hrows := setRow_ok ht₁
      have hstep : update f (i :: order) t = update f order t₁ := by
        simp only [update, hr, hfr, ht₁]
      have hplace : ∀ j ∈ order,
          ∃ r, t₁.rows[j]? = some r ∧ f r = .ok (g r) ∧ S.check (g r) = true := by
        intro j hj
        have hne : i ≠ j := fun heq => hi (heq ▸ hj)
        rw [hrows, List.getElem?_set_ne hne]
        exact hf j hj
      rw [hstep, ← changed_set hi hr, ← hrows, ih hnodup hplace]
      exact (and_iff_right ⟨t₁, ht₁⟩).symm
    · refine iff_of_false ?_ fun h => hset h.1
      rintro ⟨t', ht', -⟩
      exact update_stuck order hr hfr hset ⟨t', ht'⟩

/-! ## Scans -/

theorem scan_perm [DecidableEq R] (t : Table S) (order : List R) : (t.scan order).Perm t.rows := by
  unfold scan
  split
  · assumption
  · exact List.Perm.refl _

theorem scan_eq [DecidableEq R] {order : List R} (h : order.Perm t.rows) : t.scan order = order := if_pos h

end Table

/-! ## WHERE -/

/-- The rows for which the condition is true. -/
def selectWhere {R : Type} (p : R → Except SqlError Bool) : List R → Except SqlError (List R)
  | [] => .ok []
  | r :: rows => do
    let holds ← p r
    let rows ← selectWhere p rows
    return if holds then r :: rows else rows

theorem selectWhere_ok {R : Type} {p : R → Except SqlError Bool} {q : R → Bool} {rows : List R}
    (h : ∀ r ∈ rows, p r = .ok (q r)) : selectWhere p rows = .ok (rows.filter q) := by
  induction rows with
  | nil => rfl
  | cons r rows ih =>
    obtain ⟨hr, hrows⟩ := List.forall_mem_cons.1 h
    rw [selectWhere, hr, ih hrows, List.filter_cons]
    rfl

end BackendTasks.Sql
