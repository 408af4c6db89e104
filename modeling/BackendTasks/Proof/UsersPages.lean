import BackendTasks.Proof.UsersTable

/-!
# Pages of `getUsersSorted`

Each page is a query of its own, and rows that the sort column does not tell apart may come in another
order in each.

* `paginates_iff`: the pages give every user exactly once, whatever these orders are, just when no page
  ends between such rows (and no row has a null).
* `paginates_id`: sorted by the id, and so by whatever is not a column, none does.
-/

namespace BackendTasks.UserManager

open Net Sched Sql

variable {Name : Type} [DecidableEq Name] {names : SortOrder Name} {times : SortOrder Bytes} {t : Users Name}
  {scan : List (Row Name)} {sortBy : Bytes} {ascending : Bool} {size : ℕ}

/-- The pages up to the first one that is short give every user once, in whatever order each query meets
the rows. -/
def Paginates (names : SortOrder Name) (times : SortOrder Bytes) (t : Users Name) (sortBy : Bytes)
    (ascending : Bool) (size : ℕ) : Prop :=
  ∀ scans : ℕ → List (Row Name), ∃ (last : ℕ) (pages : ℕ → List (User Name)),
    (∀ k ≤ last, getUsersSorted names times t (scans k) sortBy ascending size (k * size : ℕ) =
      .ok (pages k)) ∧
    (∀ k < last, (pages k).length = size) ∧ (pages last).length < size ∧
    (((List.range (last + 1)).flatMap pages).map User.toRow).Perm t.rows

/-- The order that `sortBy` and `ascending` ask for. -/
def sortedBy (names : SortOrder Name) (times : SortOrder Bytes) (sortBy : Bytes) (ascending : Bool) :
    SortOrder (Row Name) :=
  direction ascending (columnOrder names times (column sortBy))

/-- The rows in that order, as one query gives them. -/
def listed (names : SortOrder Name) (times : SortOrder Bytes) (t : Users Name) (sortBy : Bytes)
    (ascending : Bool) (scan : List (Row Name)) : List (Row Name) :=
  orderBy (sortedBy names times sortBy ascending) (t.scan scan)

theorem getUsersSorted_page (hsize : 0 < size) (scan : List (Row Name)) (k : ℕ) :
    getUsersSorted names times t scan sortBy ascending size (k * size : ℕ) =
      dataCollection (page size k (listed names times t sortBy ascending scan)) := by
  have hlimit : (0 : ℤ) < size := Int.natCast_pos.2 hsize
  have hoffset : ∀ rows : List (Row Name),
      (if (0 : ℤ) < (k * size : ℕ) then rows.drop (k * size) else rows) = rows.drop (k * size) := by
    intro rows
    by_cases hpos : (0 : ℤ) < (k * size : ℕ)
    · rw [if_pos hpos]
    · have hzero : k * size = 0 := by omega
      rw [if_neg hpos, hzero, List.drop_zero]
  simp only [getUsersSorted, Int.toNat_natCast, hoffset, if_pos hlimit]
  rfl

theorem listed_perm (scan : List (Row Name)) : (listed names times t sortBy ascending scan).Perm t.rows :=
  (orderBy_perm _ _).trans (t.scan_perm scan)

theorem length_pages {us : List (User Name)} {k : ℕ}
    (h : us.map User.toRow = page size k (listed names times t sortBy ascending scan)) :
    us.length = min size (t.rows.length - k * size) := by
  have hlen := congrArg List.length h
  rwa [List.length_map, length_page, (listed_perm scan).length_eq] at hlen

theorem rows_nodup (t : Users Name) : t.rows.Nodup := (ids_nodup t).of_map _

/-- **Pages that give every user.** -/
theorem paginates_of (hsize : 0 < size) (hfull : ∀ row ∈ t.rows, row.Full)
    (htied : ∀ k, ¬ Tied (sortedBy names times sortBy ascending)
      (orderBy (sortedBy names times sortBy ascending) t.rows) (k * size)) :
    Paginates names times t sortBy ascending size := by
  intro scans
  have hpage : ∀ k, ∀ row ∈ page size k (listed names times t sortBy ascending (scans k)), row ∈ t.rows :=
    fun k row hrow => (listed_perm _).mem_iff.1 (List.mem_of_mem_drop (List.mem_of_mem_take hrow))
  have hcollect := fun k => dataCollection_ok (fun row hrow => hfull row (hpage k row hrow)) (hpage k)
  choose pages hpages hmap using hcollect
  have hlength : ∀ k, (pages k).length = min size (t.rows.length - k * size) :=
    fun k => length_pages (hmap k)
  have hlast := Nat.div_add_mod' t.rows.length size
  have hrest := Nat.mod_lt t.rows.length hsize
  refine ⟨t.rows.length / size, pages, fun k _ => ?_, fun k hk => ?_, ?_, ?_⟩
  · rw [getUsersSorted_page hsize, hpages]
  · have hle := Nat.mul_le_mul_right size hk
    rw [Nat.succ_mul] at hle
    rw [hlength]
    omega
  · rw [hlength]
    omega
  · have hperm := pages_perm (orderBy_sorted _ _)
      (fun k => (listed_perm (scans k)).trans (orderBy_perm _ _).symm)
      (fun k => orderBy_sorted _ _) htied (t.rows.length / size + 1)
    rw [List.take_of_length_le] at hperm
    · simp only [List.map_flatMap, hmap]
      exact hperm.trans (orderBy_perm _ _)
    · rw [(orderBy_perm _ _).length_eq, Nat.succ_mul]
      omega

/-- The pages that a run of queries gives are those of the lists. -/
theorem Paginates.pages (h : Paginates names times t sortBy ascending size) (hsize : 0 < size)
    (scans : ℕ → List (Row Name)) :
    (((List.range (t.rows.length / size + 1)).flatMap fun k =>
      page size k (listed names times t sortBy ascending (scans k)))).Perm t.rows := by
  obtain ⟨last, pages, hpages, hwhole, hshort, hperm⟩ := h scans
  have hmap : ∀ k ≤ last,
      (pages k).map User.toRow = page size k (listed names times t sortBy ascending (scans k)) := by
    intro k hk
    have hpage := hpages k hk
    rw [getUsersSorted_page hsize] at hpage
    exact dataCollection_eq hpage
  have hlength : ∀ k ≤ last, (pages k).length = min size (t.rows.length - k * size) :=
    fun k hk => length_pages (hmap k hk)
  -- the first short page is the one in which the rows end
  have hlast : last = t.rows.length / size := by
    have hdiv := Nat.div_add_mod' t.rows.length size
    have hrest := Nat.mod_lt t.rows.length hsize
    rw [hlength last (Nat.le_refl _)] at hshort
    rcases Nat.lt_trichotomy last (t.rows.length / size) with hlt | heq | hgt
    · have hle := Nat.mul_le_mul_right size hlt
      rw [Nat.succ_mul] at hle
      omega
    · exact heq
    · have hsize' := hwhole _ hgt
      rw [hlength _ (Nat.le_of_lt hgt)] at hsize'
      omega
  have heq : ((List.range (last + 1)).flatMap pages).map User.toRow =
      (List.range (last + 1)).flatMap fun k => page size k (listed names times t sortBy ascending (scans k)) := by
    rw [List.map_flatMap]
    refine List.flatMap_congr fun k hk => hmap k ?_
    exact Nat.lt_succ_iff.1 (List.mem_range.1 hk)
  rw [← hlast, ← heq]
  exact hperm

/-- **Pages that do not.** -/
theorem not_paginates {k : ℕ} (hsize : 0 < size)
    (htied : Tied (sortedBy names times sortBy ascending)
      (orderBy (sortedBy names times sortBy ascending) t.rows) (k * size)) :
    ¬ Paginates names times t sortBy ascending size := by
  intro h
  have hk : k < t.rows.length / size + 1 := by
    obtain ⟨front, a, b, back, hl, hi, -⟩ := htied
    have hlen := congrArg List.length hl
    rw [(orderBy_perm _ _).length_eq, List.length_append, List.length_cons, List.length_cons] at hlen
    have hle : k * size ≤ t.rows.length := by omega
    exact Nat.lt_succ_of_le ((Nat.le_div_iff_mul_le hsize).2 hle)
  obtain ⟨lists, hlists, hnot⟩ := pages_tied hsize hk (orderBy_sorted _ _) htied
  -- each of these lists is what some query gives
  have hlisted : ∀ k, listed names times t sortBy ascending (lists k) = lists k := by
    intro k
    rw [listed, Table.scan_eq ((hlists k).1.trans (orderBy_perm _ _)), orderBy_of_sorted (hlists k).2]
  have hperm := h.pages hsize lists
  simp only [hlisted] at hperm
  exact hnot (hperm.nodup_iff.2 (rows_nodup t))

/-- **When pagination loses and repeats nobody**: just when no row has a null, and no page ends between
rows that are tied in the sort column. -/
theorem paginates_iff (hsize : 0 < size) (names : SortOrder Name) (times : SortOrder Bytes)
    (t : Users Name) (sortBy : Bytes) (ascending : Bool) :
    Paginates names times t sortBy ascending size ↔
      (∀ row ∈ t.rows, row.Full) ∧
        ∀ k, ¬ Tied (sortedBy names times sortBy ascending)
          (orderBy (sortedBy names times sortBy ascending) t.rows) (k * size) := by
  refine ⟨fun h => ⟨fun row hrow => ?_, fun k htied => not_paginates hsize htied h⟩,
    fun h => paginates_of hsize h.1 h.2⟩
  obtain ⟨last, pages, -, -, -, hperm⟩ := h fun _ => []
  obtain ⟨user, -, rfl⟩ := List.mem_map.1 (hperm.mem_iff.2 hrow)
  exact ⟨rfl, rfl⟩

/-- Texts in the order of their bytes. -/
def bytewise : SortOrder Bytes := (SortOrder.linear (List ℕ)).on fun text => text.map UInt8.toNat

/-- A user of this age. -/
def aged (id : ℤ) (name : String) (age : ℤ) : Row Bytes := ⟨id, ascii name, some age, some []⟩

/-- Three users, of whom two have one age: the first page of two does not end between them. -/
theorem paginates_iff_pair : ∃ t, (calls Bytes).Reach t ∧
    t.rows = [aged 1 "Alice" 30, aged 2 "Bob" 30, aged 3 "Eve" 35] ∧
    Paginates bytewise bytewise t (ascii "age") true 2 := by
  obtain ⟨t, ht, hrows⟩ := Lts.exists_reachIf (calls Bytes) (fun _ _ => True)
    [(⟨.fine, .fine, 1, [], []⟩, .registerUser (ascii "Alice") 30),
      (⟨.fine, .fine, 2, [], []⟩, .registerUser (ascii "Bob") 30),
      (⟨.fine, .fine, 3, [], []⟩, .registerUser (ascii "Eve") 35)]
    (fun t => t.rows = [aged 1 "Alice" 30, aged 2 "Bob" 30, aged 3 "Eve" 35]) (by decide)
  have hrows' := of_decide_eq_true hrows
  refine ⟨t, ht, hrows', (paginates_iff (by decide) _ _ t (ascii "age") true).2 ⟨?_, fun k => ?_⟩⟩
  · rw [hrows']
    decide
  · have hsorted : Sorted (sortedBy bytewise bytewise (ascii "age") true) t.rows := by
      rw [hrows']
      unfold Sorted
      decide
    rw [orderBy_of_sorted hsorted, hrows']
    rintro ⟨front, a, b, back, hl, hi, hle⟩
    have hlen := congrArg List.length hl
    simp only [List.length_append, List.length_cons, List.length_nil] at hlen
    obtain ⟨x, rfl⟩ := List.length_eq_one_iff.1 (by omega : front.length = 1)
    obtain ⟨-, rfl, rfl, -⟩ : _ ∧ _ ∧ _ ∧ _ := by simpa using hl
    exact absurd hle (by decide)

/-- **A user who is lost, and one who is repeated**: the first page ends between two users of an age. -/
theorem pages_repeat : ∃ t, (calls Bytes).Reach t ∧ t.rows = [aged 1 "Alice" 30, aged 2 "Bob" 30] ∧
    ¬ Paginates bytewise bytewise t (ascii "age") true 1 := by
  obtain ⟨t, ht, hrows⟩ := Lts.exists_reachIf (calls Bytes) (fun _ _ => True)
    [(⟨.fine, .fine, 1, [], []⟩, .registerUser (ascii "Alice") 30),
      (⟨.fine, .fine, 2, [], []⟩, .registerUser (ascii "Bob") 30)]
    (fun t => t.rows = [aged 1 "Alice" 30, aged 2 "Bob" 30]) (by decide)
  have hrows' := of_decide_eq_true hrows
  have hsorted : Sorted (sortedBy bytewise bytewise (ascii "age") true) t.rows := by
    rw [hrows']
    unfold Sorted
    decide
  refine ⟨t, ht, hrows', not_paginates (k := 1) (by decide) ?_⟩
  rw [orderBy_of_sorted hsorted, hrows']
  exact ⟨[], aged 1 "Alice" 30, aged 2 "Bob" 30, [], rfl, rfl, rfl⟩

/-- Ids are not tied. -/
theorem id_not_tied (hcolumn : column sortBy = .id) (i : ℕ) :
    ¬ Tied (sortedBy names times sortBy ascending)
      (orderBy (sortedBy names times sortBy ascending) t.rows) i := by
  rintro ⟨front, a, b, back, hl, -, hle⟩
  have hsorted := orderBy_sorted (sortedBy names times sortBy ascending) t.rows
  have hnodup : ((orderBy (sortedBy names times sortBy ascending) t.rows).map (·.id)).Nodup :=
    ((orderBy_perm _ _).map _).nodup_iff.2 (ids_nodup t)
  rw [hl] at hsorted hnodup
  have hab := (List.pairwise_cons.1 (List.pairwise_append.1 hsorted).2.1).1 b List.mem_cons_self
  have hne : a.id ≠ b.id := by
    rw [List.map_append, List.map_cons, List.map_cons] at hnodup
    have hcons := (List.nodup_append.1 hnodup).2.1
    exact fun heq => (List.nodup_cons.1 hcons).1 (heq ▸ List.mem_cons_self)
  rw [sortedBy, hcolumn] at hab hle
  cases ascending with
  | true => exact hne (le_antisymm (of_decide_eq_true hab) (of_decide_eq_true hle))
  | false => exact hne (le_antisymm (of_decide_eq_true hle) (of_decide_eq_true hab))

/-- **Sorted by the id**, no user is lost or repeated. -/
theorem paginates_id (hsize : 0 < size) (hcolumn : column sortBy = .id)
    (hfull : ∀ row ∈ t.rows, row.Full) : Paginates names times t sortBy ascending size :=
  paginates_of hsize hfull fun _ => id_not_tied hcolumn _

end BackendTasks.UserManager
