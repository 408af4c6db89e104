import Mathlib.Data.List.Sort
import Mathlib.Data.List.Nodup
import Mathlib.Data.Nat.Notation

/-!
# ORDER BY, LIMIT and OFFSET

An order may leave rows tied, and then sorting a table twice may give different lists. Lists that
are sorted from the same rows agree on what comes before a place that does not divide tied rows
(`take_perm`), so pages that are cut at such places fit together (`pages_perm`). Cut
between tied rows, they need not (`pages_tied`).
-/

namespace BackendTasks.Sql

/-- A total order, except that rows may be tied. -/
structure SortOrder (α : Type*) where
  le : α → α → Bool
  trans : ∀ a b c, le a b = true → le b c = true → le a c = true
  total : ∀ a b, (le a b || le b a) = true

namespace SortOrder

variable {α β : Type*}

/-- An order without ties. -/
def linear (α : Type*) [LinearOrder α] : SortOrder α where
  le a b := a ≤ b
  trans _ _ _ h h' := decide_eq_true (le_trans (of_decide_eq_true h) (of_decide_eq_true h'))
  total a b := by
    rw [Bool.or_eq_true, decide_eq_true_iff, decide_eq_true_iff]
    exact le_total a b

/-- The order of a column. -/
def on (o : SortOrder α) (f : β → α) : SortOrder β where
  le a b := o.le (f a) (f b)
  trans _ _ _ := o.trans _ _ _
  total _ _ := o.total _ _

/-- DESC. -/
def desc (o : SortOrder α) : SortOrder α where
  le a b := o.le b a
  trans _ _ _ h h' := o.trans _ _ _ h' h
  total _ _ := o.total _ _

/-- Nulls come last, and are tied. -/
def nullsLast (o : SortOrder α) : SortOrder (Option α) where
  le
    | _, none => true
    | none, some _ => false
    | some a, some b => o.le a b
  trans a b c h h' := by
    cases c with
    | none => rfl
    | some c =>
      cases b with
      | none => simp at h'
      | some b =>
        cases a with
        | none => simp at h
        | some a => exact o.trans a b c h h'
  total a b := by
    cases b with
    | none => rfl
    | some b =>
      cases a with
      | none => rfl
      | some a => exact o.total a b

end SortOrder

variable {R : Type*} {o : SortOrder R} {l l' rows : List R} {a b : R} {i : ℕ}

/-- The rows in their order; rows that are tied stay as they are. -/
def orderBy (o : SortOrder R) (rows : List R) : List R := rows.mergeSort o.le

/-- The rows are sorted. -/
def Sorted (o : SortOrder R) (l : List R) : Prop := l.Pairwise fun a b => o.le a b = true

theorem orderBy_sorted (o : SortOrder R) (rows : List R) : Sorted o (orderBy o rows) :=
  List.pairwise_mergeSort o.trans o.total rows

theorem orderBy_perm (o : SortOrder R) (rows : List R) : (orderBy o rows).Perm rows :=
  List.mergeSort_perm rows o.le

theorem orderBy_of_sorted (h : Sorted o l) : orderBy o l = l := List.mergeSort_of_pairwise h

/-! ## Places that divide tied rows -/

/-- The rows before and behind the place are tied. -/
def Tied (o : SortOrder R) (l : List R) (i : ℕ) : Prop :=
  ∃ front a b back, l = front ++ a :: b :: back ∧ i = front.length + 1 ∧ o.le b a = true

theorem SortOrder.refl (o : SortOrder R) (a : R) : o.le a a = true := by
  simpa using o.total a a

/-- Rows before a place that does not divide tied rows come strictly before the row there. -/
theorem Sorted.front_lt {front back : List R} (hsorted : Sorted o (front ++ b :: back))
    (htied : ¬ Tied o (front ++ b :: back) front.length) (ha : a ∈ front) : o.le b a = false := by
  rcases List.eq_nil_or_concat' front with rfl | ⟨front, c, rfl⟩
  · simp at ha
  have hc : o.le b c = false := by
    rw [← Bool.not_eq_true]
    intro hle
    exact htied ⟨front, c, b, back, by simp, by rw [List.length_append, List.length_singleton], hle⟩
  rcases List.mem_append.1 ha with ha | ha
  · -- a row that is not before `b` would bring the last one behind it
    rw [← Bool.not_eq_true]
    intro hle
    have hfront := (List.pairwise_append.1 hsorted).1
    have hac : o.le a c = true :=
      (List.pairwise_append.1 hfront).2.2 a ha c (List.mem_singleton_self c)
    rw [o.trans b a c hle hac] at hc
    simp at hc
  · rwa [List.mem_singleton.1 ha]

/-- The rows before the place come before the row there, and no other row does. -/
theorem countP_before (hsorted : Sorted o l) (htied : ¬ Tied o l i) (hb : l[i]? = some b) :
    l.countP (fun a => !o.le b a) = i := by
  obtain ⟨front, back, rfl, rfl⟩ : ∃ front back, l = front ++ b :: back ∧ i = front.length := by
    obtain ⟨hi, rfl⟩ := List.getElem?_eq_some_iff.1 hb
    have hlen : (l.take i).length = i := by
      rw [List.length_take]
      omega
    refine ⟨l.take i, l.drop (i + 1), ?_, hlen.symm⟩
    rw [← List.drop_eq_getElem_cons hi, List.take_append_drop]
  have hbefore : ∀ a ∈ front, (!o.le b a) = true := by
    intro a ha
    rw [hsorted.front_lt htied ha]
    rfl
  have hbehind : ∀ a ∈ b :: back, ¬ (!o.le b a) = true := by
    intro a ha
    have hback := (List.pairwise_append.1 hsorted).2.1
    rcases List.mem_cons.1 ha with rfl | ha
    · simp [o.refl]
    · simp [(List.pairwise_cons.1 hback).1 a ha]
  rw [List.countP_append, List.countP_eq_length.2 hbefore, List.countP_eq_zero.2 hbehind, Nat.add_zero]

/-- In a sorted list, the rows that come before a row are at its beginning. -/
theorem filter_eq_take (hsorted : Sorted o l) (b : R) :
    l.filter (fun a => !o.le b a) = l.take (l.countP fun a => !o.le b a) := by
  induction l with
  | nil => rfl
  | cons a l ih =>
    obtain ⟨ha, hl⟩ := List.pairwise_cons.1 hsorted
    cases hle : o.le b a with
    | true =>
      have hnone : ∀ c ∈ a :: l, ¬ (!o.le b c) = true := by
        intro c hc
        rcases List.mem_cons.1 hc with rfl | hc
        · simp [hle]
        · simp [o.trans b a c hle (ha c hc)]
      rw [List.filter_eq_nil_iff.2 hnone, List.countP_eq_zero.2 hnone, List.take_zero]
    | false =>
      have hbefore : (!o.le b a) = true := by rw [hle]; rfl
      rw [List.filter_cons_of_pos (p := fun a => !o.le b a) hbefore,
        List.countP_cons_of_pos (p := fun a => !o.le b a) hbefore, List.take_succ_cons, ih hl]

/-- **What comes before a place** that does not divide tied rows, in any two sorted lists. -/
theorem take_perm (hperm : l'.Perm l) (hsorted : Sorted o l) (hsorted' : Sorted o l')
    (htied : ¬ Tied o l i) : (l'.take i).Perm (l.take i) := by
  cases hb : l[i]? with
  | none =>
    have hlen := List.getElem?_eq_none_iff.1 hb
    rwa [List.take_of_length_le hlen, List.take_of_length_le (hperm.length_eq ▸ hlen)]
  | some b =>
    have hcount := countP_before hsorted htied hb
    have hcount' := (hperm.countP_eq fun a => !o.le b a).trans hcount
    have hfilter := hperm.filter fun a => !o.le b a
    rwa [filter_eq_take hsorted, filter_eq_take hsorted', hcount, hcount'] at hfilter

/-! ## Pages -/

/-- LIMIT and OFFSET, for the page with this number. -/
def page (size k : ℕ) (l : List R) : List R := (l.drop (k * size)).take size

theorem length_page (size k : ℕ) (l : List R) : (page size k l).length = min size (l.length - k * size) := by
  rw [page, List.length_take, List.length_drop]

theorem take_page (size k : ℕ) (l : List R) :
    l.take (k * size) ++ page size k l = l.take ((k + 1) * size) := by
  rw [page, Nat.succ_mul, List.take_add]

/-- **Pages fit together** when no place where they are cut divides tied rows, even if each of them
comes from a list of its own. -/
theorem pages_perm {size : ℕ} {lists : ℕ → List R} (hsorted : Sorted o l)
    (hperm : ∀ k, (lists k).Perm l) (hlists : ∀ k, Sorted o (lists k))
    (htied : ∀ k, ¬ Tied o l (k * size)) (n : ℕ) :
    ((List.range n).flatMap fun k => page size k (lists k)).Perm (l.take (n * size)) := by
  induction n with
  | zero => simp
  | succ n ih =>
    have hbefore := take_perm (hperm n) hsorted (hlists n) (htied n)
    have hafter := take_perm (hperm n) hsorted (hlists n) (htied (n + 1))
    rw [← take_page, ← take_page] at hafter
    -- both lists have the same rows before the page and at its end, so on it
    have hpage : (page size n (lists n)).Perm (page size n l) :=
      (List.perm_append_left_iff _).1 ((hbefore.symm.append_right _).trans hafter)
    rw [List.range_succ, List.flatMap_append, List.flatMap_singleton, ← take_page]
    exact ih.append hpage

/-- The list with the tied rows at the place changed over. -/
theorem exists_swapped (hsorted : Sorted o l) (htied : Tied o l i) :
    ∃ l' a, l'.Perm l ∧ Sorted o l' ∧ l[i - 1]? = some a ∧ l'[i]? = some a := by
  obtain ⟨front, a, b, back, rfl, rfl, hle⟩ := htied
  refine ⟨front ++ b :: a :: back, a, ?_, ?_, ?_, ?_⟩
  · exact (List.Perm.swap a b back).append_left front
  · obtain ⟨hfront, hback, hall⟩ := List.pairwise_append.1 hsorted
    obtain ⟨ha, hback⟩ := List.pairwise_cons.1 hback
    obtain ⟨hb, hback⟩ := List.pairwise_cons.1 hback
    have hswap : (b :: a :: back).Perm (a :: b :: back) := List.Perm.swap a b back
    refine List.pairwise_append.2 ⟨hfront, ?_, fun c hc d hd => hall c hc d (hswap.mem_iff.1 hd)⟩
    exact .cons (List.forall_mem_cons.2 ⟨hle, hb⟩)
      (.cons (fun c hc => ha c (List.mem_cons_of_mem b hc)) hback)
  · simp
  · simp

theorem mem_page {size k : ℕ} (ha : l[i]? = some a) (hlo : k * size ≤ i) (hhi : i < (k + 1) * size) :
    a ∈ page size k l := by
  have hsum : k * size + (i - k * size) = i := Nat.add_sub_cancel' hlo
  rw [Nat.succ_mul] at hhi
  refine List.mem_of_getElem? (i := i - k * size) ?_
  rw [page, List.getElem?_take_of_lt (by omega), List.getElem?_drop, hsum, ha]

/-- **Pages that do not fit together**: a row before a place that divides tied rows is given again. -/
theorem pages_tied {size k n : ℕ} (hsize : 0 < size) (hk : k < n) (hsorted : Sorted o l)
    (htied : Tied o l (k * size)) :
    ∃ lists : ℕ → List R, (∀ k, (lists k).Perm l ∧ Sorted o (lists k)) ∧
      ¬ ((List.range n).flatMap fun k => page size k (lists k)).Nodup := by
  obtain ⟨l', a, hperm, hsorted', ha, ha'⟩ := exists_swapped hsorted htied
  obtain ⟨k, rfl⟩ : ∃ j, k = j + 1 := by
    obtain ⟨front, -, -, -, -, hi, -⟩ := htied
    refine Nat.exists_eq_succ_of_ne_zero ?_
    rintro rfl
    simp at hi
  refine ⟨fun j => if j = k + 1 then l' else l, fun j => ?_, fun hnodup => ?_⟩
  · by_cases hj : j = k + 1
    · simp only [if_pos hj]
      exact ⟨hperm, hsorted'⟩
    · simp only [if_neg hj]
      exact ⟨List.Perm.refl l, hsorted⟩
  · have hdisjoint := List.pairwise_iff_getElem.1 (List.nodup_flatMap.1 hnodup).2 k (k + 1)
      (by rw [List.length_range]; omega) (by rwa [List.length_range]) k.lt_succ_self
    rw [List.getElem_range, List.getElem_range] at hdisjoint
    rw [Nat.succ_mul] at ha
    refine hdisjoint (a := a) ?_ ?_
    · change a ∈ page size k (if k = k + 1 then l' else l)
      rw [if_neg (Nat.ne_of_lt k.lt_succ_self)]
      refine mem_page ha (by omega) ?_
      rw [Nat.succ_mul]
      omega
    · change a ∈ page size (k + 1) (if k + 1 = k + 1 then l' else l)
      rw [if_pos rfl]
      exact mem_page ha' (Nat.le_refl _) (Nat.mul_lt_mul_of_pos_right (Nat.lt_succ_self _) hsize)

end BackendTasks.Sql
