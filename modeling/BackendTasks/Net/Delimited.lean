import Mathlib.Data.Nat.Notation
import Mathlib.Data.List.Infix

/-!
# Codes that delimit themselves

A sender writes items one after the other as words, and nothing between them. A reader takes one
item off the front of a stream, if all of its word is there. It is steady when an item that it has
found stays the same as more of the stream arrives.

* `readAll_append`: what a steady reader finds in a stream it finds piece by piece, if it keeps what
  is left; so the division into pieces does not matter (`receive_eq`).
* `receive_words`: of the pieces of a stream of words it gets the items, in order, and of pieces of
  a beginning of the stream a beginning of the items, with those of all words in it (`receive_whole`).
* `words_inj`: a stream is the stream of one list of items only.
-/

namespace BackendTasks.Net

variable {α β : Type*}

/-- The first item and what is behind it. -/
abbrev Reader (α β : Type*) := List β → Option (α × List β)

/-- What is found does not depend on what comes behind it. -/
structure Steady (read : Reader α β) : Prop where
  more {s : List β} {a : α} {rest : List β} :
    read s = some (a, rest) → ∀ t, read (s ++ t) = some (a, rest ++ t)
  shorter {s : List β} {a : α} {rest : List β} : read s = some (a, rest) → rest.length < s.length

/-! ## Reading as much as there is -/

/-- At most `n` items, and what is left. -/
def readUpTo (read : Reader α β) : ℕ → List β → List α × List β
  | 0, s => ([], s)
  | n + 1, s =>
    match read s with
    | none => ([], s)
    | some (a, rest) => (a :: (readUpTo read n rest).1, (readUpTo read n rest).2)

/-- All items, and what is left. -/
def readAll (read : Reader α β) (s : List β) : List α × List β := readUpTo read s.length s

variable {read : Reader α β} {s t : List β} {a : α} {rest : List β}

/-- Nothing is found in nothing. -/
theorem Steady.read_nil (hread : Steady read) : read [] = none := by
  by_contra hsome
  obtain ⟨⟨a, rest⟩, hfound⟩ := Option.ne_none_iff_exists'.1 hsome
  exact Nat.not_lt_zero _ (hread.shorter hfound)

theorem readUpTo_eq (hread : Steady read) {m n : ℕ} (hm : s.length ≤ m) (hn : s.length ≤ n) :
    readUpTo read m s = readUpTo read n s := by
  induction m generalizing n s with
  | zero =>
    obtain rfl := List.eq_nil_of_length_eq_zero (Nat.le_zero.1 hm)
    cases n with
    | zero => rfl
    | succ n => rw [readUpTo, readUpTo, hread.read_nil]
  | succ m ih =>
    cases hfound : read s with
    | none => cases n <;> simp [readUpTo, hfound]
    | some found =>
      obtain ⟨a, rest⟩ := found
      have hlt := hread.shorter hfound
      obtain ⟨n, rfl⟩ : ∃ k, n = k + 1 := ⟨n - 1, by omega⟩
      have hsame : readUpTo read m rest = readUpTo read n rest := ih (by omega) (by omega)
      simp only [readUpTo, hfound, hsame]

theorem readAll_none (h : read s = none) : readAll read s = ([], s) := by
  unfold readAll
  cases s.length <;> simp [readUpTo, h]

theorem readAll_some (hread : Steady read) (h : read s = some (a, rest)) :
    readAll read s = (a :: (readAll read rest).1, (readAll read rest).2) := by
  have hlt := hread.shorter h
  obtain ⟨n, hn⟩ : ∃ n, s.length = n + 1 := ⟨s.length - 1, by omega⟩
  have hsame : readUpTo read n rest = readAll read rest :=
    readUpTo_eq hread (by omega) (Nat.le_refl _)
  simp only [readAll, hn, readUpTo, h, hsame]

/-- A stream with the reader's items taken off it one after the other. -/
theorem reading_induction (hread : Steady read) {P : List β → Prop}
    (hnone : ∀ s, read s = none → P s)
    (hsome : ∀ s a rest, read s = some (a, rest) → P rest → P s) (s : List β) : P s := by
  induction hn : s.length using Nat.strong_induction_on generalizing s with
  | _ n ih =>
    cases hfound : read s with
    | none => exact hnone s hfound
    | some found => exact hsome s _ _ hfound (ih _ (hn ▸ hread.shorter hfound) _ rfl)

/-- What is left has no item. -/
theorem read_left (hread : Steady read) (s : List β) : read (readAll read s).2 = none := by
  induction s using reading_induction hread with
  | hnone s h => rwa [readAll_none h]
  | hsome s a rest h ih => rwa [readAll_some hread h]

/-- **Two pieces** are read as the first, and then what is left of it with the second. -/
theorem readAll_append (hread : Steady read) (s t : List β) :
    readAll read (s ++ t) =
      ((readAll read s).1 ++ (readAll read ((readAll read s).2 ++ t)).1,
        (readAll read ((readAll read s).2 ++ t)).2) := by
  induction s using reading_induction hread with
  | hnone s h => rw [readAll_none h, List.nil_append]
  | hsome s a rest h ih => rw [readAll_some hread (hread.more h t), readAll_some hread h, ih]; rfl

/-! ## A stream that arrives in pieces -/

/-- The items found as the pieces arrive, and what is left at the end. -/
def receive (read : Reader α β) : List β → List (List β) → List α × List β
  | left, [] => ([], left)
  | left, piece :: pieces =>
    let found := readAll read (left ++ piece)
    (found.1 ++ (receive read found.2 pieces).1, (receive read found.2 pieces).2)

/-- **The division into pieces does not matter.** -/
theorem receive_eq (hread : Steady read) {left : List β} (hleft : read left = none)
    (pieces : List (List β)) :
    receive read left pieces = readAll read (left ++ pieces.flatten) := by
  induction pieces generalizing left with
  | nil => rw [List.flatten_nil, List.append_nil, readAll_none hleft, receive]
  | cons piece pieces ih =>
    rw [receive, ih (read_left hread _), List.flatten_cons, ← List.append_assoc,
      readAll_append hread (left ++ piece)]

/-! ## Streams of words -/

section Words

variable {γ : Type*} {word : γ → List β} {item : γ → α} {codes : List γ}

theorem readAll_words (hread : Steady read)
    (hword : ∀ code ∈ codes, ∀ t, read (word code ++ t) = some (item code, t)) (t : List β) :
    readAll read ((codes.map word).flatten ++ t) =
      (codes.map item ++ (readAll read t).1, (readAll read t).2) := by
  induction codes with
  | nil => rfl
  | cons code codes ih =>
    have hfirst := hword code List.mem_cons_self ((codes.map word).flatten ++ t)
    rw [List.map_cons, List.flatten_cons, List.append_assoc, readAll_some hread hfirst,
      ih fun code hcode => hword code (List.mem_cons_of_mem _ hcode)]
    rfl

/-- **What is received of a stream of words** is the items; as long as part of the stream is on its
way it is a beginning of them. -/
theorem receive_words (hread : Steady read)
    (hword : ∀ code ∈ codes, ∀ t, read (word code ++ t) = some (item code, t))
    {pieces : List (List β)} (hpieces : pieces.flatten <+: (codes.map word).flatten) :
    (receive read [] pieces).1 <+: codes.map item ∧
    (pieces.flatten = (codes.map word).flatten →
      receive read [] pieces = (codes.map item, [])) := by
  have hall := readAll_words hread hword []
  rw [List.append_nil, readAll_none hread.read_nil, List.append_nil] at hall
  rw [receive_eq hread hread.read_nil, List.nil_append]
  constructor
  · obtain ⟨t, ht⟩ := hpieces
    have hsplit := readAll_append hread pieces.flatten t
    rw [ht, hall] at hsplit
    exact ⟨_, (congrArg Prod.fst hsplit).symm⟩
  · intro heq
    rw [heq, hall]

/-- Of the words that have arrived whole the items are received. -/
theorem receive_whole (hread : Steady read)
    (hword : ∀ code ∈ codes, ∀ t, read (word code ++ t) = some (item code, t))
    {pieces : List (List β)} (hpieces : (codes.map word).flatten <+: pieces.flatten) :
    codes.map item <+: (receive read [] pieces).1 := by
  obtain ⟨t, ht⟩ := hpieces
  rw [receive_eq hread hread.read_nil, List.nil_append, ← ht, readAll_words hread hword t]
  exact List.prefix_append _ _

/-- **A stream of words has one reading.** -/
theorem words_inj (hread : Steady read) {codes' : List γ}
    (hword : ∀ code ∈ codes ++ codes', ∀ t, read (word code ++ t) = some (item code, t))
    (heq : (codes.map word).flatten = (codes'.map word).flatten) :
    codes.map item = codes'.map item := by
  have h := readAll_words hread (fun code hcode => hword code (List.mem_append_left _ hcode)) []
  have h' := readAll_words hread (fun code hcode => hword code (List.mem_append_right _ hcode)) []
  rw [heq, h'] at h
  exact (List.append_cancel_right (congrArg Prod.fst h)).symm

end Words

end BackendTasks.Net
