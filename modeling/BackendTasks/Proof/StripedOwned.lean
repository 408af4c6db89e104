import BackendTasks.Proof.StripedMap

/-!
# Threads that own their keys

Threads whose calls are about different keys do not notice each other, also where the keys share
stripes: the entries of a thread's keys are its private view of the stripes (`private_entries`).
So every interleaving ends with the contents, and gives each `get` the result, that the
threads have one after the other (`owned_keys`).
-/

namespace BackendTasks.StripedUm

open Sched

variable {ι T : Type*} [DecidableEq ι] [DecidableEq T] [Inhabited T] {hash : T → ℕ} {t u : ι}
  {xs : ι → List (Call T)} {l l' : List (ι × Call T)}

/-- The keys of different threads' calls are different. -/
def OwnKeys (xs : ι → List (Call T)) : Prop :=
  ∀ t u, t ≠ u → ∀ x ∈ xs t, ∀ y ∈ xs u, x.key ≠ y.key

/-- The thread makes a call about the key. -/
def Owns (xs : ι → List (Call T)) (t : ι) (key : T) : Prop := ∃ x ∈ xs t, x.key = key

omit [DecidableEq ι] in
/-- A call changes the entry of its own key only. -/
theorem call_of_ne (stripes : Stripes T) {x : Call T} {i : Fin 16} {key : T}
    (h : i = getStriped hash x.key → key ≠ x.key) : (call hash stripes x).1 i key = stripes i key := by
  simp only [call, locked_eq]
  by_cases hi : i = getStriped hash x.key
  · subst hi
    rw [Function.update_self, Function.update_of_ne (h rfl)]
  · rw [Function.update_of_ne hi]

omit [DecidableEq ι] in
theorem call_self (hash : T → ℕ) (stripes : Stripes T) (x : Call T) :
    (call hash stripes x).1 (getStriped hash x.key) x.key =
        (x.entry (stripes (getStriped hash x.key) x.key)).1 ∧
      (call hash stripes x).2 = (x.entry (stripes (getStriped hash x.key) x.key)).2 := by
  simp only [call, locked_eq, Function.update_self, and_self]

/-- The entries of the keys that satisfy `P`, each in its key's stripe. -/
def entries (hash : T → ℕ) (P : T → Prop) (stripes : Stripes T) : {key // P key} → Option T :=
  fun key => stripes (getStriped hash key) key

/-- **A thread's entries are private to it.** -/
theorem private_entries (hash : T → ℕ) (hown : OwnKeys xs) (h : Interleaving xs l) (t : ι) :
    Private (call hash) (entries hash (Owns xs t)) (fun u => decide (u = t)) l := by
  refine ⟨fun e he ht s s' hs => ?_, fun e he ht s => ?_⟩
  · have hmine : Owns xs t e.2.key := by
      have ht : e.1 = t := by simpa using ht
      exact ⟨e.2, ht ▸ h.mem he, rfl⟩
    have hentry : s (getStriped hash e.2.key) e.2.key = s' (getStriped hash e.2.key) e.2.key :=
      congrFun hs ⟨e.2.key, hmine⟩
    obtain ⟨h₁, h₂⟩ := call_self hash s e.2
    obtain ⟨h₁', h₂'⟩ := call_self hash s' e.2
    refine ⟨funext fun key => ?_, by rw [h₂, h₂', hentry]⟩
    by_cases hkey : key.1 = e.2.key
    · simp only [entries, hkey, h₁, h₁', hentry]
    · simp only [entries, call_of_ne _ fun _ => hkey]
      exact congrFun hs key
  · have hne : t ≠ e.1 := fun heq => by simp [heq] at ht
    refine funext fun key => ?_
    obtain ⟨x, hx, hkey⟩ := key.2
    exact call_of_ne s fun _ => hkey ▸ hown t e.1 hne x hx e.2 (h.mem he)

/-- Entries that no call is about are left alone. -/
theorem untouched (h : Interleaving xs l) {i : Fin 16} {key : T}
    (hkey : i = getStriped hash key → ∀ t, ¬ Owns xs t key) (stripes : Stripes T) :
    (serial (call hash) stripes l).1 i key = stripes i key := by
  have hpriv : Private (call hash) (fun s : Stripes T => s i key) (fun _ : ι => false) l := by
    refine ⟨fun _ _ hf => absurd hf (by simp), fun e he _ s => call_of_ne s ?_⟩
    rintro hi rfl
    exact hkey hi e.1 ⟨e.2, h.mem he, rfl⟩
  obtain ⟨hview, -⟩ := view_serial hpriv (s := stripes) rfl
  have hnil : l.filter (fun _ => false) = [] := List.filter_false l
  rwa [hnil] at hview

/-- Two interleavings of the threads' calls. -/
theorem interleaving_eq (hash : T → ℕ) (hown : OwnKeys xs) (h : Interleaving xs l)
    (h' : Interleaving xs l') (stripes : Stripes T) :
    (serial (call hash) stripes l).1 = (serial (call hash) stripes l').1 ∧
      ∀ t, (serial (call hash) stripes l).2.filter (·.1 = t) =
        (serial (call hash) stripes l').2.filter (·.1 = t) := by
  have hview := fun t => view_eq (s := stripes) (private_entries hash hown h t)
    (private_entries hash hown h' t) ((h t).trans (h' t).symm)
  refine ⟨funext fun i => funext fun key => ?_, fun t => (hview t).2⟩
  by_cases hkey : i = getStriped hash key → ∀ t, ¬ Owns xs t key
  · rw [untouched h hkey, untouched h' hkey]
  · push Not at hkey
    obtain ⟨rfl, t, ht⟩ := hkey
    exact congrFun (hview t).1 ⟨key, ht⟩

/-- **Threads that own their keys do not depend on the schedule.** Every interleaving of their calls
ends with the contents, and gives each of them the results, that the threads have one after the
other in any order. So does every run of the threads that has completed these calls. -/
theorem owned_keys [Fintype ι] (hash : T → ℕ) (xs : ι → List (Call T)) (hown : OwnKeys xs)
    (order : List ι) (hnodup : order.Nodup) (hall : ∀ t, t ∈ order) :
    (∀ stripes l, Interleaving xs l →
      (serial (call hash) stripes l).1 = (serial (call hash) stripes (oneByOne xs order)).1 ∧
      ∀ t, (serial (call hash) stripes l).2.filter (·.1 = t) =
        (serial (call hash) stripes (oneByOne xs order)).2.filter (·.1 = t)) ∧
    ∀ c : State ι T, (prog ι hash).lts.Reach c → Interleaving xs (calls c.sh.log) →
      c.sh.data = (serial (call hash) construct (oneByOne xs order)).1 ∧
      ∀ t, c.sh.log.filter (·.1 = t) =
        (serial (call hash) construct (oneByOne xs order)).2.filter (·.1 = t) := by
  have horder : Interleaving xs (oneByOne xs order) := interleaving_oneByOne xs hnodup hall
  refine ⟨fun stripes l hl => interleaving_eq hash hown hl horder stripes, fun c hc hl => ?_⟩
  have hlog : serial (call hash) construct (calls c.sh.log) = (c.sh.data, c.sh.log) := (serial_log hc).1
  have heq := interleaving_eq hash hown hl horder construct
  rw [hlog] at heq
  exact heq

/-- Keys 0 and 16 share a stripe. -/
theorem owned_keys_shared : ∃ xs : Fin 2 → List (Call ℕ),
    xs 0 = [.insert 0 7, .get 0] ∧ xs 1 = [.insert 16 8, .erase 16] ∧
      (serial (call id) construct
          [((0 : Fin 2), .insert 0 7), (1, .insert 16 8), (0, .get 0), (1, .erase 16)]).1 =
        (serial (call id) construct (oneByOne xs [1, 0])).1 := by
  refine ⟨fun t => if t = 0 then [.insert 0 7, .get 0] else [.insert 16 8, .erase 16], rfl, rfl, ?_⟩
  refine ((owned_keys id _ ?_ [1, 0] (by decide) (by decide)).1 construct _ ?_).1
  · unfold OwnKeys
    decide
  · unfold Interleaving
    decide

end BackendTasks.StripedUm
