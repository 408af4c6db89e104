import Mathlib.Data.List.Basic
import Mathlib.Data.Nat.Notation

/-!
# Calls of several threads, one after the other

Each call changes the state and returns a result (`serial`). A view of the state that the
calls of some threads act on by themselves, and that the others leave alone, changes as if
those threads ran alone (`view_serial`). So schedules that agree on these threads' calls
agree on the view and on what the calls return (`view_eq`).

If the calls act alike on related states, whole schedules do (`serial_sim`).
-/

namespace BackendTasks.Sched

variable {ι σ X R V : Type*}

/-- The state after the calls, and the calls with their results. -/
def serial (act : σ → X → σ × R) : σ → List (ι × X) → σ × List (ι × X × R)
  | s, [] => (s, [])
  | s, (t, x) :: calls =>
    let r := serial act (act s x).1 calls
    (r.1, (t, x, (act s x).2) :: r.2)

variable {act : σ → X → σ × R} {s s' : σ} {calls : List (ι × X)}

theorem serial_append (s : σ) (calls more : List (ι × X)) :
    serial act s (calls ++ more) =
      ((serial act (serial act s calls).1 more).1,
        (serial act s calls).2 ++ (serial act (serial act s calls).1 more).2) := by
  induction calls generalizing s with
  | nil => rfl
  | cons e calls ih => simp only [List.cons_append, serial, ih]

/-- The state alone. -/
theorem serial_fst (s : σ) (calls : List (ι × X)) :
    (serial act s calls).1 = (calls.map Prod.snd).foldl (fun s x => (act s x).1) s := by
  induction calls generalizing s with
  | nil => rfl
  | cons e calls ih => simp only [serial, List.map_cons, List.foldl_cons, ih]

/-- What a call in the middle returns. -/
theorem serial_result {before after : List (ι × X × R)} {t : ι} {x : X} {r : R}
    (h : (serial act s calls).2 = before ++ (t, x, r) :: after) :
    r = (act (serial act s (before.map fun e => (e.1, e.2.1))).1 x).2 := by
  induction before generalizing s calls with
  | nil =>
    cases calls with
    | nil => simp [serial] at h
    | cons e calls =>
      have hhead := (List.cons.inj h).1
      simp only [Prod.mk.injEq] at hhead
      obtain ⟨-, rfl, rfl⟩ := hhead
      rfl
  | cons e' before ih =>
    cases calls with
    | nil => simp [serial] at h
    | cons e calls =>
      obtain ⟨rfl, htail⟩ := List.cons.inj h
      exact ih htail

/-- **Refinement.** -/
theorem serial_sim {σ' : Type*} {act' : σ' → X → σ' × R} {Rel : σ → σ' → Prop}
    (hstep : ∀ s s' x, Rel s s' → Rel (act s x).1 (act' s' x).1 ∧ (act s x).2 = (act' s' x).2)
    {s : σ} {s' : σ'} (h : Rel s s') (calls : List (ι × X)) :
    Rel (serial act s calls).1 (serial act' s' calls).1 ∧
      (serial act s calls).2 = (serial act' s' calls).2 := by
  induction calls generalizing s s' with
  | nil => exact ⟨h, rfl⟩
  | cons e calls ih =>
    obtain ⟨hrel, hresult⟩ := hstep s s' e.2 h
    obtain ⟨hfinal, hrest⟩ := ih hrel
    refine ⟨hfinal, ?_⟩
    simp only [serial, hresult, hrest]

/-- The calls of the threads in `mine` act on the view by themselves, and those of the other threads
leave it alone. -/
structure Private (act : σ → X → σ × R) (view : σ → V) (mine : ι → Bool) (calls : List (ι × X)) : Prop where
  own : ∀ e ∈ calls, mine e.1 = true → ∀ s s', view s = view s' →
    view (act s e.2).1 = view (act s' e.2).1 ∧ (act s e.2).2 = (act s' e.2).2
  other : ∀ e ∈ calls, mine e.1 = false → ∀ s, view (act s e.2).1 = view s

variable {view : σ → V} {mine : ι → Bool}

/-- **On a private view the other threads' calls can be left out.** -/
theorem view_serial (h : Private act view mine calls) (hs : view s = view s') :
    view (serial act s calls).1 = view (serial act s' (calls.filter (mine ·.1))).1 ∧
      (serial act s calls).2.filter (mine ·.1) = (serial act s' (calls.filter (mine ·.1))).2 := by
  induction calls generalizing s s' with
  | nil => exact ⟨hs, rfl⟩
  | cons e calls ih =>
    have htail : Private act view mine calls :=
      ⟨fun e' he' => h.own e' (List.mem_cons_of_mem _ he'),
        fun e' he' => h.other e' (List.mem_cons_of_mem _ he')⟩
    by_cases he : mine e.1 = true
    · obtain ⟨hview, hresult⟩ := h.own e List.mem_cons_self he s s' hs
      obtain ⟨hfinal, hrest⟩ := ih htail hview
      have hfilter : (e :: calls).filter (mine ·.1) = e :: calls.filter (mine ·.1) :=
        List.filter_cons_of_pos he
      rw [hfilter]
      refine ⟨hfinal, ?_⟩
      simp only [serial, List.filter_cons, he, if_true, hresult, hrest]
    · have hview := h.other e List.mem_cons_self (by simpa using he) s
      obtain ⟨hfinal, hrest⟩ := ih htail (hview.trans hs)
      have hfilter : (e :: calls).filter (mine ·.1) = calls.filter (mine ·.1) :=
        List.filter_cons_of_neg he
      rw [hfilter]
      refine ⟨hfinal, ?_⟩
      simp only [serial, List.filter_cons, he, hrest]
      rfl

/-- **Two schedules** of the same calls of the threads in `mine` agree on their view. -/
theorem view_eq {calls' : List (ι × X)} (h : Private act view mine calls)
    (h' : Private act view mine calls')
    (hsame : calls.filter (mine ·.1) = calls'.filter (mine ·.1)) :
    view (serial act s calls).1 = view (serial act s calls').1 ∧
      (serial act s calls).2.filter (mine ·.1) = (serial act s calls').2.filter (mine ·.1) := by
  obtain ⟨h₁, h₂⟩ := view_serial h (s := s) rfl
  obtain ⟨h₁', h₂'⟩ := view_serial h' (s := s) rfl
  rw [h₁, h₁', h₂, h₂', hsame]
  exact ⟨rfl, rfl⟩

/-! ## Interleavings -/

variable [DecidableEq ι] {xs : ι → List X} {order : List ι} {t : ι}

/-- An interleaving of the threads' sequences of calls. -/
def Interleaving (xs : ι → List X) (calls : List (ι × X)) : Prop :=
  ∀ t, calls.filter (·.1 = t) = (xs t).map (Prod.mk t)

/-- The threads one after the other. -/
def oneByOne (xs : ι → List X) (order : List ι) : List (ι × X) :=
  order.flatMap fun t => (xs t).map (Prod.mk t)

theorem filter_oneByOne_of_notMem (ht : t ∉ order) : (oneByOne xs order).filter (·.1 = t) = [] := by
  refine List.filter_eq_nil_iff.2 fun e he => ?_
  obtain ⟨u, hu, he⟩ := List.mem_flatMap.1 he
  obtain ⟨x, -, rfl⟩ := List.mem_map.1 he
  have hne : u ≠ t := fun h => ht (h ▸ hu)
  simpa using hne

theorem interleaving_oneByOne (xs : ι → List X) (hnodup : order.Nodup) (hall : ∀ t, t ∈ order) :
    Interleaving xs (oneByOne xs order) := by
  intro t
  have ht := hall t
  clear hall
  induction order with
  | nil => simp at ht
  | cons u order ih =>
    have hcons : oneByOne xs (u :: order) = (xs u).map (Prod.mk u) ++ oneByOne xs order := rfl
    rw [hcons, List.filter_append]
    rw [List.nodup_cons] at hnodup
    by_cases hu : u = t
    · subst hu
      have hself : ((xs u).map (Prod.mk u)).filter (·.1 = u) = (xs u).map (Prod.mk u) := by
        refine List.filter_eq_self.2 fun e he => ?_
        obtain ⟨x, -, rfl⟩ := List.mem_map.1 he
        simp
      rw [hself, filter_oneByOne_of_notMem hnodup.1, List.append_nil]
    · have hother : ((xs u).map (Prod.mk u)).filter (·.1 = t) = [] := by
        refine List.filter_eq_nil_iff.2 fun e he => ?_
        obtain ⟨x, -, rfl⟩ := List.mem_map.1 he
        simpa using hu
      have hmem : t ∈ order := (List.mem_cons.1 ht).resolve_left (Ne.symm hu)
      rw [hother, List.nil_append, ih hnodup.2 hmem]

/-- A call of an interleaving is one of its thread's. -/
theorem Interleaving.mem (h : Interleaving xs calls) {e : ι × X} (he : e ∈ calls) : e.2 ∈ xs e.1 := by
  have hmem : e ∈ calls.filter (·.1 = e.1) := List.mem_filter.2 ⟨he, by simp⟩
  rw [h e.1] at hmem
  obtain ⟨x, hx, heq⟩ := List.mem_map.1 hmem
  exact heq ▸ hx

end BackendTasks.Sched
