import BackendTasks.Proof.LockFreeNodes

/-!
# The lock-free queue under its own reclamation

`pop` deletes the old head right after its CAS, without asking who still holds the
node's address. What goes wrong then is the reuse of an address: a CAS compares
addresses only, so it cannot tell a node created where the expected one was from the expected one.

`NoReuse` is the condition that no step creates a node at an address that a pending
CAS compares with. Under it a pending CAS installs a current successor (`cas_nextIs`),
and the nodes keep their chains (`nodes_ok`).
-/

namespace BackendTasks.LockFreeQueue

open Sched

variable {ι T : Type*} {a b n : Addr} {p p' : Pc} {s s' : Shared T} {x : Choice T}

/-! ## What threads hold -/

/-- The node a `push` has created and not linked yet. -/
def Pc.unlinked : Pc → Option Addr
  | .pushTail n | .pushNext n _ | .pushLink n _ | .pushHelp n _ _ => some n
  | _ => none

/-- The node a `pop` has taken off and not deleted yet. -/
def Pc.removed : Pc → Option Addr
  | .popValue h _ _ | .popDelete h => some h
  | _ => none

/-- What a pending CAS on `head` compares with and what it installs. -/
def Pc.headCas : Pc → Option (Addr × Addr)
  | .popSwing h x => some (h, x)
  | _ => none

/-- What a pending CAS on `head` or `tail` compares with and what it installs. -/
def Pc.cas : Pc → Option (Addr × Addr)
  | .popSwing h x => some (h, x)
  | .pushHelp _ t x => some (t, x)
  | .pushSwing n t => some (t, n)
  | _ => none

theorem Pc.cas_of_headCas {ab : Addr × Addr} (h : p.headCas = some ab) : p.cas = some ab := by
  cases p <;> simp_all [headCas, cas]

/-- The nodes of a state and who holds them. -/
def nodes (c : State ι T) : Nodes ι T :=
  ⟨c.sh.heap, c.sh.head, Pc.unlinked ∘ c.pc, Pc.removed ∘ c.pc⟩

/-! ## Reuse of addresses -/

/-- The address at which a step creates a node. -/
def Choice.allocates : Choice T → Option Addr
  | .push _ n => some n
  | _ => none

/-- The step does not create a node at an address that a pending CAS compares with. -/
def NoReuse (sel : Pc → Option (Addr × Addr)) (c : State ι T) (act : ι × Choice T) : Prop :=
  ∀ n ∈ act.2.allocates, ∀ i, (sel (c.pc i)).map Prod.fst ≠ some n

instance [Fintype ι] (sel : Pc → Option (Addr × Addr)) (c : State ι T) (act : ι × Choice T) :
    Decidable (NoReuse sel c act) :=
  inferInstanceAs (Decidable (∀ n ∈ act.2.allocates, ∀ i, (sel (c.pc i)).map Prod.fst ≠ some n))

theorem NoReuse.headCas {c : State ι T} {act : ι × Choice T} (h : NoReuse Pc.cas c act) :
    NoReuse Pc.headCas c act := by
  intro n hn i hi
  obtain ⟨ab, hab, hfst⟩ := Option.map_eq_some_iff.1 hi
  exact h n hn i (by rw [Pc.cas_of_headCas hab, Option.map_some, hfst])

/-! ## Pending CASes see current successors -/

/-- A step keeps a node's successor, unless it creates a node at its address. -/
theorem Move.nextIs (hm : Move true s p x s' p') (h : s.NextIs a (some b))
    (hx : ∀ n ∈ x.allocates, n ≠ a) : s'.NextIs a (some b) := by
  intro nd hnd
  cases hm with
  | push hfree =>
    rename_i v n
    have hne : a ≠ n := fun e => hx n rfl e.symm
    exact h nd (by simpa [Function.update_of_ne hne] using hnd)
  | link ht hnull =>
    rename_i n t l ndt
    rw [Shared.link_heap ht] at hnd
    by_cases hat : a = t
    · subst hat; rw [h ndt ht] at hnull; simp at hnull
    · exact h nd (by simpa [Function.update_of_ne hat] using hnd)
  | delete =>
    rename_i o l
    rw [Shared.delete_heap] at hnd
    by_cases hao : a = o
    · subst hao; simp at hnd
    · exact h nd (by simpa [Function.update_of_ne hao] using hnd)
  | help | swing => exact h nd (by simpa using hnd)
  | _ => exact h nd hnd

/-- A CAS installs what its thread has just seen behind the node it compares with. -/
theorem Move.cas (hm : Move true s p x s' p') (h : p'.cas = some (a, b)) : s'.NextIs a (some b) := by
  cases hm with
  | loadNext hnext => cases h; exact hnext
  | loadSucc hnext => cases h; exact hnext
  | link ht _ =>
    cases h
    intro nd hnd
    rw [Shared.link_heap ht] at hnd
    rw [Function.update_self] at hnd
    exact (Option.some.inj hnd) ▸ rfl
  | linkGone ht => cases h; intro nd hnd; rw [ht] at hnd; simp at hnd
  | _ => simp [Pc.cas] at h

variable [Inhabited T] [DecidableEq ι] [Fintype ι] {c c' : State ι T} {t : ι}

/-- Without reuse of the addresses they compare with, pending CASes install current
successors. -/
theorem cas_nextIs {sel : Pc → Option (Addr × Addr)}
    (hsel : ∀ p ab, sel p = some ab → p.cas = some ab) (h : (prog ι true).lts.ReachIf (NoReuse sel) c) :
    ∀ i a b, sel (c.pc i) = some (a, b) → c.sh.NextIs a (some b) := by
  refine h.invariant
    (I := fun c => ∀ i a b, sel (c.pc i) = some (a, b) → c.sh.NextIs a (some b)) ?_ ?_
  · intro i a b hi
    have := hsel _ _ hi
    simp [prog, Prog.lts, Pc.cas] at this
  intro c act c' _ ih hok hs i a b hi
  obtain ⟨s, p, hm, rfl⟩ := conf_move hs
  by_cases hit : i = act.1
  · subst hit
    exact hm.cas (hsel _ _ (by simpa using hi))
  · simp only [Function.update_of_ne hit] at hi
    refine hm.nextIs (ih i a b hi) fun n hn hna => hok n hn i ?_
    rw [hi, hna]; rfl

/-! ## The steps on the nodes -/

omit [Inhabited T] [Fintype ι] in
theorem nodes_update (o : Option ι) (s : Shared T) (p : Pc) :
    nodes ⟨o, s, Function.update c.pc t p⟩ =
      ⟨s.heap, s.head, Function.update (nodes c).unlinked t p.unlinked,
        Function.update (nodes c).removed t p.removed⟩ := by
  simp only [nodes, Function.comp_update]

omit [Inhabited T] [Fintype ι] in
/-- A step leaves the nodes and their owners alone or is a step of `Nodes`. -/
theorem nodes_move (hI : (nodes c).OK) (hcas : ∀ h x, c.pc t = .popSwing h x → c.sh.NextIs h (some x))
    (hm : Move true c.sh (c.pc t) x s p) :
    nodes ⟨c.owner, s, Function.update c.pc t p⟩ = nodes c ∨
      (nodes c).Step (nodes ⟨c.owner, s, Function.update c.pc t p⟩) := by
  have hun : p.unlinked = (c.pc t).unlinked →
      Function.update (nodes c).unlinked t p.unlinked = (nodes c).unlinked := by
    intro h; rw [h]; exact Function.update_eq_self ..
  have hrem : p.removed = (c.pc t).removed →
      Function.update (nodes c).removed t p.removed = (nodes c).removed := by
    intro h; rw [h]; exact Function.update_eq_self ..
  have hunt : (nodes c).unlinked t = (c.pc t).unlinked := rfl
  have hremt : (nodes c).removed t = (c.pc t).removed := rfl
  -- a step that changes neither the nodes nor what its thread holds
  have hquiet : s.heap = c.sh.heap → s.head = c.sh.head → p.unlinked = (c.pc t).unlinked →
      p.removed = (c.pc t).removed → nodes ⟨c.owner, s, Function.update c.pc t p⟩ = nodes c := by
    intro h1 h2 h3 h4
    rw [nodes_update, h1, h2, hun h3, hrem h4]; rfl
  rw [nodes_update]
  rw [nodes_update] at hquiet
  generalize hp : c.pc t = p₀ at hm hquiet hun hrem hunt hremt
  cases hm with
  | push hfree =>
    rename_i v n
    refine .inr ?_
    rw [hrem rfl]
    exact .alloc (t := t) (v := v) hfree
  | link ht hnull =>
    rename_i n q l nd
    refine .inr ?_
    rw [hrem rfl, Shared.link_heap ht, Shared.link_head]
    exact .link hunt ht hnull
  | linkGone ht =>
    refine .inr ?_
    rw [hrem rfl]
    exact .forget (t := t)
  | advance hhead hspur =>
    rename_i o y l
    refine .inr ?_
    obtain ⟨nd, hnd, -⟩ := hI.head
    have hnext : nd.next = some y := hcas o y hp nd (hhead ▸ hnd)
    rw [hun rfl, ← hhead]
    exact .advance hremt hnd hnext
  | delete =>
    rename_i o l
    refine .inr ?_
    rw [hun rfl, Shared.delete_heap, Shared.delete_head]
    exact .delete hremt
  | help | swing => exact .inl (hquiet (by simp) (by simp) rfl rfl)
  | _ => exact .inl (hquiet rfl rfl rfl rfl)

theorem nodes_init : (nodes (prog ι true : Prog ι Empty (Shared T) Pc (Choice T)).lts.init).OK := by
  have hlive : ∀ {a nd}, (nodes (prog ι true).lts.init : Nodes ι T).Live a nd →
      a = 0 ∧ nd = ⟨default, none⟩ := by
    intro a nd hl
    have h := hl.1
    by_cases ha : a = 0
    · subst ha; exact ⟨rfl, by simpa [nodes, prog, Prog.lts, construct] using h.symm⟩
    · simp [nodes, prog, Prog.lts, construct, ha] at h
  refine ⟨⟨⟨default, none⟩, rfl, fun i => by simp [nodes, prog, Prog.lts, Pc.removed]⟩, ?_, ?_, ?_, ?_,
    ?_, ?_, ?_⟩
  · intro a nd b hl hb; rw [(hlive hl).2] at hb; simp at hb
  · intro a a' nd nd' b hl hl' _ _; rw [(hlive hl).1, (hlive hl').1]
  all_goals intros; simp_all [nodes, prog, Prog.lts, Pc.unlinked, Pc.removed]

/-- **The chains are kept by every run** that does not reuse an address a CAS on `head`
compares with. -/
theorem nodes_ok (h : (prog ι true).lts.ReachIf (NoReuse Pc.headCas) c) : (nodes c).OK := by
  refine h.invariant (I := fun c : State ι T => (nodes c).OK) nodes_init ?_
  intro c act c' hc ih _ hs
  obtain ⟨s, p, hm, rfl⟩ := conf_move hs
  have hcas : ∀ o y, c.pc act.1 = .popSwing o y → c.sh.NextIs o (some y) := fun o y hp =>
    cas_nextIs (fun _ _ => Pc.cas_of_headCas) hc act.1 o y (by rw [hp]; rfl)
  rcases nodes_move ih hcas hm with heq | hstep
  · rw [heq]; exact ih
  · exact hstep.ok ih

end BackendTasks.LockFreeQueue
