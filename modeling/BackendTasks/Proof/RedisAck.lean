import BackendTasks.Proof.RedisRoundTrip

/-!
# POSTs that are acknowledged

`do_action` drops what `set` returns, and `set` takes an error reply for a success. So a POST with a
key is answered with "OK" whatever becomes of the command (`doAction_post`).

* `acknowledged_iff`: the answer is right just when the command was carried out, and has stored the key
  and the value as they were posted.
-/

namespace BackendTasks.RedisServer

open Net

variable {client : RedisClient} {fate : Fate} {store : Store} {key value body : Bytes}

/-- The command reached Redis and Redis carried it out. -/
def Executed (client : RedisClient) (fate : Fate) : Prop :=
  client.context = true ∧ (fate = .done ∨ fate = .lost true)

/-- A POST that is answered with 200 and "OK" has stored its value under its key, and one whose command
was not carried out is not answered with 200. -/
def Acknowledged (client : RedisClient) (fate : Fate) (store : Store) (target body : Bytes) : Prop :=
  let (after, res) := doAction client fate store ⟨.post, target, body⟩
  (res = ⟨.ok, ascii "OK"⟩ → ∃ key value, body = key ++ 61 :: value ∧ 61 ∉ key ∧ after key = some value) ∧
    (¬ (61 ∈ body ∧ Executed client fate) → res.result ≠ .ok)

theorem set_store (client : RedisClient) (fate : Fate) (store : Store) (key value : Bytes) :
    Executed client fate ∧
        (client.set fate store key value).1 = Function.update store (cstr key) (some (cstr value)) ∨
      ¬ Executed client fate ∧ (client.set fate store key value).1 = store := by
  obtain ⟨context⟩ := client
  cases context with
  | false => exact .inr ⟨by simp [Executed], rfl⟩
  | true =>
    cases fate with
    | done => exact .inl ⟨by simp [Executed], rfl⟩
    | refused str => exact .inr ⟨by simp [Executed], rfl⟩
    | lost carriedOut =>
      cases carriedOut with
      | true => exact .inl ⟨by simp [Executed], rfl⟩
      | false => exact .inr ⟨by simp [Executed], rfl⟩

/-- What a command that was carried out has stored under the key. -/
theorem update_cstr_iff (store : Store) (key value : Bytes) :
    Function.update store (cstr key) (some (cstr value)) key = some value ↔
      0 ∉ key ∧ 0 ∉ value ∨ 0 ∈ key ∧ store key = some value := by
  by_cases hkey : 0 ∈ key
  · have hne : key ≠ cstr key := fun heq => cstr_eq_self.1 heq.symm hkey
    simp [Function.update_of_ne hne, hkey]
  · rw [cstr_eq_self.2 hkey, Function.update_self, Option.some.injEq, cstr_eq_self]
    simp [hkey]

/-- **When a POST is acknowledged rightly**: just when it has no key, or the command was carried out and
neither key nor value has a NUL (or the key has one, and the value was there already). -/
theorem acknowledged_iff (client : RedisClient) (fate : Fate) (store : Store) (target body : Bytes) :
    Acknowledged client fate store target body ↔
      ∀ key value, body = key ++ 61 :: value → 61 ∉ key →
        Executed client fate ∧ (0 ∉ key ∧ 0 ∉ value ∨ 0 ∈ key ∧ store key = some value) := by
  by_cases hsign : 61 ∈ body
  · obtain ⟨key, value, rfl, hkey⟩ := List.eq_append_cons_of_mem hsign
    have hanswer := doAction_post hkey client fate store target value
    rw [forall_divided hkey, ← update_cstr_iff]
    simp only [Acknowledged, hanswer]
    constructor
    · rintro ⟨hstored, hexecuted⟩
      have hdone : Executed client fate := by
        by_contra hnot
        exact hexecuted (fun h => hnot h.2) rfl
      obtain ⟨key', value', heq, hkey', hvalue⟩ := hstored trivial
      obtain ⟨rfl, rfl⟩ := divide_unique hkey hkey' heq
      rcases set_store client fate store key value with ⟨-, hstore⟩ | ⟨hnot, -⟩
      · rw [hstore] at hvalue
        exact ⟨hdone, hvalue⟩
      · exact absurd hdone hnot
    · rintro ⟨hdone, hvalue⟩
      refine ⟨fun _ => ⟨key, value, rfl, hkey, ?_⟩, fun h => absurd ⟨hsign, hdone⟩ h⟩
      rcases set_store client fate store key value with ⟨-, hstore⟩ | ⟨hnot, -⟩
      · rw [hstore]
        exact hvalue
      · exact absurd hdone hnot
  · have hnone : doAction client fate store ⟨.post, target, body⟩ =
        (store, ⟨.badRequest, ascii "Bad body format"⟩) := by simp only [doAction, if_neg hsign]
    refine iff_of_true ?_ ?_
    · simp [Acknowledged, hnone]
    · rintro key value rfl -
      simp at hsign

/-- **A lost write that is acknowledged.** Redis is out of memory, and the client is told "OK". -/
theorem refused_acknowledged :
    doAction connected (.refused (ascii "OOM command not allowed")) (fun _ => none)
        ⟨.post, ascii "/", ascii "k=v"⟩ = (fun _ => none, ⟨.ok, ascii "OK"⟩) ∧
      ¬ Acknowledged connected (.refused (ascii "OOM command not allowed")) (fun _ => none) (ascii "/")
        (ascii "k=v") := by
  have hanswer : doAction connected (.refused (ascii "OOM command not allowed")) (fun _ => none)
      ⟨.post, ascii "/", ascii "k=v"⟩ = (fun _ => none, ⟨.ok, ascii "OK"⟩) := rfl
  refine ⟨hanswer, fun h => ?_⟩
  simp only [Acknowledged, hanswer] at h
  obtain ⟨_, _, -, -, hvalue⟩ := h.1 trivial
  simp at hvalue

end BackendTasks.RedisServer
