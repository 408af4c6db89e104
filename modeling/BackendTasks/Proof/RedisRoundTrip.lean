import BackendTasks.Spec.RedisServer

/-!
# Values that come back

A POST stores the C string of its value under the C string of its key, and a GET answers with the
C string of what is stored under that of its key (`post_store`, `get_answer`). So a value comes
back just when it has no NUL, and the answer for another key stays just when that key is
another C string too, or had the value already (`round_trip_iff`).
-/

namespace BackendTasks.RedisServer

open Net

variable {store : Store} {key value other : Bytes}

/-- The client once it is constructed. -/
def connected : RedisClient := ⟨true⟩

def post (key value : Bytes) : Request := ⟨.post, ascii "/", key ++ 61 :: value⟩

def get (key : Bytes) : Request := ⟨.get, 47 :: key, []⟩

/-- What is read for a key. -/
def answer (store : Store) (key : Bytes) : Bytes := cstr ((store (cstr key)).getD [])

theorem get_answer (store : Store) (key : Bytes) :
    doAction connected .done store (get key) = (store, ⟨.ok, answer store key⟩) := by
  have hkey : (if (get key).target.head? = some 47 then (get key).target.tail else (get key).target) =
      key := rfl
  have hget : connected.get .done store key = (store, answer store key) := by
    have hnil : cstr [] = [] := rfl
    unfold answer
    cases hvalue : store (cstr key) with
    | none => simp [RedisClient.get, connected, redisCommand, Command.run, hvalue, hnil]
    | some value => simp [RedisClient.get, connected, redisCommand, Command.run, hvalue]
  have hmethod : (get key).method = .get := rfl
  simp only [doAction, hmethod, hkey, hget]

/-- Whatever becomes of the command, the answer to a POST with a key is "OK". -/
theorem doAction_post (hkey : 61 ∉ key) (client : RedisClient) (fate : Fate) (store : Store)
    (target value : Bytes) :
    doAction client fate store ⟨.post, target, key ++ 61 :: value⟩ =
      ((client.set fate store key value).1, ⟨.ok, ascii "OK"⟩) := by
  have hmem : 61 ∈ key ++ 61 :: value := by simp
  obtain ⟨hfirst, hrest⟩ := divide hkey value
  simp only [doAction, if_pos hmem, hfirst, hrest, List.tail_cons]

theorem post_store (hkey : 61 ∉ key) (store : Store) (value : Bytes) :
    doAction connected .done store (post key value) =
      (Function.update store (cstr key) (some (cstr value)), ⟨.ok, ascii "OK"⟩) :=
  doAction_post hkey connected .done store (ascii "/") value

/-- After a POST of the key and the value a GET of the key answers with the value, and one of another
key as before. -/
def RoundTrip (store : Store) (key value other : Bytes) : Prop :=
  let after := (doAction connected .done store (post key value)).1
  (doAction connected .done after (get key)).2 = ⟨.ok, value⟩ ∧
    (other ≠ key →
      (doAction connected .done after (get other)).2 = (doAction connected .done store (get other)).2)

/-- **When a value comes back**, whatever was handled before: just when it has no NUL, and the other key
differs from the key before its first NUL or has the value already. -/
theorem round_trip_iff (store : Store) (value other : Bytes) (hkey : 61 ∉ key) :
    RoundTrip store key value other ↔
      0 ∉ value ∧ (other ≠ key → cstr other = cstr key → answer store other = value) := by
  have hself : answer (Function.update store (cstr key) (some (cstr value))) key = cstr value := by
    simp [answer, cstr_cstr]
  have hother : answer (Function.update store (cstr key) (some (cstr value))) other =
      if cstr other = cstr key then cstr value else answer store other := by
    by_cases hsame : cstr other = cstr key
    · simp [answer, hsame, cstr_cstr]
    · simp [answer, hsame]
  simp only [RoundTrip, post_store hkey, get_answer, hself, hother, Response.mk.injEq, true_and,
    cstr_eq_self]
  refine and_congr_right fun hvalue => imp_congr_right fun _ => ?_
  rw [cstr_eq_self.2 hvalue]
  by_cases hsame : cstr other = cstr key
  · simp [hsame, eq_comm]
  · simp [hsame]

/-- A value with the sign that ends the key, and a key that begins with the slash that is taken off. -/
theorem round_trip_sign : RoundTrip (fun _ => none) (ascii "/k") (ascii "a=b") (ascii "k") :=
  (round_trip_iff _ (ascii "a=b") (ascii "k") (by decide)).2
    ⟨by decide, fun _ hsame => absurd hsame (by decide)⟩

/-- **A value that does not come back, and a key that is overwritten.** -/
theorem round_trip_cut :
    (doAction connected .done (doAction connected .done (fun _ => none)
      (post (ascii "k") (ascii "a" ++ 0 :: ascii "b"))).1 (get (ascii "k"))).2 = ⟨.ok, ascii "a"⟩ ∧
    ¬ RoundTrip (fun _ => none) (ascii "k") (ascii "a" ++ 0 :: ascii "b") (ascii "l") ∧
    ¬ RoundTrip (fun _ => none) (ascii "k" ++ [0]) (ascii "a") (ascii "k") := by
  refine ⟨by decide, fun h => absurd h.1 (by decide), fun h => absurd (h.2 (by decide)) (by decide)⟩

end BackendTasks.RedisServer
