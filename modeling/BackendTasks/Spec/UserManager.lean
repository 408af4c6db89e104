import BackendTasks.Sql.Like
import BackendTasks.Sql.Order
import BackendTasks.Net.Bytes
import BackendTasks.Sched.Monitor
import Mathlib.Data.List.Sort

/-!
# `Database` and `UserService`

`databases/User_Manager/src` and `schema.sql`. Each function of `Database` opens a transaction,
executes one statement and, if it changes the table, commits. What PostgreSQL chooses is part of
a step's label (`Luck`): whether the connection fails, the id that `SERIAL` gives, the time, and
the order in which an UPDATE visits the rows. An uncommitted transaction is rolled back, so a
transaction that fails anywhere leaves the table as it was. It is assumed that a COMMIT that fails was
not executed: the connection does not break between the COMMIT and its answer, after which pqxx throws
`in_doubt_error` although the table may have changed.

The names are values of the server's `TEXT`, and so have no NUL.
-/

namespace BackendTasks.UserManager

open Net Sql

variable {Name : Type} [DecidableEq Name]

/-! ## schema.sql -/

structure Row (Name : Type) where
  id : ℤ
  name : Name
  age : Option ℤ
  createdAt : Option Bytes
  deriving DecidableEq

/-- The values of `INT` and of `int`. -/
def isInt (n : ℤ) : Bool := -2147483648 ≤ n && n ≤ 2147483647

/-- The primary key `id`, and the unique index on `name` and `age`, in which null ages are all
different. -/
def sameKey (a b : Row Name) : Bool :=
  a.id == b.id || (a.name == b.name && a.age == b.age && a.age.isSome)

theorem sameKey_comm (a b : Row Name) : sameKey a b = sameKey b a := by
  unfold sameKey
  rw [Bool.eq_iff_iff]
  simp only [Bool.or_eq_true, Bool.and_eq_true, beq_iff_eq]
  constructor
  · rintro (h | ⟨⟨hname, hage⟩, hsome⟩)
    · exact .inl h.symm
    · exact .inr ⟨⟨hname.symm, hage.symm⟩, hage ▸ hsome⟩
  · rintro (h | ⟨⟨hname, hage⟩, hsome⟩)
    · exact .inl h.symm
    · exact .inr ⟨⟨hname.symm, hage.symm⟩, hage ▸ hsome⟩

def users (Name : Type) [DecidableEq Name] : Schema (Row Name) where
  check row := isInt row.id && row.age.all fun age => isInt age && 0 < age
  clash := sameKey
  clash_comm := sameKey_comm

abbrev Users (Name : Type) [DecidableEq Name] := Table (users Name)

/-! ## `Database` -/

/-- Whether `connect`, `exec` or `commit` fails because of the connection. By assumption no answer to a
COMMIT is lost, so a `commit` that fails has not changed the table. -/
inductive Fate
  | fine
  | broken
  deriving DecidableEq

/-- What PostgreSQL chooses in a call. In `registerUser`, `select` is the fate of the first of the two
transactions. -/
structure Luck where
  select : Fate
  fate : Fate
  id : ℤ
  now : Bytes
  order : List ℕ

/-- A `pqxx::work` that executes a statement and commits it. -/
def work (fate : Fate) (t : Users Name) (statement : Except SqlError (Users Name)) :
    Users Name × Except SqlError Unit :=
  match fate, statement with
  | .fine, .ok t' => (t', .ok ())
  | .fine, .error e => (t, .error e)
  | .broken, _ => (t, .error .brokenConnection)

/-- An id that `SERIAL` may give. -/
def Fresh (t : Users Name) (id : ℤ) : Prop :=
  1 ≤ id ∧ id ≤ 2147483647 ∧ ∀ row ∈ t.rows, row.id ≠ id

instance (t : Users Name) (id : ℤ) : Decidable (Fresh t id) :=
  inferInstanceAs (Decidable (_ ∧ _ ∧ _))

/-- INSERT INTO users (name, age). It fails when `SERIAL` has no id left. -/
def insertUser (t : Users Name) (luck : Luck) (name : Name) (age : ℤ) :
    Except SqlError (Users Name) :=
  if Fresh t luck.id then t.insert ⟨luck.id, name, some age, some luck.now⟩ else .error .outOfRange

def addUser (t : Users Name) (luck : Luck) (name : Name) (age : ℤ) :
    Users Name × Except SqlError Unit :=
  work luck.fate t (insertUser t luck name age)

def updateUserAge (t : Users Name) (luck : Luck) (name : Name) (newAge : ℤ) :
    Users Name × Except SqlError Unit :=
  work luck.fate t
    (t.updateWhere (·.name == name) (fun row => .ok { row with age := some newAge }) luck.order)

/-- `age + $1`. -/
def addYears (years : ℤ) (row : Row Name) : Except SqlError (Row Name) :=
  match row.age with
  | none => .ok row
  | some age =>
    if isInt (age + years) then .ok { row with age := some (age + years) } else .error .outOfRange

def increaseUserAge (t : Users Name) (luck : Luck) (name : Name) (years : ℤ) :
    Users Name × Except SqlError Unit :=
  work luck.fate t (t.updateWhere (·.name == name) (addYears years) luck.order)

def deleteUser (t : Users Name) (luck : Luck) (name : Name) : Users Name × Except SqlError Unit :=
  work luck.fate t (.ok (t.delete (·.name == name)))

def clearUsers (t : Users Name) (luck : Luck) : Users Name × Except SqlError Unit :=
  work luck.fate t (.ok (t.delete fun _ => true))

def userExists (fate : Fate) (t : Users Name) (name : Name) (age : ℤ) : Except SqlError Bool :=
  match fate with
  | .fine => .ok (t.rows.any fun row => row.name == name && row.age == some age)
  | .broken => .error .brokenConnection

/-- The `userExists` that takes a name only. -/
def userExistsNamed (fate : Fate) (t : Users Name) (name : Name) : Except SqlError Bool :=
  match fate with
  | .fine => .ok (t.rows.any fun row => row.name == name)
  | .broken => .error .brokenConnection

/-! ## Reading the table -/

structure User (Name : Type) where
  id : ℤ
  name : Name
  age : ℤ
  createdAt : Bytes
  deriving DecidableEq

/-- `as<int>()`, which throws at null and at a number that is no `int`. -/
def asInt : Option ℤ → Except SqlError ℤ
  | some n => if isInt n then .ok n else .error .conversion
  | none => .error .conversion

/-- `as<std::string>()`. -/
def asString : Option Bytes → Except SqlError Bytes
  | some text => .ok text
  | none => .error .conversion

/-- The loop of `dataCollection`. -/
def dataCollection : List (Row Name) → Except SqlError (List (User Name))
  | [] => .ok []
  | row :: res => do
    let id ← asInt (some row.id)
    let age ← asInt row.age
    let createdAt ← asString row.createdAt
    let usersInfo ← dataCollection res
    return ⟨id, row.name, age, createdAt⟩ :: usersInfo

/-- `getUsers`, on a connection that works: the rows in the order of their ids. -/
def getUsers (t : Users Name) : Except SqlError (List (User Name)) :=
  dataCollection (t.rows.mergeSort fun a b => a.id ≤ b.id)

/-- `getUserCount`. -/
def getUserCount (t : Users Name) : Except SqlError ℤ := asInt (some t.rows.length)

/-- `getUserByAgeRange`, on a connection that works. BETWEEN is not true of a null. The rows are met in
the order `scan`. -/
def getUserByAgeRange (t : Users Name) (scan : List (Row Name)) (minAge maxAge : ℤ) :
    Except SqlError (List (User Name)) :=
  let res := (t.scan scan).filter fun row => row.age.any fun age => minAge ≤ age && age ≤ maxAge
  dataCollection (orderBy ((SortOrder.linear ℤ).nullsLast.on (·.age)) res)

/-! ## Searching and sorting

What PostgreSQL has from the database's settings is a parameter: the small letters (`Locale`), and the
orders of names and of times. -/

/-- A parameter of a statement. It is sent as a C string. -/
def parameter (text : List Char) : List Char := text.takeWhile (· != '\x00')

/-- `findUsersByName`, on a connection that works. The rows are met in the order `scan`. -/
def findUsersByName (L : Sql.Locale) (names : SortOrder (List Char)) (t : Users (List Char))
    (scan : List (Row (List Char))) (name : List Char) : Except SqlError (List (User (List Char))) := do
  let res ← selectWhere (fun row => ilike L row.name ('%' :: parameter name ++ ['%'])) (t.scan scan)
  dataCollection (orderBy (names.on (·.name)) res)

/-- `allowedColumns`. -/
inductive Column
  | id
  | name
  | age
  | createdAt

/-- `column`: what is not allowed is `id`. -/
def column (sortBy : Bytes) : Column :=
  if sortBy = ascii "name" then .name
  else if sortBy = ascii "age" then .age
  else if sortBy = ascii "created_at" then .createdAt
  else .id

/-- ORDER BY the column. -/
def columnOrder (names : SortOrder Name) (times : SortOrder Bytes) : Column → SortOrder (Row Name)
  | .id => (SortOrder.linear ℤ).on (·.id)
  | .name => names.on (·.name)
  | .age => (SortOrder.linear ℤ).nullsLast.on (·.age)
  | .createdAt => times.nullsLast.on (·.createdAt)

/-- `order`. -/
def direction (ascending : Bool) (o : SortOrder (Row Name)) : SortOrder (Row Name) :=
  if ascending then o else o.desc

/-- `getUsersSorted`, on a connection that works. The rows are met in the order `scan`, and so rows that
are tied stay. -/
def getUsersSorted (names : SortOrder Name) (times : SortOrder Bytes) (t : Users Name)
    (scan : List (Row Name)) (sortBy : Bytes) (ascending : Bool) (limit offset : ℤ) :
    Except SqlError (List (User Name)) :=
  let rows := orderBy (direction ascending (columnOrder names times (column sortBy))) (t.scan scan)
  let rows := if 0 < offset then rows.drop offset.toNat else rows
  let rows := if 0 < limit then rows.take limit.toNat else rows
  dataCollection rows

/-! ## `UserService` -/

def registerUser (t : Users Name) (luck : Luck) (name : Name) (age : ℤ) :
    Users Name × Except SqlError Unit :=
  match userExists luck.select t name age with
  | .error e => (t, .error e)
  | .ok true => (t, .ok ())
  | .ok false => addUser t luck name age

/-! ## Any sequence of calls -/

inductive Call (Name : Type)
  | registerUser (name : Name) (age : ℤ)
  | addUser (name : Name) (age : ℤ)
  | updateUserAge (name : Name) (newAge : ℤ)
  | increaseUserAge (name : Name) (years : ℤ)
  | deleteUser (name : Name)
  | clearUsers

/-- The table after a call, and whether the call throws. -/
def call (t : Users Name) (luck : Luck) : Call Name → Users Name × Except SqlError Unit
  | .registerUser name age => registerUser t luck name age
  | .addUser name age => addUser t luck name age
  | .updateUserAge name newAge => updateUserAge t luck name newAge
  | .increaseUserAge name years => increaseUserAge t luck name years
  | .deleteUser name => deleteUser t luck name
  | .clearUsers => clearUsers t luck

open Sched

/-- The calls on a table created from the schema. -/
def calls (Name : Type) [DecidableEq Name] : Lts (Users Name) (Luck × Call Name) where
  init := .empty _
  step t a := some (call t a.1 a.2).1

/-! ## Clients that register at once

Each client has a connection of its own, and its two transactions are two steps. -/

/-- The arguments of a call: an `int` above 0, and a name. -/
structure Registration (Name : Type) where
  name : Name
  age : ℤ
  pos : 0 < age
  le : age ≤ 2147483647

/-- Where a client is in `registerUser`. -/
inductive Pc
  | calling
  | inserting
  | returned
  | threw
  deriving DecidableEq

/-- The transaction that a client executes, on a connection that works. -/
inductive Txn
  | select
  | insert (id : ℤ) (now : Bytes)
  deriving DecidableEq

variable {ι : Type}

def clientStep (request : ι → Registration Name) (i : ι) (t : Users Name) :
    Pc → Txn → Option (Users Name × Pc)
  | .calling, .select =>
    match userExists .fine t (request i).name (request i).age with
    | .error _ => some (t, .threw)
    | .ok true => some (t, .returned)
    | .ok false => some (t, .inserting)
  | .inserting, .insert id now =>
    if Fresh t id then
      match addUser t ⟨.fine, .fine, id, now, []⟩ (request i).name (request i).age with
      | (t', .ok ()) => some (t', .returned)
      | (t', .error _) => some (t', .threw)
    else none
  | _, _ => none

/-- The clients on the table `t`. -/
def clients (request : ι → Registration Name) (t : Users Name) : Prog ι Empty (Users Name) Pc Txn where
  init := t
  start _ := .calling
  step i t p x := (clientStep request i t p x).map fun r => (r.1, r.2, .tau)
  wake _ _ := none

/-- The state of the table and of the clients. -/
abbrev Clients (ι Name : Type) [DecidableEq Name] := Conf ι (Users Name) Pc

end BackendTasks.UserManager
