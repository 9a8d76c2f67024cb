import Wakuwaku.Redis.Keyspace
import Mathlib.Algebra.Group.Nat.Defs

/-! # A Redis server with its clock

Keys may expire: each item is stored with the millisecond after which it is gone. A `Command` runs
alone at one moment, as a script does; it does not roll back when it fails. Commands on one key are
`atKey`, and the commands that keep no time run through `exec`. -/

namespace Wakuwaku.Redis

/-- An item, and the last millisecond it lives if it expires. -/
structure Stored where
  item : Item
  expires : Option ℕ

/-- Whether the item is gone at a millisecond. -/
def Stored.expired (now : ℕ) (stored : Stored) : Bool :=
  match stored.expires with
  | none => false
  | some deadline => deadline < now

/-- The deadline of what is stored. -/
def deadlineOf (stored : Option Stored) : Option ℕ := stored.bind Stored.expires

structure Server where
  /-- The time in microseconds. -/
  clock : ℕ
  db : Bytes → Option Stored

namespace Server

/-- The time in milliseconds. -/
def now (server : Server) : ℕ := server.clock / 1000

def keys (server : Server) : Keyspace := fun key => (server.db key).map Stored.item

/-- The server at a later time, without the items that are gone by then. -/
def advance (server : Server) (clock : ℕ) : Server :=
  ⟨clock, fun key => (server.db key).filter fun stored => !stored.expired (clock / 1000)⟩

/-- Store something at a key, or nothing. -/
def put (server : Server) (key : Bytes) (stored : Option Stored) : Server :=
  { server with db := Function.update server.db key stored }

variable (server : Server) (key : Bytes) (stored : Option Stored)

@[simp] theorem now_put : (server.put key stored).now = server.now := rfl

@[simp] theorem clock_put : (server.put key stored).clock = server.clock := rfl

@[simp] theorem db_put_self : (server.put key stored).db key = stored := Function.update_self _ _ _

@[simp] theorem db_put_of_ne {key key' : Bytes} (h : key' ≠ key) :
    (server.put key stored).db key' = server.db key' := Function.update_of_ne h _ _

@[simp] theorem put_put (stored' : Option Stored) :
    (server.put key stored).put key stored' = server.put key stored' := by
  simp [put]

@[simp] theorem put_db : server.put key (server.db key) = server := by
  simp [put]

@[simp] theorem now_advance (clock : ℕ) : (server.advance clock).now = clock / 1000 := rfl

variable {server key}

theorem db_advance_of_none (clock : ℕ) (h : server.db key = none) :
    (server.advance clock).db key = none := by
  simp [advance, h]

theorem db_advance_of_some (clock : ℕ) {item : Item} {deadline : ℕ}
    (h : server.db key = some ⟨item, some deadline⟩) :
    (server.advance clock).db key =
      if deadline < clock / 1000 then none else some ⟨item, some deadline⟩ := by
  show (server.db key).filter _ = _
  rw [h]
  by_cases hd : deadline < clock / 1000
  · simp [Option.filter, Stored.expired, hd]
  · simp [Option.filter, Stored.expired, hd]

/-- What is stored at a later time. -/
theorem db_advance (server : Server) (key : Bytes) (clock : ℕ) :
    (server.advance clock).db key = server.db key ∧
      (∀ deadline, deadlineOf (server.db key) = some deadline → clock / 1000 ≤ deadline) ∨
    (server.advance clock).db key = none ∧
      (server.db key = none ∨
        ∃ deadline, deadlineOf (server.db key) = some deadline ∧ deadline < clock / 1000) := by
  cases hdb : server.db key with
  | none => exact Or.inr ⟨db_advance_of_none clock hdb, Or.inl rfl⟩
  | some stored =>
    obtain ⟨item, expires⟩ := stored
    cases expires with
    | none =>
      refine Or.inl ⟨?_, by simp [deadlineOf]⟩
      show (server.db key).filter _ = _
      rw [hdb]
      rfl
    | some deadline =>
      have hat := db_advance_of_some clock hdb
      by_cases hlt : deadline < clock / 1000
      · rw [if_pos hlt] at hat
        exact Or.inr ⟨hat, Or.inr ⟨deadline, rfl, hlt⟩⟩
      · rw [if_neg hlt] at hat
        refine Or.inl ⟨hat, ?_⟩
        rintro _ ⟨⟩
        exact Nat.not_lt.mp hlt

end Server

/-! ### Commands -/

/-- A command, or a script of commands. -/
abbrev Command : Type → Type := ExceptT Error (StateM Server)

variable {α β : Type} {server server' : Server}

namespace Command

/-- Fail without a change. -/
def fail (error : Error) : Command α := fun server => (.error error, server)

/-- Fail if `result` is an error. -/
def ofResult (result : Except Error α) : Command α := fun server => (result, server)

@[simp] theorem pure_apply (a : α) : (pure a : Command α) server = (.ok a, server) := rfl

theorem ofResult_of_ok {result : Except Error α} {a : α} (h : result = .ok a) :
    ofResult result server = (.ok a, server) := by
  rw [h]
  rfl

theorem bind_of_ok {m : Command α} {f : α → Command β} {a : α} (h : m server = (.ok a, server')) :
    (m >>= f) server = f a server' := by
  show (ExceptT.bind m f) server = f a server'
  simp only [ExceptT.bind, ExceptT.mk, bind, StateT.bind, h, ExceptT.bindCont]

theorem bind_of_error {m : Command α} {f : α → Command β} {e : Error}
    (h : m server = (.error e, server')) : (m >>= f) server = (.error e, server') := by
  show (ExceptT.bind m f) server = _
  simp only [ExceptT.bind, ExceptT.mk, bind, StateT.bind, h, ExceptT.bindCont]
  rfl

/-- `MULTI`: both commands run, whether or not the first one fails. Its error is the one the client gets. -/
def multi (m : Command Unit) (n : Command α) : Command α := fun server =>
  match m server with
  | (.ok (), server) => n server
  | (.error e, server) => (.error e, (n server).2)

theorem multi_of_ok {m : Command Unit} {n : Command α} (h : m server = (.ok (), server')) :
    multi m n server = n server' := by
  simp only [multi, h]

theorem multi_of_error {m : Command Unit} {n : Command α} {e : Error} (h : m server = (.error e, server')) :
    multi m n server = (.error e, (n server').2) := by
  simp only [multi, h]

end Command

/-- A command on one key: from the time and what is stored, the reply and what is stored then. -/
def atKey (key : Bytes) (f : ℕ → Option Stored → Except Error (α × Option Stored)) : Command α :=
  fun server =>
    match f server.now (server.db key) with
    | .ok (a, stored) => (.ok a, server.put key stored)
    | .error error => (.error error, server)

theorem atKey_of_ok {key : Bytes} {f : ℕ → Option Stored → Except Error (α × Option Stored)} {a : α}
    {stored : Option Stored} (h : f server.now (server.db key) = .ok (a, stored)) :
    atKey key f server = (.ok a, server.put key stored) := by
  simp only [atKey, h]

/-- The same, when nothing changes. -/
theorem atKey_of_same {key : Bytes} {f : ℕ → Option Stored → Except Error (α × Option Stored)} {a : α}
    (h : f server.now (server.db key) = .ok (a, server.db key)) : atKey key f server = (.ok a, server) := by
  rw [atKey_of_ok h, Server.put_db]

/-- `TIME` in milliseconds, as the scripts compute it from seconds and microseconds. -/
def luaNow : Command ℕ := fun server =>
  (.ok (server.clock / 1000000 * 1000 + server.clock % 1000000 / 1000), server)

theorem luaNow_apply : luaNow server = (.ok server.now, server) := by
  unfold luaNow Server.now
  rw [show server.clock / 1000000 * 1000 + server.clock % 1000000 / 1000 = server.clock / 1000 by omega]

/-- An action on the items; what stays keeps its deadline. -/
def exec (action : Action α) : Command α := fun server =>
  ((action server.keys).1, { server with
    db := fun key => ((action server.keys).2 key).map fun item =>
      ⟨item, (server.db key).bind Stored.expires⟩ })

/-- An action that depends on the time. -/
def execAt (action : ℕ → Action α) : Command α := fun server => exec (action server.now) server

/-- An action that only reads. -/
theorem exec_of_read {action : Action α} {result : Except Error α}
    (h : action server.keys = (result, server.keys)) : exec action server = (result, server) := by
  have hdb : (fun key => (server.keys key).map fun item =>
      (⟨item, (server.db key).bind Stored.expires⟩ : Stored)) = server.db := by
    funext key
    unfold Server.keys
    cases server.db key <;> rfl
  simp only [exec, h, hdb]

theorem execAt_of_read {action : ℕ → Action α} {result : Except Error α}
    (h : action server.now server.keys = (result, server.keys)) : execAt action server = (result, server) :=
  exec_of_read h

/-- An action that stores an item at one key, where it keeps the deadline. -/
theorem exec_of_put {action : Action α} {a : α} {key : Bytes} {item : Item}
    (h : action server.keys = (.ok a, Function.update server.keys key (some item))) :
    exec action server = (.ok a, server.put key (some ⟨item, (server.db key).bind Stored.expires⟩)) := by
  have hdb : (fun other => (Function.update server.keys key (some item) other).map fun item =>
      (⟨item, (server.db other).bind Stored.expires⟩ : Stored)) =
        Function.update server.db key (some ⟨item, (server.db key).bind Stored.expires⟩) := by
    funext other
    by_cases ho : other = key
    · subst ho
      simp only [Function.update_self, Option.map_some]
    · simp only [Function.update_of_ne ho]
      unfold Server.keys
      cases server.db other <;> rfl
  simp only [exec, h, hdb, Server.put]

/-! ### Keys -/

/-- `EXISTS key`. -/
def keyExists (key : Bytes) : Command Bool := atKey key fun _ stored => .ok (stored.isSome, stored)

/-- `DEL key`: how many keys there were. -/
def del (key : Bytes) : Command ℕ :=
  atKey key fun _ stored => .ok (if stored.isSome then 1 else 0, none)

/-- Whether `ttl` milliseconds from `now` on is out of the range of times. -/
def outOfRange (now ttl : ℕ) : Prop := 2 ^ 63 ≤ now + ttl

instance (now ttl : ℕ) : Decidable (outOfRange now ttl) := by unfold outOfRange; infer_instance

/-- `PEXPIRE key ttl`: how many keys there were. -/
def pexpire (key : Bytes) (ttl : ℕ) : Command ℕ := atKey key fun now stored =>
  if outOfRange now ttl then .error (.server "ERR invalid expire time in 'pexpire' command")
  else match stored with
    | none => .ok (0, none)
    | some stored => .ok (1, if ttl = 0 then none else some ⟨stored.item, some (now + ttl)⟩)

/-- `PTTL key`: -2 for an absent key, -1 for one that does not expire. -/
def pttl (key : Bytes) : Command Int := atKey key fun now stored =>
  .ok (match stored with
    | none => -2
    | some ⟨_, none⟩ => -1
    | some ⟨_, some deadline⟩ => (deadline : Int) - now, stored)

/-- `GET key`. -/
def get (key : Bytes) : Command (Option Bytes) := atKey key fun _ stored =>
  match stored with
  | none => .ok (none, none)
  | some ⟨.string value, expires⟩ => .ok (some value, some ⟨.string value, expires⟩)
  | some _ => .error wrongType

/-- `SET key value NX PX ttl`: whether it was set. -/
def setNxPx (key value : Bytes) (ttl : ℕ) : Command Bool := atKey key fun now stored =>
  if ttl = 0 ∨ outOfRange now ttl then .error (.server "ERR invalid expire time in 'set' command")
  else match stored with
    | none => .ok (true, some ⟨.string value, some (now + ttl)⟩)
    | some stored => .ok (false, some stored)

/-- `SET key value PX ttl`, whatever was stored. -/
def setPx (key value : Bytes) (ttl : ℕ) : Command Unit := atKey key fun now _ =>
  if ttl = 0 ∨ outOfRange now ttl then .error (.server "ERR invalid expire time in 'set' command")
  else .ok ((), some ⟨.string value, some (now + ttl)⟩)

/-! ### Sorted sets -/

/-- A sorted set as it is stored: an empty one is not. -/
def sortedSet (members : List (Bytes × ℕ)) (expires : Option ℕ) : Option Stored :=
  if members = [] then none else some ⟨.sortedSet members, expires⟩

/-- The members with `member` at `score`. -/
def setScore (members : List (Bytes × ℕ)) (member : Bytes) (score : ℕ) : List (Bytes × ℕ) :=
  if ∃ pair ∈ members, pair.1 = member then
    members.map fun pair => if pair.1 = member then (member, score) else pair
  else members ++ [(member, score)]

/-- A command on the sorted set at a key; an absent key holds no members. -/
def atSortedSet (key : Bytes) (f : List (Bytes × ℕ) → α × List (Bytes × ℕ)) : Command α :=
  atKey key fun _ stored =>
    match stored with
    | none => .ok ((f []).1, sortedSet (f []).2 none)
    | some ⟨.sortedSet members, expires⟩ => .ok ((f members).1, sortedSet (f members).2 expires)
    | some _ => .error wrongType

/-- `ZADD key score member`. -/
def zadd (key : Bytes) (score : ℕ) (member : Bytes) : Command Unit :=
  atSortedSet key fun members => ((), setScore members member score)

/-- `ZADD key XX score member`, which adds no member. -/
def zaddXx (key : Bytes) (score : ℕ) (member : Bytes) : Command Unit :=
  atSortedSet key fun members =>
    ((), members.map fun pair => if pair.1 = member then (member, score) else pair)

/-- `ZREM key member`. -/
def zrem (key member : Bytes) : Command Unit :=
  atSortedSet key fun members => ((), members.filter fun pair => pair.1 ≠ member)

/-- `ZREMRANGEBYSCORE key -inf max`. -/
def zremrangebyscore (key : Bytes) (max : ℕ) : Command Unit :=
  atSortedSet key fun members => ((), members.filter fun pair => max < pair.2)

/-- `ZSCORE key member`. -/
def zscore (key member : Bytes) : Command (Option ℕ) :=
  atSortedSet key fun members => ((members.find? fun pair => pair.1 = member).map Prod.snd, members)

/-- `ZCARD key`. -/
def zcard (key : Bytes) : Command ℕ := atSortedSet key fun members => (members.length, members)

/-! ### Lists -/

/-- A list as it is stored: an empty one is not. -/
def listOf (values : List Bytes) (expires : Option ℕ) : Option Stored :=
  if values = [] then none else some ⟨.list values, expires⟩

/-- `RPUSH key value`: how long the list is then. -/
def rpush (key value : Bytes) : Command ℕ := atKey key fun _ stored =>
  match stored with
  | none => .ok (1, listOf [value] none)
  | some ⟨.list values, expires⟩ => .ok (values.length + 1, listOf (values ++ [value]) expires)
  | some _ => .error wrongType

/-- `LPOP key`. -/
def lpop (key : Bytes) : Command (Option Bytes) := atKey key fun _ stored =>
  match stored with
  | none => .ok (none, none)
  | some ⟨.list values, expires⟩ => .ok (values.head?, listOf values.tail expires)
  | some _ => .error wrongType

/-- `BLPOP keys`, when it replies: the first value of the first list that has one, with its key. Without
one the wait has timed out. -/
def blpop : List Bytes → Command (Option (Bytes × Bytes))
  | [] => return none
  | key :: rest => do
    match ← lpop key with
    | some value => return some (key, value)
    | none => blpop rest

/-! ### What the commands do -/

section Spec

variable {key : Bytes} {stored : Option Stored}

theorem keyExists_apply : keyExists key server = (.ok (server.db key).isSome, server) :=
  atKey_of_same rfl

theorem del_apply : del key server = (.ok (if (server.db key).isSome then 1 else 0), server.put key none) :=
  atKey_of_ok rfl

theorem pexpire_of_some {ttl : ℕ} {item : Item} {expires : Option ℕ}
    (h : server.db key = some ⟨item, expires⟩) (hpos : 0 < ttl) (hrange : server.now + ttl < 2 ^ 63) :
    pexpire key ttl server = (.ok 1, server.put key (some ⟨item, some (server.now + ttl)⟩)) := by
  refine atKey_of_ok ?_
  have hin : ¬ outOfRange server.now ttl := Nat.not_le.mpr hrange
  simp only [h, if_neg hin, if_neg (Nat.pos_iff_ne_zero.mp hpos)]

theorem pexpire_of_out (key : Bytes) {ttl : ℕ} (h : outOfRange server.now ttl) : ∃ error,
    pexpire key ttl server = (.error error, server) := by
  refine ⟨.server "ERR invalid expire time in 'pexpire' command", ?_⟩
  simp only [pexpire, atKey, if_pos h]

theorem pexpire_of_in (key : Bytes) {ttl : ℕ} (h : ¬ outOfRange server.now ttl) : ∃ n server',
    pexpire key ttl server = (.ok n, server') := by
  simp only [pexpire, atKey, if_neg h]
  cases server.db key with
  | none => exact ⟨0, _, rfl⟩
  | some stored => exact ⟨1, _, rfl⟩

theorem pttl_of_some {item : Item} {deadline : ℕ} (h : server.db key = some ⟨item, some deadline⟩) :
    pttl key server = (.ok ((deadline : Int) - server.now), server) := by
  refine atKey_of_same ?_
  simp only [h]

theorem pttl_of_forever {item : Item} (h : server.db key = some ⟨item, none⟩) :
    pttl key server = (.ok (-1), server) := by
  refine atKey_of_same ?_
  simp only [h]

theorem get_of_none (h : server.db key = none) : get key server = (.ok none, server) := by
  refine atKey_of_same ?_
  simp only [h]

theorem get_of_string {value : Bytes} {expires : Option ℕ}
    (h : server.db key = some ⟨.string value, expires⟩) : get key server = (.ok (some value), server) := by
  refine atKey_of_same ?_
  simp only [h]

theorem setPx_of_in (key value : Bytes) {ttl : ℕ} (hpos : 0 < ttl) (hrange : server.now + ttl < 2 ^ 63) :
    setPx key value ttl server =
      (.ok (), server.put key (some ⟨.string value, some (server.now + ttl)⟩)) := by
  have hin : ¬ (ttl = 0 ∨ outOfRange server.now ttl) := by
    unfold outOfRange
    omega
  exact atKey_of_ok (if_neg hin)

theorem setNxPx_of_none (value : Bytes) {ttl : ℕ} (h : server.db key = none) (hpos : 0 < ttl)
    (hrange : server.now + ttl < 2 ^ 63) : setNxPx key value ttl server =
      (.ok true, server.put key (some ⟨.string value, some (server.now + ttl)⟩)) := by
  have hin : ¬ (ttl = 0 ∨ outOfRange server.now ttl) := by
    unfold outOfRange
    omega
  refine atKey_of_ok ?_
  simp only [h, if_neg hin]

theorem setNxPx_of_some (value : Bytes) {ttl : ℕ} {stored : Stored} (h : server.db key = some stored)
    (hpos : 0 < ttl) (hrange : server.now + ttl < 2 ^ 63) :
    setNxPx key value ttl server = (.ok false, server) := by
  have hin : ¬ (ttl = 0 ∨ outOfRange server.now ttl) := by
    unfold outOfRange
    omega
  refine atKey_of_same ?_
  simp only [h, if_neg hin]

theorem sortedSet_of_ne_nil {members : List (Bytes × ℕ)} (h : members ≠ []) (expires : Option ℕ) :
    sortedSet members expires = some ⟨.sortedSet members, expires⟩ := if_neg h

/-- What a command does to a sorted set; the deadline of a key that was absent is that of a new one. -/
theorem atSortedSet_of_eq {f : List (Bytes × ℕ) → α × List (Bytes × ℕ)} {members : List (Bytes × ℕ)}
    {expires : Option ℕ} (h : server.db key = sortedSet members expires) :
    atSortedSet key f server = (.ok (f members).1,
      server.put key (sortedSet (f members).2 (if members = [] then none else expires))) := by
  refine atKey_of_ok ?_
  rw [h]
  by_cases hm : members = []
  · subst hm
    rfl
  · rw [sortedSet_of_ne_nil hm, if_neg hm]

/-- A command that leaves an empty set empty keeps the deadline. -/
theorem atSortedSet_of_nil {f : List (Bytes × ℕ) → α × List (Bytes × ℕ)} {members : List (Bytes × ℕ)}
    {expires : Option ℕ} (h : server.db key = sortedSet members expires) (hf : (f []).2 = []) :
    atSortedSet key f server = (.ok (f members).1, server.put key (sortedSet (f members).2 expires)) := by
  rw [atSortedSet_of_eq h]
  by_cases hm : members = []
  · subst hm
    rw [hf]
    rfl
  · rw [if_neg hm]

section SortedSets

variable {members : List (Bytes × ℕ)} {expires : Option ℕ}
  (h : server.db key = sortedSet members expires)
include h

theorem zrem_of_eq (member : Bytes) : zrem key member server =
    (.ok (), server.put key (sortedSet (members.filter fun pair => pair.1 ≠ member) expires)) :=
  atSortedSet_of_nil h rfl

theorem zremrangebyscore_of_eq (max : ℕ) : zremrangebyscore key max server =
    (.ok (), server.put key (sortedSet (members.filter fun pair => max < pair.2) expires)) :=
  atSortedSet_of_nil h rfl

theorem zscore_of_eq (member : Bytes) : zscore key member server =
    (.ok ((members.find? fun pair => pair.1 = member).map Prod.snd), server) := by
  rw [zscore, atSortedSet_of_nil h rfl, ← h, Server.put_db]

theorem zcard_of_eq : zcard key server = (.ok members.length, server) := by
  rw [zcard, atSortedSet_of_nil h rfl, ← h, Server.put_db]

end SortedSets

theorem listOf_of_ne_nil {values : List Bytes} (h : values ≠ []) (expires : Option ℕ) :
    listOf values expires = some ⟨.list values, expires⟩ := if_neg h

section Lists

variable {values : List Bytes} {expires : Option ℕ}

theorem rpush_of_eq (h : server.db key = listOf values expires) (value : Bytes) :
    ∃ length expires', rpush key value server =
      (.ok length, server.put key (some ⟨.list (values ++ [value]), expires'⟩)) := by
  have hne : values ++ [value] ≠ [] := by simp
  by_cases hv : values = []
  · subst hv
    refine ⟨1, none, atKey_of_ok ?_⟩
    rw [h]
    rfl
  · refine ⟨values.length + 1, expires, atKey_of_ok ?_⟩
    rw [h, listOf_of_ne_nil hv, ← listOf_of_ne_nil hne]

theorem lpop_of_nil (h : server.db key = none) : lpop key server = (.ok none, server) := by
  refine atKey_of_same ?_
  rw [h]

theorem lpop_of_cons {value : Bytes} {rest : List Bytes}
    (h : server.db key = listOf (value :: rest) expires) :
    lpop key server = (.ok (some value), server.put key (listOf rest expires)) := by
  refine atKey_of_ok ?_
  rw [h]
  rfl

end Lists

end Spec

end Wakuwaku.Redis
