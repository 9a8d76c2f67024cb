import Wakuwaku.Redis.Numbers
import Wakuwaku.Entity.Redis.Keys

/-! # Locks with a lease

At most one holder per name (`Lock`), or either one writer or any number of readers per name
(`RwLock`). A lease ends by a release or when its TTL runs out. The writer of a lock is a key that
expires; the readers are a sorted set of the times their leases end. The scripts are those of the
source: a writer passes its TTL on as it is, and the scripts of a reader make a number of it, add it to
the time and pass both on as the texts of numbers, which are exact below 2^53. -/

namespace Wakuwaku.Entity.Redis.Collection

open Wakuwaku.Redis Wakuwaku.Entity.Redis

/-! ### Scripts -/

/-- `RELEASE`: deletes `key` if it holds `token`. -/
def releaseScript (key token : Bytes) : Command ℕ := do
  if (← get key) = some token then del key else return 0

/-- `EXTEND`: expires `key` in `ttl` ms if it holds `token`. -/
def extendScript (key token : Bytes) (ttl : ℕ) : Command ℕ := do
  if (← get key) = some token then pexpire key ttl else return 0

/-- Let `key` live for another `ttl` ms at least, where `ttl` is a number. -/
def outlive (numbers : LuaNumbers) (key : Bytes) (ttl : ℕ) : Command Unit := do
  if numbers.ofInt (← pttl key) < (ttl : Int) then
    let _ ← pexpireText key (numbers.text ttl)

/-- `READ_ACQUIRE`: adds the reader `token` for `ttl` ms to the sorted set `readers` unless the key
`writer` exists. -/
def readAcquireScript (numbers : LuaNumbers) (writer readers token : Bytes) (ttl : ℕ) : Command ℕ := do
  let now ← luaNow
  if ← keyExists writer then
    return 0
  else
    let ttl := numbers.number ttl
    zremrangebyscore readers now
    zadd readers (numbers.number (now + ttl)) token
    outlive numbers readers ttl
    return 1

/-- `READ_RELEASE`: removes the reader `token` from `readers`; returns whether its lease was still
running. -/
def readReleaseScript (readers token : Bytes) : Command ℕ := do
  let now ← luaNow
  match ← zscore readers token with
  | none => return 0
  | some expiry =>
    zrem readers token
    if expiry > now then return 1 else return 0

/-- `READ_EXTEND`: renews the lease of the reader `token` in `readers` for `ttl` ms if it is still
running. -/
def readExtendScript (numbers : LuaNumbers) (readers token : Bytes) (ttl : ℕ) : Command ℕ := do
  let now ← luaNow
  match ← zscore readers token with
  | none => return 0
  | some expiry =>
    if expiry ≤ now then
      return 0
    else
      let ttl := numbers.number ttl
      zaddXx readers (numbers.number (now + ttl)) token
      outlive numbers readers ttl
      return 1

/-- `WRITE_ACQUIRE`: sets `writer` to `token` for `ttl` ms if it doesn't exist and the sorted set
`readers` has no running lease. -/
def writeAcquireScript (writer readers token : Bytes) (ttl : ℕ) : Command ℕ := do
  let now ← luaNow
  zremrangebyscore readers now
  if (← zcard readers) > 0 then
    return 0
  else if ← setNxPx writer token ttl then
    return 1
  else
    return 0

/-! ### Queries -/

/-- Proof of holding a lock exclusively. -/
structure LockToken where
  key : Bytes
  token : Bytes
  ttl : ℕ

/-- Proof of holding a read lease. -/
structure ReadToken where
  key : Bytes
  token : Bytes
  ttl : ℕ

/-- Release the lock. Outputs `false` if the lease had run out. -/
def LockToken.release (held : LockToken) : Command Bool := do
  return (← releaseScript held.key held.token) ≠ 0

/-- Restart the lease. Outputs `false` if the lease had run out. -/
def LockToken.extend (held : LockToken) : Command Bool := do
  return (← extendScript held.key held.token (millis held.ttl)) ≠ 0

/-- Release the read lease. Outputs `false` if it had already run out. -/
def ReadToken.release (held : ReadToken) : Command Bool := do
  return (← readReleaseScript held.key held.token) ≠ 0

/-- Restart the read lease. Outputs `false` if it had already run out. -/
def ReadToken.extend (numbers : LuaNumbers) (held : ReadToken) : Command Bool := do
  return (← readExtendScript numbers held.key held.token (millis held.ttl)) ≠ 0

/-- A mutual exclusion lock in a namespace, whose leases last `ttl`. -/
structure Lock where
  space : String
  ttl : ℕ

/-- Take the lock of `name` for the random token `token` if it is free. -/
def Lock.tryLock (lock : Lock) (name token : Bytes) : Command (Option LockToken) := do
  let key := itemKey "Lock" lock.space name
  let acquired ← setNxPx key token (millis lock.ttl)
  return if acquired then some ⟨key, token, lock.ttl⟩ else none

/-- A reader-writer lock in a namespace, whose leases last `ttl`. -/
structure RwLock where
  space : String
  ttl : ℕ

/-- The writer and readers keys of `name`. -/
def RwLock.keys (lock : RwLock) (name : Bytes) : Bytes × Bytes :=
  taggedPair "RwLock" lock.space name (asBytes ":w") (asBytes ":r")

/-- Take a read lease on `name` for the random token `token` if no writer holds it. -/
def RwLock.tryRead (numbers : LuaNumbers) (lock : RwLock) (name token : Bytes) : Command (Option ReadToken) := do
  let (writer, readers) := lock.keys name
  let acquired ← readAcquireScript numbers writer readers token (millis lock.ttl)
  return if acquired ≠ 0 then some ⟨readers, token, lock.ttl⟩ else none

/-- Take the write lock of `name` for the random token `token` if neither a writer nor a reader holds
it. -/
def RwLock.tryWrite (lock : RwLock) (name token : Bytes) : Command (Option LockToken) := do
  let (writer, readers) := lock.keys name
  let acquired ← writeAcquireScript writer readers token (millis lock.ttl)
  return if acquired ≠ 0 then some ⟨writer, token, lock.ttl⟩ else none

/-! ### What the scripts do -/

variable {numbers : LuaNumbers} {server : Server} {key writer readers token : Bytes}
  {members : List (Bytes × ℕ)} {deadline ttl : ℕ}

theorem releaseScript_of_none (h : server.db key = none) :
    releaseScript key token server = (.ok 0, server) := by
  rw [releaseScript, Command.bind_of_ok (get_of_none h)]
  rfl

theorem releaseScript_of_string (token : Bytes) {value : Bytes} {expires : Option ℕ}
    (h : server.db key = some ⟨.string value, expires⟩) : releaseScript key token server =
      if value = token then (.ok 1, server.put key none) else (.ok 0, server) := by
  rw [releaseScript, Command.bind_of_ok (get_of_string h)]
  by_cases hv : value = token
  · rw [if_pos (congrArg some hv), if_pos hv, del_apply, h]
    rfl
  · rw [if_neg fun he => hv (Option.some.inj he), if_neg hv]
    rfl

theorem extendScript_of_none (h : server.db key = none) :
    extendScript key token ttl server = (.ok 0, server) := by
  rw [extendScript, Command.bind_of_ok (get_of_none h)]
  rfl

theorem extendScript_of_string (token : Bytes) {value : Bytes} {expires : Option ℕ}
    (h : server.db key = some ⟨.string value, expires⟩) (hpos : 0 < ttl)
    (hrange : server.now + ttl < 2 ^ 63) : extendScript key token ttl server =
      if value = token then (.ok 1, server.put key (some ⟨.string value, some (server.now + ttl)⟩))
      else (.ok 0, server) := by
  rw [extendScript, Command.bind_of_ok (get_of_string h)]
  by_cases hv : value = token
  · rw [if_pos (congrArg some hv), if_pos hv, pexpire_of_some h hpos hrange]
  · rw [if_neg fun he => hv (Option.some.inj he), if_neg hv]
    rfl

/-- A TTL that is exact as a number is restarted like one that is passed on as it is. -/
theorem pexpireText_exact (numbers : LuaNumbers) {item : Item} {expires : Option ℕ}
    (h : server.db key = some ⟨item, expires⟩) (hpos : 0 < ttl) (hrange : server.now + ttl < 2 ^ 53) :
    pexpireText key (numbers.text ttl) server =
      (.ok 1, server.put key (some ⟨item, some (server.now + ttl)⟩)) := by
  rw [numbers.text_exact ttl (by omega), pexpireText_decimal (by omega),
    pexpire_of_some h hpos (by omega : server.now + ttl < 2 ^ 63)]

/-- The deadline after `outlive`, if the numbers are exact. -/
theorem outlive_of_some {item : Item} {expires : Option ℕ} (h : server.db key = some ⟨item, expires⟩)
    (hsmall : expires.getD 0 < 2 ^ 53) (hpos : 0 < ttl) (hrange : server.now + ttl < 2 ^ 53) :
    outlive numbers key ttl server =
      (.ok (), server.put key (some ⟨item, some (max (expires.getD 0) (server.now + ttl))⟩)) := by
  have hexpire := pexpireText_exact numbers h hpos hrange
  cases expires with
  | none =>
    have hleft : numbers.ofInt (-1) = -1 := numbers.ofInt_exact (by decide)
    rw [outlive, Command.bind_of_ok (pttl_of_forever h), hleft, if_pos (by omega), Command.bind_of_ok hexpire,
      Option.getD_none, Nat.zero_max]
    rfl
  | some deadline =>
    have hleft : numbers.ofInt ((deadline : Int) - server.now) = deadline - server.now := by
      rw [Option.getD_some] at hsmall
      exact numbers.ofInt_exact (by omega)
    rw [outlive, Command.bind_of_ok (pttl_of_some h), hleft, Option.getD_some]
    by_cases hlt : deadline < server.now + ttl
    · rw [if_pos (by omega), Command.bind_of_ok hexpire, Nat.max_eq_right (Nat.le_of_lt hlt)]
      rfl
    · rw [if_neg (by omega), Nat.max_eq_left (Nat.not_lt.mp hlt), ← h, Server.put_db]
      rfl

/-- The readers whose leases run. -/
def live (now : ℕ) (members : List (Bytes × ℕ)) : List (Bytes × ℕ) :=
  members.filter fun pair => now < pair.2

theorem setScore_ne_nil (score : ℕ) : setScore members token score ≠ [] := by
  unfold setScore
  by_cases h : ∃ pair ∈ members, pair.1 = token
  · obtain ⟨pair, hp, _⟩ := id h
    rw [if_pos h]
    simpa using List.ne_nil_of_mem hp
  · rw [if_neg h]
    simp

theorem readAcquireScript_of_some {stored : Stored} (h : server.db writer = some stored) :
    readAcquireScript numbers writer readers token ttl server = (.ok 0, server) := by
  have hexists : keyExists writer server = (.ok true, server) := by rw [keyExists_apply, h]; rfl
  rw [readAcquireScript, Command.bind_of_ok luaNow_apply, Command.bind_of_ok hexists]
  rfl

theorem readReleaseScript_of_none (hr : server.db readers = sortedSet members (some deadline))
    (hfind : (members.find? fun pair => pair.1 = token) = none) :
    readReleaseScript readers token server = (.ok 0, server) := by
  rw [readReleaseScript, Command.bind_of_ok luaNow_apply, Command.bind_of_ok (zscore_of_eq hr _), hfind]
  rfl

theorem readReleaseScript_of_some (hr : server.db readers = sortedSet members (some deadline))
    {pair : Bytes × ℕ} (hfind : (members.find? fun pair => pair.1 = token) = some pair) :
    readReleaseScript readers token server = (.ok (if server.now < pair.2 then 1 else 0),
      server.put readers (sortedSet (members.filter fun pair => pair.1 ≠ token) (some deadline))) := by
  rw [readReleaseScript, Command.bind_of_ok luaNow_apply, Command.bind_of_ok (zscore_of_eq hr _), hfind]
  simp only [Option.map_some]
  rw [Command.bind_of_ok (zrem_of_eq hr _)]
  by_cases hlt : server.now < pair.2
  · rw [if_pos hlt, if_pos hlt]
    rfl
  · rw [if_neg hlt, if_neg hlt]
    rfl

/-- A writer that is not let in. The readers whose leases ran out are dropped. -/
theorem writeAcquireScript_of_busy (hne : writer ≠ readers)
    (hr : server.db readers = sortedSet members (some deadline)) (hpos : 0 < ttl)
    (hrange : server.now + ttl < 2 ^ 63)
    (hbusy : live server.now members ≠ [] ∨ ∃ stored, server.db writer = some stored) :
    writeAcquireScript writer readers token ttl server =
      (.ok 0, server.put readers (sortedSet (live server.now members) (some deadline))) := by
  rw [writeAcquireScript, Command.bind_of_ok luaNow_apply, Command.bind_of_ok (zremrangebyscore_of_eq hr _),
    ← live, Command.bind_of_ok (zcard_of_eq (Server.db_put_self _ _ _))]
  by_cases hl : live server.now members = []
  · obtain ⟨stored, hw⟩ := hbusy.resolve_left fun h => h hl
    rw [if_neg (by rw [hl]; exact Nat.lt_irrefl 0), Command.bind_of_ok
      (setNxPx_of_some _ ((Server.db_put_of_ne _ _ hne).trans hw) hpos hrange)]
    rfl
  · rw [if_pos (List.length_pos_iff.mpr hl)]
    rfl

theorem writeAcquireScript_of_free (hne : writer ≠ readers)
    (hr : server.db readers = sortedSet members (some deadline)) (hpos : 0 < ttl)
    (hrange : server.now + ttl < 2 ^ 63) (hl : live server.now members = [])
    (hw : server.db writer = none) : writeAcquireScript writer readers token ttl server =
      (.ok 1, (server.put readers none).put writer (some ⟨.string token, some (server.now + ttl)⟩)) := by
  rw [writeAcquireScript, Command.bind_of_ok luaNow_apply, Command.bind_of_ok (zremrangebyscore_of_eq hr _),
    ← live, hl, Command.bind_of_ok (zcard_of_eq (Server.db_put_self _ _ _)), if_neg (by simp),
    Command.bind_of_ok (setNxPx_of_none _ ((Server.db_put_of_ne _ _ hne).trans hw) hpos hrange)]
  rfl

/-! ### What the queries output -/

theorem tryRead_of_script (lock : RwLock) {name : Bytes} {acquired : ℕ} {server' : Server}
    (h : readAcquireScript numbers (lock.keys name).1 (lock.keys name).2 token (millis lock.ttl) server =
      (.ok acquired, server')) : lock.tryRead numbers name token server =
        (.ok (if acquired ≠ 0 then some ⟨(lock.keys name).2, token, lock.ttl⟩ else none), server') :=
  Command.bind_of_ok h

theorem tryWrite_of_script (lock : RwLock) {name : Bytes} {acquired : ℕ} {server' : Server}
    (h : writeAcquireScript (lock.keys name).1 (lock.keys name).2 token (millis lock.ttl) server =
      (.ok acquired, server')) : lock.tryWrite name token server =
        (.ok (if acquired ≠ 0 then some ⟨(lock.keys name).1, token, lock.ttl⟩ else none), server') :=
  Command.bind_of_ok h

end Wakuwaku.Entity.Redis.Collection
