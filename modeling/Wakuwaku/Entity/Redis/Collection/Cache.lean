import Wakuwaku.Redis.Register
import Wakuwaku.Entity.Redis.Keys

/-! # Caches with a TTL

A `Cache` stores each body under one string key. A `HashedCache` stores it in a hash, together with the
BLAKE3 hash of its bytes, so that a reader with a copy can check it without the body. Every put sets the
TTL again, so the key of an item is a register of what was put (`Stocked`). -/

namespace Wakuwaku.Entity.Redis

open Wakuwaku.Redis

/-- Bodies in a namespace, each expiring `ttl` after it is put. -/
structure Cache where
  space : String
  ttl : ℕ

def Cache.key (cache : Cache) (name : Bytes) : Bytes := itemKey "Cache" cache.space name

/-- Bodies in a namespace stored with their hashes, each expiring `ttl` after it is put. -/
structure HashedCache where
  space : String
  ttl : ℕ

def HashedCache.key (cache : HashedCache) (name : Bytes) : Bytes := itemKey "HashedCache" cache.space name

variable {B : Type}

/-- `UNLINK key`: whether it was present. -/
def unlinkKey (key : Bytes) : Command Bool := do
  let removed ← exec (unlink [key])
  return removed > 0

/-! ### One string per body -/

/-- Read the body of `name`, `none` if it is absent or expired. -/
def Cache.get (cache : Cache) (codec : Codec B) (name : Bytes) : Command (Option B) := do
  match ← Wakuwaku.Redis.get (cache.key name) with
  | none => return none
  | some bytes => return some (← Command.ofResult (codec.deserialize bytes))

/-- Store `body` as `name`, in place of any previous body, with a new TTL. -/
def Cache.put (cache : Cache) (codec : Codec B) (name : Bytes) (body : B) : Command Unit := do
  let body ← Command.ofResult (codec.serialize body)
  setPx (cache.key name) body (millis cache.ttl)

/-- Delete `name`. Outputs whether it was present. -/
def Cache.remove (cache : Cache) (name : Bytes) : Command Bool := unlinkKey (cache.key name)

/-! ### Bodies with their hashes -/

/-- A BLAKE3 hash. -/
structure Hash where
  bytes : Bytes
  size : bytes.length = 32
  deriving DecidableEq

/-- Field of an item holding the body. -/
def HashedCache.bodyField : Bytes := asBytes "body"

/-- Field of an item holding the hash of the body. -/
def HashedCache.hashField : Bytes := asBytes "hash"

/-- `GET_IF_CHANGED`: `{0}` if the item is absent, `{1}` if its hash is `known`, `{2, hash, body}`
otherwise. -/
def getIfChangedScript (key known : Bytes) : Command (List Value) := do
  match ← exec (hget key HashedCache.hashField) with
  | none => return [.int 0]
  | some hash =>
    if hash = known then return [.int 1]
    else
      match ← exec (hget key HashedCache.bodyField) with
      | none => return [.int 2, .bulkString hash, .nil]
      | some body => return [.int 2, .bulkString hash, .bulkString body]

/-- A body with its hash. -/
structure Hashed (B : Type) where
  body : B
  hash : Hash

/-- Output of `get_if_changed`. -/
inductive Freshness (B : Type) where
  | missing
  | unchanged
  | changed (hashed : Hashed B)

def parseHash (bytes : Bytes) : Except Error Hash :=
  if h : bytes.length = 32 then .ok ⟨bytes, h⟩ else .error (corrupted "a BLAKE3 hash is not 32 bytes long")

def parseHashed (codec : Codec B) (body hash : Bytes) : Except Error (Hashed B) := do
  let body ← codec.deserialize body
  let hash ← parseHash hash
  return ⟨body, hash⟩

/-- The error for an item with only one of its fields. -/
def halfItem : Error := corrupted "a hashed cache item lacks its body or its hash"

/-- Read the body of `name` and its hash, `none` if it is absent or expired. -/
def HashedCache.get (cache : HashedCache) (codec : Codec B) (name : Bytes) : Command (Option (Hashed B)) := do
  match ← exec (hmget (cache.key name) [bodyField, hashField]) with
  | [some body, some hash] => return some (← Command.ofResult (parseHashed codec body hash))
  | [none, none] => return none
  | _ => Command.fail halfItem

/-- Read only the hash of the body of `name`. -/
def HashedCache.hash (cache : HashedCache) (name : Bytes) : Command (Option Hash) := do
  match ← exec (hget (cache.key name) hashField) with
  | none => return none
  | some hash => return some (← Command.ofResult (parseHash hash))

/-- What a reply of `GET_IF_CHANGED` says. -/
def parseFreshness (codec : Codec B) : List Value → Except Error (Freshness B)
  | [.int 0] => .ok .missing
  | [.int 1] => .ok .unchanged
  | [.int 2, .bulkString hash, .bulkString body] => (parseHashed codec body hash).map .changed
  | _ => .error halfItem

/-- Read the body of `name` unless its hash is `known`. -/
def HashedCache.getIfChanged (cache : HashedCache) (codec : Codec B) (name : Bytes) (known : Hash) :
    Command (Freshness B) := do
  let reply ← getIfChangedScript (cache.key name) known.bytes
  Command.ofResult (parseFreshness codec reply)

/-- Store `body` and its hash as `name`, in place of any previous body, with a new TTL. Outputs the
hash. -/
def HashedCache.put (cache : HashedCache) (codec : Codec B) (blake3 : Bytes → Hash) (name : Bytes) (body : B) :
    Command Hash := do
  let body ← Command.ofResult (codec.serialize body)
  let _ ← Command.multi
    (exec (hset (cache.key name) [(bodyField, body), (hashField, (blake3 body).bytes)]))
    (pexpire (cache.key name) (millis cache.ttl))
  return blake3 body

/-- Delete `name`. Outputs whether it was present. -/
def HashedCache.remove (cache : HashedCache) (name : Bytes) : Command Bool := unlinkKey (cache.key name)

/-! ### What is stored -/

/-- A body with the bytes it is written as. -/
structure Stocked (codec : Codec B) where
  body : B
  bytes : Bytes
  written : codec.serialize body = .ok bytes

/-- A body as it is stored, if it can be written. -/
def Stocked.of? (codec : Codec B) (body : B) : Option (Stocked codec) :=
  match h : codec.serialize body with
  | .ok bytes => some ⟨body, bytes, h⟩
  | .error _ => none

/-- The item of a cache. -/
def Stocked.item {codec : Codec B} (stocked : Stocked codec) : Item := .string stocked.bytes

/-- The fields of a body and its hash. -/
def hashedFields (blake3 : Bytes → Hash) (bytes : Bytes) : Bytes → Option Bytes :=
  Function.update (Function.update (fun _ => none) HashedCache.bodyField (some bytes))
    HashedCache.hashField (some (blake3 bytes).bytes)

/-- The item of a hashed cache. -/
def Stocked.hashedItem {codec : Codec B} (blake3 : Bytes → Hash) (stocked : Stocked codec) : Item :=
  .hash (hashedFields blake3 stocked.bytes)

/-- A body with its hash, as it is read. -/
def Stocked.hashed {codec : Codec B} (blake3 : Bytes → Hash) (stocked : Stocked codec) : Hashed B :=
  ⟨stocked.body, blake3 stocked.bytes⟩

variable {codec : Codec B} {blake3 : Bytes → Hash} {body : B} {bytes : Bytes}

theorem Stocked.of?_eq_some {stocked : Stocked codec} (h : Stocked.of? codec body = some stocked) :
    stocked.body = body ∧ codec.serialize body = .ok stocked.bytes := by
  unfold Stocked.of? at h
  split at h
  · obtain rfl := Option.some.inj h
    exact ⟨rfl, ‹_›⟩
  · cases h

theorem Stocked.of?_eq_none (h : Stocked.of? codec body = none) : ∃ error, codec.serialize body = .error error := by
  unfold Stocked.of? at h
  split at h
  · cases h
  · exact ⟨_, ‹_›⟩

@[simp] theorem hashedFields_body (blake3 : Bytes → Hash) (bytes : Bytes) :
    hashedFields blake3 bytes HashedCache.bodyField = some bytes := by
  have hne : HashedCache.bodyField ≠ HashedCache.hashField := by decide
  rw [hashedFields, Function.update_of_ne hne, Function.update_self]

@[simp] theorem hashedFields_hash (blake3 : Bytes → Hash) (bytes : Bytes) :
    hashedFields blake3 bytes HashedCache.hashField = some (blake3 bytes).bytes := Function.update_self _ _ _

/-- The fields of a new body take the place of the old ones. -/
theorem update_hashedFields (blake3 : Bytes → Hash) (old bytes : Bytes) :
    Function.update (Function.update (hashedFields blake3 old) HashedCache.bodyField (some bytes))
      HashedCache.hashField (some (blake3 bytes).bytes) = hashedFields blake3 bytes := by
  unfold hashedFields
  funext field
  by_cases hh : field = HashedCache.hashField
  · rw [hh, Function.update_self, Function.update_self]
  · rw [Function.update_of_ne hh, Function.update_of_ne hh]
    by_cases hb : field = HashedCache.bodyField
    · rw [hb, Function.update_self, Function.update_self]
    · rw [Function.update_of_ne hb, Function.update_of_ne hb, Function.update_of_ne hh,
        Function.update_of_ne hb]

theorem parseHash_bytes (hash : Hash) : parseHash hash.bytes = .ok hash := dif_pos hash.size

theorem parseHashed_stocked (hround : codec.RoundTrips) (stocked : Stocked codec) :
    parseHashed codec stocked.bytes (blake3 stocked.bytes).bytes = .ok (stocked.hashed blake3) := by
  unfold parseHashed
  rw [hround.deserialize stocked.written, parseHash_bytes]
  rfl

/-! ### What the queries do -/

section Spec

variable {server : Server} {name : Bytes} {register : Register (Stocked codec)}

theorem unlinkKey_apply (key : Bytes) (server : Server) :
    unlinkKey key server = (.ok (server.db key).isSome, server.put key none) := by
  have hunlink : unlink [key] server.keys = (.ok (if (server.keys key).isSome then 1 else 0),
      Function.update server.keys key none) := unlink_cons unlink_nil
  have hkeys : (server.keys key).isSome = (server.db key).isSome := Option.isSome_map
  have hdb : (fun other => (Function.update server.keys key none other).map fun item =>
      (⟨item, (server.db other).bind Stored.expires⟩ : Stored)) = Function.update server.db key none := by
    funext other
    by_cases ho : other = key
    · subst ho
      simp only [Function.update_self, Option.map_none]
    · simp only [Function.update_of_ne ho]
      unfold Server.keys
      cases server.db other <;> rfl
  have hexec : exec (unlink [key]) server =
      (.ok (if (server.db key).isSome then 1 else 0), server.put key none) := by
    rw [← hkeys]
    simp only [exec, hunlink, hdb, Server.put]
  rw [unlinkKey, Command.bind_of_ok hexec]
  cases (server.db key).isSome <;> rfl

/-- A removal clears the register. -/
theorem unlinkKey_of_at {α : Type} {encode : α → Item} {key : Bytes} {register : Register α}
    (h : Register.At encode key server register) : unlinkKey key server =
      (.ok (register.read server.now).isSome, server.put key none) := by
  rw [unlinkKey_apply]
  cases hr : register.read server.now with
  | none => rw [h.db_of_none hr]; rfl
  | some a =>
    obtain ⟨deadline, -, -, hdb⟩ := h.db_of_some hr
    rw [hdb]
    rfl

section Cache

variable {cache : Cache}

theorem Cache.get_of_at (hround : codec.RoundTrips)
    (h : Register.At Stocked.item (cache.key name) server register) :
    cache.get codec name server = (.ok ((register.read server.now).map Stocked.body), server) := by
  unfold Cache.get
  cases hr : register.read server.now with
  | none =>
    rw [Command.bind_of_ok (get_of_none (h.db_of_none hr))]
    rfl
  | some stocked =>
    obtain ⟨deadline, -, -, hdb⟩ := h.db_of_some hr
    rw [Command.bind_of_ok (get_of_string hdb)]
    exact Command.bind_of_ok (Command.ofResult_of_ok (hround.deserialize stocked.written))

theorem Cache.put_of_error {error : Error} (h : codec.serialize body = .error error) :
    cache.put codec name body server = (.error error, server) := by
  unfold Cache.put
  rw [h]
  rfl

theorem Cache.put_of_ok (cache : Cache) (h : codec.serialize body = .ok bytes)
    (hrange : server.now + millis cache.ttl < 2 ^ 63) : cache.put codec name body server =
      (.ok (), server.put (cache.key name) (some ⟨.string bytes, some (server.now + millis cache.ttl)⟩)) := by
  unfold Cache.put
  rw [Command.bind_of_ok (Command.ofResult_of_ok h)]
  exact setPx_of_in _ _ (millis_pos _) hrange

end Cache

section HashedCache

variable {cache : HashedCache}

/-- What the reads of the fields get. -/
theorem hget_of_at {key : Bytes} (field : Bytes)
    (h : Register.At (Stocked.hashedItem blake3) key server register) : exec (hget key field) server =
      (.ok ((register.read server.now).bind fun stocked => hashedFields blake3 stocked.bytes field), server) := by
  cases hr : register.read server.now with
  | none =>
    refine exec_of_read (hget_of_none field ?_)
    unfold Server.keys
    rw [h.db_of_none hr]
    rfl
  | some stocked =>
    obtain ⟨deadline, -, -, hdb⟩ := h.db_of_some hr
    have hkeys : server.keys key = some (.hash (hashedFields blake3 stocked.bytes)) := by
      unfold Server.keys
      rw [hdb]
      rfl
    exact exec_of_read (hget_of_hash field hkeys)

theorem HashedCache.get_of_at (hround : codec.RoundTrips)
    (h : Register.At (Stocked.hashedItem blake3) (cache.key name) server register) :
    cache.get codec name server = (.ok ((register.read server.now).map (Stocked.hashed blake3)), server) := by
  unfold HashedCache.get
  cases hr : register.read server.now with
  | none =>
    have hkeys : server.keys (cache.key name) = none := by
      unfold Server.keys
      rw [h.db_of_none hr]
      rfl
    rw [Command.bind_of_ok (exec_of_read (hmget_of_none _ hkeys))]
    rfl
  | some stocked =>
    obtain ⟨deadline, -, -, hdb⟩ := h.db_of_some hr
    have hkeys : server.keys (cache.key name) = some (stocked.hashedItem blake3) := by
      unfold Server.keys
      rw [hdb]
      rfl
    rw [Command.bind_of_ok (exec_of_read (hmget_of_hash _ hkeys))]
    simp only [List.map_cons, List.map_nil, hashedFields_body, hashedFields_hash]
    exact Command.bind_of_ok (Command.ofResult_of_ok (parseHashed_stocked hround stocked))

theorem HashedCache.hash_of_at
    (h : Register.At (Stocked.hashedItem blake3) (cache.key name) server register) :
    cache.hash name server =
      (.ok ((register.read server.now).map fun stocked => blake3 stocked.bytes), server) := by
  unfold HashedCache.hash
  rw [Command.bind_of_ok (hget_of_at hashField h)]
  cases hr : register.read server.now with
  | none => rfl
  | some stocked =>
    simp only [Option.bind_some, hashedFields_hash]
    exact Command.bind_of_ok (Command.ofResult_of_ok (parseHash_bytes _))

/-- What a reader that knows a hash is told. -/
def freshness (blake3 : Bytes → Hash) (known : Hash) : Option (Stocked codec) → Freshness B
  | none => .missing
  | some stocked => if blake3 stocked.bytes = known then .unchanged else .changed (stocked.hashed blake3)

theorem HashedCache.getIfChanged_of_at (hround : codec.RoundTrips) (known : Hash)
    (h : Register.At (Stocked.hashedItem blake3) (cache.key name) server register) :
    cache.getIfChanged codec name known server =
      (.ok (freshness blake3 known (register.read server.now)), server) := by
  have hscript : ∃ reply, getIfChangedScript (cache.key name) known.bytes server = (.ok reply, server) ∧
      parseFreshness codec reply = .ok (freshness blake3 known (register.read server.now)) := by
    unfold getIfChangedScript
    rw [Command.bind_of_ok (hget_of_at hashField h)]
    cases hr : register.read server.now with
    | none => exact ⟨_, rfl, rfl⟩
    | some stocked =>
      simp only [Option.bind_some, hashedFields_hash, freshness]
      by_cases hknown : blake3 stocked.bytes = known
      · rw [if_pos hknown, if_pos (congrArg Hash.bytes hknown)]
        exact ⟨_, rfl, rfl⟩
      · have hbytes : (blake3 stocked.bytes).bytes ≠ known.bytes := by
          intro he
          refine hknown ?_
          cases hb : blake3 stocked.bytes
          cases known
          rw [hb] at he
          cases he
          rfl
        rw [if_neg hknown, if_neg hbytes, Command.bind_of_ok (hget_of_at bodyField h), hr]
        simp only [Option.bind_some, hashedFields_body]
        refine ⟨_, rfl, ?_⟩
        simp only [parseFreshness, parseHashed_stocked hround stocked]
        rfl
  obtain ⟨reply, hreply, hparse⟩ := hscript
  unfold HashedCache.getIfChanged
  rw [Command.bind_of_ok hreply]
  exact Command.ofResult_of_ok hparse

theorem HashedCache.put_of_error {error : Error} (h : codec.serialize body = .error error) :
    cache.put codec blake3 name body server = (.error error, server) := by
  unfold HashedCache.put
  rw [h]
  rfl

/-- The fields that a put writes; they keep the deadline of what was there. -/
theorem hset_of_at {key : Bytes} (bytes : Bytes)
    (h : Register.At (Stocked.hashedItem blake3) key server register) :
    exec (hset key [(HashedCache.bodyField, bytes), (HashedCache.hashField, (blake3 bytes).bytes)]) server =
      (.ok (), server.put key (some ⟨.hash (hashedFields blake3 bytes), deadlineOf (server.db key)⟩)) := by
  refine exec_of_put ?_
  cases hr : register.read server.now with
  | none =>
    have hkeys : server.keys key = none := by
      unfold Server.keys
      rw [h.db_of_none hr]
      rfl
    rw [hset_of_none _ hkeys]
    rfl
  | some stocked =>
    obtain ⟨deadline, -, -, hdb⟩ := h.db_of_some hr
    have hkeys : server.keys key = some (.hash (hashedFields blake3 stocked.bytes)) := by
      unfold Server.keys
      rw [hdb]
      rfl
    rw [hset_of_hash _ hkeys]
    simp only [List.foldl_cons, List.foldl_nil, update_hashedFields]

theorem HashedCache.put_of_ok (cache : HashedCache) (h : codec.serialize body = .ok bytes)
    (hrange : server.now + millis cache.ttl < 2 ^ 63)
    (hat : Register.At (Stocked.hashedItem blake3) (cache.key name) server register) :
    cache.put codec blake3 name body server = (.ok (blake3 bytes), server.put (cache.key name)
      (some ⟨.hash (hashedFields blake3 bytes), some (server.now + millis cache.ttl)⟩)) := by
  unfold HashedCache.put
  have hstored : (server.put (cache.key name) (some ⟨.hash (hashedFields blake3 bytes),
      deadlineOf (server.db (cache.key name))⟩)).db (cache.key name) = some _ := Server.db_put_self _ _ _
  have hexpire := pexpire_of_some hstored (millis_pos cache.ttl) hrange
  rw [Command.bind_of_ok (Command.ofResult_of_ok h),
    Command.bind_of_ok ((Command.multi_of_ok (hset_of_at bytes hat)).trans hexpire), Server.put_put]
  rfl

end HashedCache

end Spec

end Wakuwaku.Entity.Redis
