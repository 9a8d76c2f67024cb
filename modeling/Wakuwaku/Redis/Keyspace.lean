import Wakuwaku.Redis.Text
import Mathlib.Algebra.Group.Nat.Defs
import Mathlib.Logic.Function.Basic

/-! # Hashes and streams of a Redis server

The documented effect of the commands on hashes and streams that keep no time. A command, or a script
of commands, is an `Action`: it runs alone on the keys, and one that fails leaves what it wrote before
failing. -/

namespace Wakuwaku.Redis

/-! ### Stored values and replies -/

/-- ID of a stream entry. -/
structure StreamId where
  ms : ℕ
  seq : ℕ
  deriving DecidableEq, Repr

/-- The order of stream IDs. -/
def StreamId.lt (x y : StreamId) : Prop := x.ms < y.ms ∨ x.ms = y.ms ∧ x.seq < y.seq

instance (x y : StreamId) : Decidable (x.lt y) := by unfold StreamId.lt; infer_instance

/-- The text of an ID. -/
def StreamId.text (id : StreamId) : Bytes := decimal id.ms ++ 45 :: decimal id.seq

/-- The ID a text stands for. -/
def StreamId.parse (text : Bytes) : Option StreamId := do
  let (ms, seq) ← splitDash text
  let ms ← parseDigits ms
  let seq ← parseDigits seq
  return ⟨ms, seq⟩

/-- One entry of a stream. -/
structure StreamEntry where
  id : StreamId
  fields : List (Bytes × Bytes)
  deriving DecidableEq, Repr

/-- A stream keeps the last ID it ever held, also when it is trimmed. -/
structure Stream where
  entries : List StreamEntry
  lastId : StreamId
  deriving DecidableEq, Repr

inductive Item where
  | string (value : Bytes)
  | list (values : List Bytes)
  /-- The members with their scores. -/
  | sortedSet (members : List (Bytes × ℕ))
  | hash (fields : Bytes → Option Bytes)
  | stream (stream : Stream)

/-- The keys of a database with their items. -/
abbrev Keyspace : Type := Bytes → Option Item

/-- A reply as the client gets it. -/
inductive Value where
  | nil
  | int (n : Int)
  | bulkString (bytes : Bytes)
  | simpleString (bytes : Bytes)
  | array (items : List Value)
  | map (items : List (Value × Value))
  /-- A reply of another kind, which nothing here reads. -/
  | other (kind : String)

/-- Version of the protocol, which shapes the reply of `XREAD`. -/
inductive Protocol where
  | resp2
  | resp3
  deriving DecidableEq, Repr

/-- An error of the server, or one the client raises for itself. -/
inductive Error where
  | server (message : String)
  | client (description detail : String)
  | parse (description detail : String)
  | unexpectedReturnType (description detail : String)
  deriving DecidableEq, Repr

/-! ### Actions -/

/-- An action on the keys. It does not roll back when it fails. -/
def Action (α : Type) : Type := Keyspace → Except Error α × Keyspace

instance : Monad Action where
  pure a keys := (.ok a, keys)
  bind m f keys :=
    match m keys with
    | (.ok a, keys) => f a keys
    | (.error e, keys) => (.error e, keys)

/-- Fail without touching the keys. -/
def fail {α : Type} (error : Error) : Action α := fun keys => (.error error, keys)

/-- Fail if `result` is an error. -/
def ofResult {α : Type} (result : Except Error α) : Action α := fun keys => (result, keys)

variable {α β : Type} {keys keys' : Keyspace}

@[simp] theorem pure_apply (a : α) : (pure a : Action α) keys = (.ok a, keys) := rfl

theorem bind_of_ok {m : Action α} {f : α → Action β} {a : α} (h : m keys = (.ok a, keys')) :
    (m >>= f) keys = f a keys' := by
  simp only [Bind.bind, h]

theorem bind_of_error {m : Action α} {f : α → Action β} {e : Error}
    (h : m keys = (.error e, keys')) : (m >>= f) keys = (.error e, keys') := by
  simp only [Bind.bind, h]

@[simp] theorem bind_ofResult_ok {a : α} {f : α → Action β} :
    (ofResult (.ok a) >>= f) keys = f a keys := rfl

@[simp] theorem bind_ofResult_error {e : Error} {f : α → Action β} :
    (ofResult (.error e) >>= f) keys = (.error e, keys) := rfl

/-! ### Commands -/

/-- `WRONGTYPE`. -/
def wrongType : Error :=
  .server "WRONGTYPE Operation against a key holding the wrong kind of value"

/-- The hash at a key; an absent key holds no fields. -/
def hashAt (key : Bytes) : Action (Bytes → Option Bytes) := fun keys =>
  match keys key with
  | none => (.ok fun _ => none, keys)
  | some (.hash fields) => (.ok fields, keys)
  | some _ => (.error wrongType, keys)

/-- The stream at a key; an absent key holds no entries. -/
def streamAt (key : Bytes) : Action Stream := fun keys =>
  match keys key with
  | none => (.ok ⟨[], ⟨0, 0⟩⟩, keys)
  | some (.stream stream) => (.ok stream, keys)
  | some _ => (.error wrongType, keys)

/-- Put an item at a key. -/
def put (key : Bytes) (item : Item) : Action Unit := fun keys =>
  (.ok (), Function.update keys key (some item))

/-- Remove the item at a key. -/
def erase (key : Bytes) : Action Unit := fun keys => (.ok (), Function.update keys key none)

/-- `EXISTS key`. -/
def existsKey (key : Bytes) : Action Bool := fun keys => (.ok (keys key).isSome, keys)

/-- `UNLINK keys`, or `DEL keys`: how many of them there were. -/
def unlink : List Bytes → Action ℕ
  | [] => return 0
  | key :: rest => do
    let present ← existsKey key
    erase key
    let others ← unlink rest
    return (if present then 1 else 0) + others

/-- `HGET key field`. -/
def hget (key field : Bytes) : Action (Option Bytes) := do
  let fields ← hashAt key
  return fields field

/-- `HMGET key field …`. -/
def hmget (key : Bytes) (names : List Bytes) : Action (List (Option Bytes)) := do
  let fields ← hashAt key
  return names.map fields

/-- `HSET key field value …`. -/
def hset (key : Bytes) (pairs : List (Bytes × Bytes)) : Action Unit := do
  let fields ← hashAt key
  put key (.hash (pairs.foldl (fun fields pair => Function.update fields pair.1 (some pair.2)) fields))

/-- `XLEN key`. -/
def xlen (key : Bytes) : Action ℕ := do
  let stream ← streamAt key
  return stream.entries.length

/-- `XTRIM key MAXLEN 0`. Nothing happens to an absent key. -/
def xtrimAll (key : Bytes) : Action Unit := do
  let stream ← streamAt key
  if ← existsKey key then
    put key (.stream { stream with entries := [] })

/-- `XADD key id field value …` with an explicit ID, which must be above the last one. -/
def xadd (key text : Bytes) (fields : List (Bytes × Bytes)) : Action Unit := do
  let stream ← streamAt key
  match StreamId.parse text with
  | none => fail (.server "ERR Invalid stream ID specified as stream command argument")
  | some id =>
    if stream.lastId.lt id then
      put key (.stream ⟨stream.entries ++ [⟨id, fields⟩], id⟩)
    else
      fail (.server ("ERR The ID specified in XADD is equal or smaller than the target stream " ++
        "top item"))

/-- The reply for one entry. -/
def StreamEntry.reply (entry : StreamEntry) : Value :=
  .array [.bulkString entry.id.text,
    .array (entry.fields.flatMap fun pair => [.bulkString pair.1, .bulkString pair.2])]

/-- `XRANGE key - +`. -/
def xrange (key : Bytes) : Action Value := do
  let stream ← streamAt key
  return .array (stream.entries.map StreamEntry.reply)

/-- `XRANGE key start +`: the entries from an ID on. -/
def xrangeFrom (key start : Bytes) : Action Value := do
  let stream ← streamAt key
  match StreamId.parse start with
  | none => fail (.server "ERR Invalid stream ID specified as stream command argument")
  | some id => return .array ((stream.entries.filter fun entry => ¬ entry.id.lt id).map StreamEntry.reply)

/-- `XREVRANGE key + - COUNT 1`: the last entry. -/
def xrevrangeLast (key : Bytes) : Action (Option StreamEntry) := do
  let stream ← streamAt key
  return stream.entries.getLast?

/-- The reply of `XREAD` for the entries of one stream. -/
def readReply (protocol : Protocol) (key : Bytes) (entries : List StreamEntry) : Value :=
  match protocol with
  | .resp2 => .array [.array [.bulkString key, .array (entries.map StreamEntry.reply)]]
  | .resp3 => .map [(.bulkString key, .array (entries.map StreamEntry.reply))]

/-- The waits of `block` ms (0: forever) whose end is out of range. -/
def blockRefused (now block : ℕ) : Prop := 0 < block ∧ 2 ^ 63 ≤ now + block

instance (now block : ℕ) : Decidable (blockRefused now block) := inferInstanceAs (Decidable (_ ∧ _))

theorem not_blockRefused_forever {now : ℕ} : ¬ blockRefused now 0 := fun h => Nat.lt_irrefl 0 h.1

/-- `XREAD COUNT count BLOCK block STREAMS key after` at a time: the first entries after an ID, nil if the
wait for one timed out. -/
def xread (protocol : Protocol) (count now block : ℕ) (key after : Bytes) : Action Value :=
  if blockRefused now block then
    fail (.server (if 2 ^ 63 ≤ block then "ERR timeout is not an integer or out of range"
      else "ERR timeout is out of range"))
  else do
    let stream ← streamAt key
    match StreamId.parse after with
    | none => fail (.server "ERR Invalid stream ID specified as stream command argument")
    | some id =>
      match (stream.entries.filter fun entry => id.lt entry.id).take count with
      | [] => return .nil
      | entries => return readReply protocol key entries

/-! ### What the commands do -/

section Spec

variable {key : Bytes} {fields : Bytes → Option Bytes} {stream : Stream}

theorem hashAt_of_none (h : keys key = none) : hashAt key keys = (.ok fun _ => none, keys) := by
  simp only [hashAt, h]

theorem hashAt_of_hash (h : keys key = some (.hash fields)) : hashAt key keys = (.ok fields, keys) := by
  simp only [hashAt, h]

theorem streamAt_of_none (h : keys key = none) :
    streamAt key keys = (.ok ⟨[], ⟨0, 0⟩⟩, keys) := by
  simp only [streamAt, h]

theorem streamAt_of_stream (h : keys key = some (.stream stream)) :
    streamAt key keys = (.ok stream, keys) := by
  simp only [streamAt, h]

theorem existsKey_apply (key : Bytes) : existsKey key keys = (.ok (keys key).isSome, keys) := rfl

theorem unlink_nil : unlink [] keys = (.ok 0, keys) := rfl

theorem unlink_cons {rest : List Bytes} {n : ℕ}
    (h : unlink rest (Function.update keys key none) = (.ok n, keys')) :
    unlink (key :: rest) keys = (.ok ((if (keys key).isSome then 1 else 0) + n), keys') := by
  have he : erase key keys = (.ok (), Function.update keys key none) := rfl
  rw [unlink, bind_of_ok (existsKey_apply key), bind_of_ok he, bind_of_ok h, pure_apply]

theorem hget_of_none (field : Bytes) (h : keys key = none) : hget key field keys = (.ok none, keys) := by
  rw [hget, bind_of_ok (hashAt_of_none h), pure_apply]

theorem hget_of_hash (field : Bytes) (h : keys key = some (.hash fields)) :
    hget key field keys = (.ok (fields field), keys) := by
  rw [hget, bind_of_ok (hashAt_of_hash h), pure_apply]

theorem hmget_of_none (names : List Bytes) (h : keys key = none) :
    hmget key names keys = (.ok (names.map fun _ => none), keys) := by
  rw [hmget, bind_of_ok (hashAt_of_none h), pure_apply]

theorem hmget_of_hash (names : List Bytes) (h : keys key = some (.hash fields)) :
    hmget key names keys = (.ok (names.map fields), keys) := by
  rw [hmget, bind_of_ok (hashAt_of_hash h), pure_apply]

theorem hset_of_none (pairs : List (Bytes × Bytes)) (h : keys key = none) :
    hset key pairs keys = (.ok (), Function.update keys key (some (.hash (pairs.foldl
      (fun fields pair => Function.update fields pair.1 (some pair.2)) fun _ => none)))) := by
  rw [hset, bind_of_ok (hashAt_of_none h)]
  rfl

theorem hset_of_hash (pairs : List (Bytes × Bytes)) (h : keys key = some (.hash fields)) :
    hset key pairs keys = (.ok (), Function.update keys key (some (.hash (pairs.foldl
      (fun fields pair => Function.update fields pair.1 (some pair.2)) fields)))) := by
  rw [hset, bind_of_ok (hashAt_of_hash h)]
  rfl

theorem xlen_of_stream (h : keys key = some (.stream stream)) :
    xlen key keys = (.ok stream.entries.length, keys) := by
  rw [xlen, bind_of_ok (streamAt_of_stream h), pure_apply]

theorem xlen_of_none (h : keys key = none) : xlen key keys = (.ok 0, keys) := by
  rw [xlen, bind_of_ok (streamAt_of_none h), pure_apply]
  rfl

theorem xrevrangeLast_of_none (h : keys key = none) : xrevrangeLast key keys = (.ok none, keys) := by
  rw [xrevrangeLast, bind_of_ok (streamAt_of_none h), pure_apply]
  rfl

theorem xrevrangeLast_of_stream (h : keys key = some (.stream stream)) :
    xrevrangeLast key keys = (.ok stream.entries.getLast?, keys) := by
  rw [xrevrangeLast, bind_of_ok (streamAt_of_stream h), pure_apply]

theorem xtrimAll_of_stream (h : keys key = some (.stream stream)) :
    xtrimAll key keys =
      (.ok (), Function.update keys key (some (.stream { stream with entries := [] }))) := by
  rw [xtrimAll, bind_of_ok (streamAt_of_stream h)]
  have he : existsKey key keys = (.ok true, keys) := by simp [existsKey, h]
  rw [bind_of_ok he]
  rfl

theorem parse_text (id : StreamId) : StreamId.parse id.text = some id := by
  unfold StreamId.parse StreamId.text
  rw [splitDash_append fun b hb => isDigitByte_of_mem_decimal hb]
  simp [parseDigits_decimal]

theorem xadd_of_none (id : StreamId) (pairs : List (Bytes × Bytes)) (h : keys key = none)
    (hid : StreamId.lt ⟨0, 0⟩ id) : xadd key id.text pairs keys =
      (.ok (), Function.update keys key (some (.stream ⟨[⟨id, pairs⟩], id⟩))) := by
  rw [xadd, bind_of_ok (streamAt_of_none h), parse_text]
  simp only [if_pos hid]
  rfl

theorem xadd_of_stream (id : StreamId) (pairs : List (Bytes × Bytes))
    (h : keys key = some (.stream stream)) (hid : stream.lastId.lt id) :
    xadd key id.text pairs keys = (.ok (), Function.update keys key
      (some (.stream ⟨stream.entries ++ [⟨id, pairs⟩], id⟩))) := by
  rw [xadd, bind_of_ok (streamAt_of_stream h), parse_text]
  simp only [if_pos hid]
  rfl

theorem xrange_of_none (h : keys key = none) : xrange key keys = (.ok (.array []), keys) := by
  rw [xrange, bind_of_ok (streamAt_of_none h), pure_apply]
  rfl

theorem xrange_of_stream (h : keys key = some (.stream stream)) :
    xrange key keys = (.ok (.array (stream.entries.map StreamEntry.reply)), keys) := by
  rw [xrange, bind_of_ok (streamAt_of_stream h), pure_apply]

theorem xrangeFrom_of_stream (id : StreamId) (h : streamAt key keys = (.ok stream, keys)) :
    xrangeFrom key id.text keys =
      (.ok (.array ((stream.entries.filter fun entry => ¬ entry.id.lt id).map StreamEntry.reply)), keys) := by
  rw [xrangeFrom, bind_of_ok h, parse_text]
  rfl

theorem xread_of_refused (protocol : Protocol) (count : ℕ) (key after : Bytes) (keys : Keyspace) {now block : ℕ}
    (h : blockRefused now block) : ∃ error,
      xread protocol count now block key after keys = (.error (.server error), keys) := by
  rw [xread, if_pos h]
  exact ⟨_, rfl⟩

theorem xread_of_nil {protocol : Protocol} {count now block : ℕ} {id : StreamId}
    (hblock : ¬ blockRefused now block) (h : streamAt key keys = (.ok stream, keys))
    (he : (stream.entries.filter fun entry => id.lt entry.id).take count = []) :
    xread protocol count now block key id.text keys = (.ok .nil, keys) := by
  rw [xread, if_neg hblock, bind_of_ok h, parse_text]
  simp only [he]
  rfl

theorem xread_of_cons {protocol : Protocol} {count now block : ℕ} {id : StreamId} {entry : StreamEntry}
    {rest : List StreamEntry} (hblock : ¬ blockRefused now block) (h : streamAt key keys = (.ok stream, keys))
    (he : (stream.entries.filter fun entry => id.lt entry.id).take count = entry :: rest) :
    xread protocol count now block key id.text keys =
      (.ok (readReply protocol key (entry :: rest)), keys) := by
  rw [xread, if_neg hblock, bind_of_ok h, parse_text]
  simp only [he]
  rfl

end Spec

end Wakuwaku.Redis
