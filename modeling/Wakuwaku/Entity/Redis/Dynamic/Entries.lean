import Wakuwaku.Entity.Redis.Keys
import Mathlib.Algebra.Group.Nat.Defs
import Mathlib.Data.List.Basic

/-! # Stream entries in replies

`parseRange` reads the entries of a stream back from the reply of `XRANGE`, and `parseRead` from the
reply of `XREAD`. A reply that Redis makes of a stream with 64-bit IDs parses to exactly its entries
(`parseRange_reply`, `parseRead_reply`). -/

namespace Wakuwaku.Entity.Redis.Dynamic

open Wakuwaku.Redis Wakuwaku.Entity.Redis

/-- `u64::saturating_add(1)`. -/
def saturatingSucc (n : ℕ) : ℕ := min (n + 1) (2 ^ 64 - 1)

/-- `str::parse::<u64>`: digits with an optional sign, below 2^64. -/
def parseU64 (bytes : Bytes) : Option ℕ := do
  let digits := match bytes with
    | 43 :: rest => rest
    | bytes => bytes
  let n ← parseDigits digits
  if n < 2 ^ 64 then some n else none

/-- ID of a stream entry. -/
structure EntryId where
  ms : ℕ
  seq : ℕ
  deriving DecidableEq, Repr

/-- `EntryId::parse`. Bytes that are no UTF-8 are no digits either. -/
def EntryId.parse (bytes : Bytes) : Except Error EntryId :=
  let parsed := do
    let (ms, seq) ← splitDash bytes
    let ms ← parseU64 ms
    let seq ← parseU64 seq
    return EntryId.mk ms seq
  match parsed with
  | some id => .ok id
  | none => .error (corrupted "malformed stream entry ID")

/-- A stream entry: its ID, and field names and values alternating as the reply holds them. -/
structure Entry where
  id : EntryId
  fields : List Value

/-- `as_chunks::<2>`, without the remainder. -/
def chunks : List Value → List (Value × Value)
  | a :: b :: rest => (a, b) :: chunks rest
  | _ => []

/-- The value of a pair whose field is `name`. -/
def pairValue (name : Bytes) : Value × Value → Option Bytes
  | (.bulkString field, .bulkString value) => if field = name then some value else none
  | _ => none

/-- Value of the field `name`, `none` if the entry lacks it. -/
def Entry.get (entry : Entry) (name : Bytes) : Option Bytes :=
  (chunks entry.fields).findSome? (pairValue name)

/-- `[id, [field, value, …]]`. -/
def parseEntry (value : Value) : Except Error Entry := do
  let parts ← match value with
    | .array parts => .ok parts
    | _ => .error (corrupted "stream entry is not an array")
  let (id, fields) ← match parts with
    | [id, fields] => .ok (id, fields)
    | _ => .error (corrupted "stream entry is not an ID and its fields")
  let id ← match id with
    | .bulkString id => EntryId.parse id
    | .simpleString id => EntryId.parse id
    | _ => .error (corrupted "stream entry ID is not a string")
  match fields with
  | .array fields =>
    if fields.length % 2 = 0 then .ok ⟨id, fields⟩
    else .error (corrupted "stream entry fields are not name-value pairs")
  | _ => .error (corrupted "stream entry fields are not name-value pairs")

/-- Reply of `XRANGE`. -/
def parseRange : Value → Except Error (List Entry)
  | .array entries => entries.mapM parseEntry
  | .nil => .ok []
  | _ => .error (corrupted "XRANGE reply is not an array")

/-- Reply of `XREAD` on one stream, `none` if it timed out. -/
def parseRead (value : Value) : Except Error (Option (List Entry)) := do
  let entries ← match value with
    | .nil => return none
    | .array streams => match streams.head? with
      | some (.array stream) => .ok stream[1]?
      | some _ => .error (corrupted "XREAD stream is not a key and its entries")
      | none => .ok none
    | .map streams => .ok (streams.head?.map Prod.snd)
    | _ => .error (corrupted "XREAD reply is neither nil, an array nor a map")
  match entries with
  | none => return some []
  | some entries => return some (← parseRange entries)

/-! ### Replies of Redis parse back -/

theorem parseU64_decimal {n : ℕ} (hn : n < 2 ^ 64) : parseU64 (decimal n) = some n := by
  have hsign : ∀ rest, decimal n ≠ 43 :: rest := by
    intro rest h
    have := isDigitByte_of_mem_decimal (b := 43) (n := n) (by rw [h]; simp)
    exact absurd this (by decide)
  unfold parseU64
  split
  · next rest h => exact absurd h (hsign rest)
  · simp only [parseDigits_decimal, Option.bind_eq_bind, Option.bind_some, if_pos hn]

theorem parse_text {id : StreamId} (hms : id.ms < 2 ^ 64) (hseq : id.seq < 2 ^ 64) :
    EntryId.parse id.text = .ok ⟨id.ms, id.seq⟩ := by
  unfold EntryId.parse StreamId.text
  rw [splitDash_append fun b hb => isDigitByte_of_mem_decimal hb]
  simp [parseU64_decimal hms, parseU64_decimal hseq]

/-- The entry a client reads. -/
def entryOf (entry : StreamEntry) : Entry where
  id := ⟨entry.id.ms, entry.id.seq⟩
  fields := entry.fields.flatMap fun pair => [.bulkString pair.1, .bulkString pair.2]

/-- An entry with 64-bit IDs. -/
def Parsable (entry : StreamEntry) : Prop := entry.id.ms < 2 ^ 64 ∧ entry.id.seq < 2 ^ 64

theorem parseEntry_reply {entry : StreamEntry} (h : Parsable entry) :
    parseEntry entry.reply = .ok (entryOf entry) := by
  have heven : (entry.fields.flatMap fun pair =>
      [Value.bulkString pair.1, Value.bulkString pair.2]).length % 2 = 0 := by
    induction entry.fields with
    | nil => rfl
    | cons pair rest ih =>
      simp only [List.flatMap_cons, List.length_append, List.length_cons, List.length_nil]
      omega
  unfold parseEntry StreamEntry.reply
  simp only [bind, Except.bind, parse_text h.1 h.2, if_pos heven]
  rfl

/-- **The reply of `XRANGE` parses to the entries of the stream.** -/
theorem parseRange_reply {entries : List StreamEntry} (h : ∀ entry ∈ entries, Parsable entry) :
    parseRange (.array (entries.map StreamEntry.reply)) = .ok (entries.map entryOf) := by
  show (entries.map StreamEntry.reply).mapM parseEntry = .ok (entries.map entryOf)
  induction entries with
  | nil => rfl
  | cons entry rest ih =>
    rw [List.map_cons, List.mapM_cons, parseEntry_reply (h entry (by simp)),
      ih fun e he => h e (by simp [he])]
    rfl

/-- **The reply of `XREAD` parses to the entries it holds.** -/
theorem parseRead_reply {entries : List StreamEntry} (protocol : Protocol) (key : Bytes)
    (h : ∀ entry ∈ entries, Parsable entry) :
    parseRead (readReply protocol key entries) = .ok (some (entries.map entryOf)) := by
  unfold parseRead readReply
  cases protocol with
  | resp2 =>
    show (parseRange (.array (entries.map StreamEntry.reply)) >>= fun entries => _) = _
    rw [parseRange_reply h]
    rfl
  | resp3 =>
    show (parseRange (.array (entries.map StreamEntry.reply)) >>= fun entries => _) = _
    rw [parseRange_reply h]
    rfl

theorem chunks_flatMap (pairs : List (Bytes × Bytes)) :
    chunks (pairs.flatMap fun pair => [.bulkString pair.1, .bulkString pair.2]) =
      pairs.map fun pair => (.bulkString pair.1, .bulkString pair.2) := by
  induction pairs with
  | nil => rfl
  | cons pair rest ih =>
    simp only [List.flatMap_cons, List.cons_append, List.nil_append, chunks, ih, List.map_cons]

/-- The value of the first pair with the name. -/
theorem get_entryOf (entry : StreamEntry) (name : Bytes) :
    (entryOf entry).get name = entry.fields.findSome? fun pair =>
      if pair.1 = name then some pair.2 else none := by
  unfold Entry.get entryOf
  rw [chunks_flatMap, List.findSome?_map]
  rfl

end Wakuwaku.Entity.Redis.Dynamic
