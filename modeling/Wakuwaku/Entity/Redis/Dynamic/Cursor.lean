import Wakuwaku.Entity.Redis.Dynamic.Entries

/-! # Reading a stream in batches

A cursor reads the entries of a stream after an ID, one `XREAD` at a time, and hands them out one by
one. The entries it has read and not handed out yet may be gone from the stream. -/

namespace Wakuwaku.Entity.Redis.Dynamic

open Wakuwaku.Redis Wakuwaku.Entity.Redis

/-- The ID as the server knows it. -/
def EntryId.streamId (id : EntryId) : StreamId := ⟨id.ms, id.seq⟩

/-- `EntryId::fmt`. -/
def EntryId.text (id : EntryId) : Bytes := decimal id.ms ++ 45 :: decimal id.seq

structure StreamCursor where
  key : Bytes
  after : EntryId
  pending : List Entry

def StreamCursor.new (key : Bytes) (after : EntryId) : StreamCursor := ⟨key, after, []⟩

/-- The next entry, waiting up to `block` ms (0: forever) for one to be added, `none` if the wait timed
out. An `XREAD` gets at most `batch` entries; the source asks for `READ_BATCH`. -/
def StreamCursor.next (protocol : Protocol) (batch now block : ℕ) (cursor : StreamCursor) :
    Action (Option Entry × StreamCursor) :=
  match cursor.pending with
  | entry :: rest => return (some entry, { cursor with pending := rest })
  | [] => do
    let reply ← xread protocol batch now block cursor.key cursor.after.text
    match ← ofResult (parseRead reply) with
    | none => return (none, cursor)
    | some entries =>
      let after := (entries.getLast?.map Entry.id).getD cursor.after
      return (entries.head?, ⟨cursor.key, after, entries.tail⟩)

/-! ### What a read gives -/

section Next

variable {keys : Keyspace} {cursor : StreamCursor} {stream : Stream}

/-- The entries of a stream after an ID. -/
def Stream.after (stream : Stream) (id : EntryId) : List StreamEntry :=
  stream.entries.filter fun entry => id.streamId.lt entry.id

theorem next_of_pending (protocol : Protocol) (batch now block : ℕ) {entry : Entry} {rest : List Entry}
    (h : cursor.pending = entry :: rest) :
    cursor.next protocol batch now block keys = (.ok (some entry, { cursor with pending := rest }), keys) := by
  unfold StreamCursor.next
  rw [h]
  rfl

/-- A wait whose end is out of range is refused. -/
theorem next_of_refused (keys : Keyspace) (protocol : Protocol) (batch : ℕ) {now block : ℕ} (hp : cursor.pending = [])
    (hblock : blockRefused now block) : ∃ error,
      cursor.next protocol batch now block keys = (.error (.server error), keys) := by
  obtain ⟨error, he⟩ := xread_of_refused protocol batch cursor.key cursor.after.text keys hblock
  refine ⟨error, ?_⟩
  unfold StreamCursor.next
  rw [hp]
  exact bind_of_error he

variable (protocol : Protocol) {batch now block : ℕ} (hp : cursor.pending = [])
  (hs : streamAt cursor.key keys = (.ok stream, keys)) (hblock : ¬ blockRefused now block)
include hp hs hblock

/-- Nothing is read at the end of the stream. -/
theorem next_of_nil (h : Stream.after stream cursor.after = []) :
    cursor.next protocol batch now block keys = (.ok (none, cursor), keys) := by
  have he : (stream.entries.filter fun entry => cursor.after.streamId.lt entry.id).take batch = [] := by
    rw [← Stream.after, h, List.take_nil]
  unfold StreamCursor.next
  rw [hp]
  exact bind_of_ok (xread_of_nil hblock hs he)

/-- A batch is read elsewhere: its first entry comes out and the others wait. -/
theorem next_of_cons (hbatch : 0 < batch) (hparse : ∀ entry ∈ stream.entries, Parsable entry)
    (h : Stream.after stream cursor.after ≠ []) : ∃ entry rest,
      (Stream.after stream cursor.after).take batch = entry :: rest ∧
      cursor.next protocol batch now block keys = (.ok (some (entryOf entry), ⟨cursor.key,
        (entryOf ((entry :: rest).getLast (List.cons_ne_nil _ _))).id, rest.map entryOf⟩), keys) := by
  obtain ⟨n, rfl⟩ : ∃ n, batch = n + 1 := ⟨batch - 1, by omega⟩
  obtain ⟨entry, others, hcons⟩ := List.exists_cons_of_ne_nil h
  have he : (stream.entries.filter fun entry => cursor.after.streamId.lt entry.id).take (n + 1) =
      entry :: others.take n := by
    rw [← Stream.after, hcons, List.take_succ_cons]
  have hall : ∀ e ∈ entry :: others.take n, Parsable e := by
    intro e hm
    rw [← he] at hm
    exact hparse e (List.mem_of_mem_filter (List.mem_of_mem_take hm))
  refine ⟨entry, others.take n, he, ?_⟩
  unfold StreamCursor.next
  rw [hp]
  refine (bind_of_ok (xread_of_cons hblock hs he)).trans ?_
  rw [parseRead_reply protocol cursor.key hall, bind_ofResult_ok, List.map_cons]
  simp only [List.head?_cons, List.tail_cons, pure_apply]
  rw [← List.map_cons, List.getLast?_map, List.getLast?_eq_getLast_of_ne_nil (List.cons_ne_nil _ _)]
  rfl

end Next

end Wakuwaku.Entity.Redis.Dynamic
