import Wakuwaku.Entity.Redis.Dynamic.StreamBuffer.Delivery

/-! # Reading a stream buffer from an index

A read outputs the bodies from its index on (`read_of_stores`), and whether the buffer is finished only
if it still reaches the end (`read_iff`): the end is the entry right behind the last body. -/

namespace Wakuwaku.Entity.Redis.Dynamic

open Wakuwaku.Redis Wakuwaku.Entity.Redis

variable {B : Type}

/-! ### The query -/

/-- Bodies read from a buffer, from the requested index on, and whether the buffer is finished. -/
structure Contents (B : Type) where
  bodies : List B
  finished : Bool
  deriving DecidableEq, Repr

/-- What an entry adds to the contents. -/
def Contents.push (codec : Codec B) (contents : Contents B) (entry : Entry) : Except Error (Contents B) := do
  match ← StreamBufferItem.parse codec entry with
  | .body body => return { contents with bodies := contents.bodies ++ [body] }
  | .ended => return { contents with finished := true }

/-- Read the bodies of `name` from index `first` on. -/
def StreamBuffer.read (buffer : StreamBuffer B) (name : Bytes) (first : ℕ) : Command (Contents B) := do
  let reply ← exec (xrangeFrom (buffer.key name) (EntryId.text ⟨0, saturatingSucc first⟩))
  let entries ← Command.ofResult (parseRange reply)
  Command.ofResult (entries.foldlM (Contents.push buffer.codec) ⟨[], false⟩)

/-! ### The entries from an index on -/

section Numbered

variable {fields : List (List (Bytes × Bytes))} {values : List Bytes} {finished : Bool} {j : ℕ}

theorem map_fields_numbered : (numbered fields).map StreamEntry.fields = fields := by
  refine List.ext_getElem (by rw [List.length_map, length_numbered]) fun i h₁ h₂ => ?_
  rw [List.getElem_map]
  exact congrArg StreamEntry.fields List.getElem_mapIdx

/-- Before the next number come the entries up to an index. -/
theorem filter_numbered (k : ℕ) :
    ((numbered fields).filter fun entry => ¬ entry.id.lt ⟨0, k + 1⟩) = (numbered fields).drop k := by
  rw [← after_numbered k]
  refine List.filter_congr fun entry he => ?_
  obtain ⟨i, hi, rfl⟩ := List.mem_iff_getElem.mp he
  have hid : ((numbered fields)[i]).id = ⟨0, i + 1⟩ := congrArg StreamEntry.id List.getElem_mapIdx
  rw [hid, decide_eq_decide]
  simp only [StreamId.lt, EntryId.streamId, Nat.lt_irrefl, true_and, false_or]
  omega

theorem parsable_numbered (hsmall : fields.length < 2 ^ 64) : ∀ entry ∈ numbered fields, Parsable entry := by
  intro entry he
  obtain ⟨i, hi, rfl⟩ := List.mem_iff_getElem.mp he
  rw [length_numbered] at hi
  have hid : (numbered fields)[i] = ⟨⟨0, i + 1⟩, fields[i]⟩ := List.getElem_mapIdx
  rw [hid]
  exact ⟨Nat.two_pow_pos 64, show i + 1 < 2 ^ 64 by omega⟩

/-- The end is dropped after the last body. -/
theorem drop_bufferFields : (bufferFields values finished).drop j =
    bufferFields (values.drop j) (finished && decide (j ≤ values.length)) := by
  unfold bufferFields
  rw [List.drop_append, List.map_drop, List.length_map]
  congr 1
  cases finished with
  | false => simp
  | true =>
    by_cases hj : j ≤ values.length
    · simp [hj, Nat.sub_eq_zero_of_le hj]
    · have hpos : j - values.length = j - values.length - 1 + 1 := by omega
      rw [hpos]
      simp [hj]

end Numbered

/-! ### What a read outputs -/

section Read

variable {buffer : StreamBuffer B} {name : Bytes} {s : Buffered B} {values : List Bytes} {bodies : List B}
  {finished : Bool} {codec : Codec B} {first : ℕ}

theorem push_body (contents : Contents B) {entry : StreamEntry} {bytes : Bytes} {body : B}
    (he : entry.fields = [(StreamBuffer.bodyField, bytes)]) (hb : codec.deserialize bytes = .ok body) :
    contents.push codec (entryOf entry) = .ok { contents with bodies := contents.bodies ++ [body] } := by
  obtain ⟨id, _⟩ := entry
  subst he
  rw [Contents.push, parse_body, hb]
  rfl

theorem push_end (contents : Contents B) {entry : StreamEntry}
    (he : entry.fields = [(StreamBuffer.endField, [])]) :
    contents.push codec (entryOf entry) = .ok { contents with finished := true } := by
  obtain ⟨id, _⟩ := entry
  subst he
  rw [Contents.push, parse_end]
  rfl

/-- The entries of a whole buffer, whatever their IDs. -/
theorem foldlM_push (h : List.Forall₂ (fun bytes body => codec.deserialize bytes = .ok body) values bodies)
    {entries : List StreamEntry} (he : entries.map StreamEntry.fields = bufferFields values finished)
    (contents : Contents B) : (entries.map entryOf).foldlM (Contents.push codec) contents =
      .ok ⟨contents.bodies ++ bodies, contents.finished || finished⟩ := by
  induction h generalizing entries contents with
  | nil =>
    cases finished with
    | false =>
      obtain rfl : entries = [] := by simpa [bufferFields] using he
      simp only [List.map_nil, List.foldlM_nil, List.append_nil, Bool.or_false]
      rfl
    | true =>
      obtain ⟨entry, rfl, hentry⟩ : ∃ entry, entries = [entry] ∧ entry.fields = _ := by
        simpa [bufferFields, List.map_eq_singleton_iff] using he
      simp [push_end contents hentry]
  | cons hb _ ih =>
    obtain ⟨entry, rest, rfl, hentry, hrest⟩ := List.map_eq_cons_iff.mp he
    rw [List.map_cons, List.foldlM_cons, push_body contents hentry hb]
    refine (ih hrest _).trans ?_
    simp

theorem saturatingSucc_eq (hfirst : first < 2 ^ 64) :
    ∃ k, saturatingSucc first = k + 1 ∧ (k = first ∨ first = 2 ^ 64 - 1 ∧ k = 2 ^ 64 - 2) := by
  refine ⟨saturatingSucc first - 1, ?_, ?_⟩ <;> unfold saturatingSucc <;> omega

/-- **What a read outputs**: the bodies from its index on, and the end if it is not behind it. -/
theorem read_of_stores (h : Stores buffer name s values) (hfirst : first < 2 ^ 64) :
    buffer.read name first s.server =
      (.ok ⟨s.bodies.drop first, s.finished && decide (first ≤ s.bodies.length)⟩, s.server) := by
  obtain ⟨expires, hdb⟩ := h.stored
  have hlen := length_bufferFields_le values s.finished
  have hsmall := h.small
  rw [← h.length] at hsmall ⊢
  obtain ⟨k, hk, hcases⟩ := saturatingSucc_eq hfirst
  have hrange : xrangeFrom (buffer.key name) (EntryId.text ⟨0, k + 1⟩) s.server.keys = _ :=
    xrangeFrom_of_stream ⟨0, k + 1⟩ (streamAt_of_streamOf hdb)
  have hdrop : (numbered (bufferFields values s.finished)).drop k =
      (numbered (bufferFields values s.finished)).drop first := by
    rcases hcases with rfl | ⟨hmax, hmin⟩
    · rfl
    · rw [List.drop_eq_nil_of_le (by rw [length_numbered]; omega),
        List.drop_eq_nil_of_le (by rw [length_numbered]; omega)]
  rw [numberedStream, filter_numbered, hdrop] at hrange
  have hparsable : ∀ entry ∈ (numbered (bufferFields values s.finished)).drop first, Parsable entry :=
    fun entry he => parsable_numbered (by omega) entry (List.mem_of_mem_drop he)
  have hfields : ((numbered (bufferFields values s.finished)).drop first).map StreamEntry.fields =
      bufferFields (values.drop first) (s.finished && decide (first ≤ values.length)) := by
    rw [List.map_drop, map_fields_numbered, drop_bufferFields]
  unfold StreamBuffer.read
  rw [hk, Command.bind_of_ok (exec_of_read hrange),
    Command.bind_of_ok (Command.ofResult_of_ok (parseRange_reply hparsable))]
  exact Command.ofResult_of_ok ((foldlM_push (List.forall₂_drop first h.bodies) hfields _).trans (by simp))

end Read

/-! ### The result -/

/-- A read outputs the bodies from its index on and whether the buffer is finished iff it does not start
behind the end of a finished buffer. -/
theorem read_iff (buffer : StreamBuffer B) (hround : buffer.codec.RoundTrips) (name : Bytes) (server : Server)
    (hnone : server.db (buffer.key name) = none) (start : ℕ) {moves : List (BufferMove B)} {s : Buffered B}
    (run : Steps (BufferStep buffer name) (buffer.fresh name start server) moves s) {first : ℕ}
    (hfirst : first < 2 ^ 64) :
    buffer.read name first s.server = (.ok ⟨s.bodies.drop first, s.finished⟩, s.server) ↔
      (s.finished = true → first ≤ s.bodies.length) := by
  obtain ⟨values, h, -⟩ := exists_stores hround hnone run
  rw [read_of_stores h hfirst]
  constructor
  · intro he hfinished
    have hflag := congrArg Contents.finished (Except.ok.inj (Prod.mk.inj he).1)
    simpa [hfinished] using hflag
  · intro hle
    have hflag : (s.finished && decide (first ≤ s.bodies.length)) = s.finished := by
      cases hfinished : s.finished with
      | false => rfl
      | true => simpa using hle hfinished
    rw [hflag]

/-- A read from the second of three bodies. -/
theorem read_iff_raw : ∃ s,
    Steps (BufferStep rawBuffer []) (rawBuffer.fresh [] 0 ⟨0, fun _ => none⟩)
      [.append [7], .append [8], .append [9], .finish] s ∧ s.bodies.drop 1 = [[8], [9]] ∧ s.finished = true ∧
      rawBuffer.read [] 1 s.server = (.ok ⟨s.bodies.drop 1, s.finished⟩, s.server) := by
  have h1 : Steps (BufferStep rawBuffer []) (rawBuffer.fresh [] 0 ⟨0, fun _ => none⟩) [.append [7]] _ :=
    Steps.nil.snoc (.append (by decide +kernel))
  have h2 : Steps (BufferStep rawBuffer []) (rawBuffer.fresh [] 0 ⟨0, fun _ => none⟩) [.append [7], .append [8]] _ :=
    h1.snoc (.append (by decide +kernel))
  have h3 : Steps (BufferStep rawBuffer []) (rawBuffer.fresh [] 0 ⟨0, fun _ => none⟩)
      [.append [7], .append [8], .append [9]] _ := h2.snoc (.append (by decide +kernel))
  have h4 := h3.snoc .finish
  refine ⟨_, h4, by decide +kernel, by decide +kernel, ?_⟩
  exact (read_iff rawBuffer rawBuffer_roundTrips [] ⟨0, fun _ => none⟩ rfl 0 h4 (by decide)).mpr
    fun _ => by decide +kernel

/-- **Behind the end a read says that the buffer is not finished.** -/
theorem read_behind_end : ∃ s,
    Steps (BufferStep rawBuffer []) (rawBuffer.fresh [] 0 ⟨0, fun _ => none⟩) [.finish] s ∧
      s.finished = true ∧ s.bodies = [] ∧ (rawBuffer.read [] 1 s.server).1 = .ok ⟨[], false⟩ := by
  have h : Steps (BufferStep rawBuffer []) (rawBuffer.fresh [] 0 ⟨0, fun _ => none⟩) [.finish] _ :=
    Steps.nil.snoc .finish
  exact ⟨_, h, by decide +kernel, by decide +kernel, by decide +kernel⟩

end Wakuwaku.Entity.Redis.Dynamic
