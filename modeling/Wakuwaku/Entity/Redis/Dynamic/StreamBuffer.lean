import Wakuwaku.Redis.Server
import Wakuwaku.Entity.Redis.Dynamic.Cursor
import Mathlib.Data.List.Induction

/-! # Stream buffers

Append-only arrays of bodies, followed as they grow. The body at index `i` is the stream entry with ID
`0-(i + 1)`, and the entry that ends a finished buffer has the next ID. An array of bodies, finished or
not, determines the entries (`bufferFields`); the scripts add an entry to it (`addEntry_of_open`),
and a cursor that has handed out the entries before an index hands out the one at the index
(`Reads.next_of_some`). -/

namespace Wakuwaku.Entity.Redis.Dynamic

open Wakuwaku.Redis Wakuwaku.Entity.Redis

variable {B : Type}

/-! ### Scripts -/

/-- Field of an entry holding a body. -/
def StreamBuffer.bodyField : Bytes := asBytes "b"

/-- Field of the entry that ends a finished buffer. -/
def StreamBuffer.endField : Bytes := asBytes "end"

/-- Add an entry with the fields and restart the TTL, unless the buffer is finished: the index of the
entry. Lua's numbers are exact below 2^53. -/
def addEntry (key : Bytes) (fields : List (Bytes × Bytes)) (ttl : ℕ) : Command (Option ℕ) := do
  let last ← exec (xrevrangeLast key)
  if (last.bind fun entry => entry.fields.head?.map Prod.fst) = some StreamBuffer.endField then
    return none
  else
    let len ← exec (xlen key)
    exec (xadd key (asBytes "0-" ++ decimal (len + 1)) fields)
    let _ ← pexpire key ttl
    return some len

/-- The script `APPEND` of body `ARGV[1]` to `KEYS[1]` with a TTL of `ARGV[2]` ms. -/
def appendScript (key body : Bytes) (ttl : ℕ) : Command Int := do
  match ← addEntry key [(StreamBuffer.bodyField, body)] ttl with
  | none => return -1
  | some len => return len

/-- The script `FINISH` of `KEYS[1]` with a TTL of `ARGV[1]` ms. -/
def finishScript (key : Bytes) (ttl : ℕ) : Command ℕ := do
  match ← addEntry key [(StreamBuffer.endField, [])] ttl with
  | none => return 0
  | some _ => return 1

/-! ### The queries -/

/-- Stream buffers with bodies `B` in a namespace, removed `ttl` after their last change. -/
structure StreamBuffer (B : Type) where
  space : String
  ttl : ℕ
  codec : Codec B

def StreamBuffer.key (buffer : StreamBuffer B) (name : Bytes) : Bytes :=
  itemKey "StreamBuffer" buffer.space name

/-- Append `body`: its index, `none` if the buffer is finished. -/
def StreamBuffer.append (buffer : StreamBuffer B) (name : Bytes) (body : B) : Command (Option ℕ) := do
  let body ← Command.ofResult (buffer.codec.serialize body)
  let index ← appendScript (buffer.key name) body (millis buffer.ttl)
  return if 0 ≤ index then some index.toNat else none

/-- Finish `name`: `false` if it was already finished. -/
def StreamBuffer.finish (buffer : StreamBuffer B) (name : Bytes) : Command Bool := do
  let finished ← finishScript (buffer.key name) (millis buffer.ttl)
  return finished ≠ 0

/-- Delete `name`. Outputs whether it was present. -/
def StreamBuffer.remove (buffer : StreamBuffer B) (name : Bytes) : Command Bool := do
  let removed ← exec (unlink [buffer.key name])
  return removed > 0

/-- What a stream buffer entry holds. -/
inductive StreamBufferItem (B : Type) where
  | body (body : B)
  | ended

/-- `Item::parse`. -/
def StreamBufferItem.parse (codec : Codec B) (entry : Entry) : Except Error (StreamBufferItem B) :=
  match entry.get StreamBuffer.bodyField with
  | some bytes => (codec.deserialize bytes).map .body
  | none =>
    if (entry.get StreamBuffer.endField).isSome then .ok .ended
    else .error (corrupted "unknown stream buffer entry")

structure StreamBufferSubscription where
  cursor : StreamCursor
  ttl : ℕ
  ended : Bool

/-- Follow `name` from index `start` on. -/
def StreamBuffer.subscribe (buffer : StreamBuffer B) (name : Bytes) (start : ℕ) :
    StreamBufferSubscription :=
  ⟨.new (buffer.key name) ⟨0, start⟩, buffer.ttl, false⟩

/-- What comes of one command of `recv`: it returns, or goes on to read, or to check whether the
buffer exists. -/
inductive Round (B : Type) where
  | output (result : Except Error (Option B))
  | read
  | check

/-- The error of a subscription to a buffer that does not exist. -/
def goneBuffer : Error := gone "the stream buffer expired or was removed before it finished"

/-- The round of the loop of `recv` up to the check. -/
def StreamBufferSubscription.read (codec : Codec B) (protocol : Protocol) (batch : ℕ)
    (subscription : StreamBufferSubscription) : Command (Round B × StreamBufferSubscription) := do
  if subscription.ended then
    return (.output (.ok none), subscription)
  else
    let (entry, cursor) ← execAt fun now => subscription.cursor.next protocol batch now (millis subscription.ttl)
    match entry with
    | none => return (.check, { subscription with cursor })
    | some entry =>
      match StreamBufferItem.parse codec entry with
      | .error error => return (.output (.error error), { subscription with cursor })
      | .ok (.body body) => return (.output (.ok (some body)), { subscription with cursor })
      | .ok .ended => return (.output (.ok none), { subscription with cursor, ended := true })

/-- The subscription has to read, and the end of the wait for a whole TTL is out of range. -/
def StreamBufferSubscription.Refused (subscription : StreamBufferSubscription) (now : ℕ) : Prop :=
  subscription.ended = false ∧ subscription.cursor.pending = [] ∧ blockRefused now (millis subscription.ttl)

instance (subscription : StreamBufferSubscription) (now : ℕ) : Decidable (subscription.Refused now) :=
  inferInstanceAs (Decidable (_ ∧ subscription.cursor.pending = [] ∧ _))

/-- The check, after a wait for a whole TTL timed out. -/
def StreamBufferSubscription.check (subscription : StreamBufferSubscription) :
    Command (Round B × StreamBufferSubscription) := do
  if ← keyExists subscription.cursor.key then
    return (.read, subscription)
  else
    return (.output (.error goneBuffer), { subscription with ended := true })

/-! ### What is stored -/

/-- The fields of the entries: of the bodies, and of the end of a finished buffer. -/
def bufferFields (values : List Bytes) (finished : Bool) : List (List (Bytes × Bytes)) :=
  values.map (fun bytes => [(StreamBuffer.bodyField, bytes)]) ++
    if finished then [[(StreamBuffer.endField, [])]] else []

/-- The entries with IDs `0-1`, `0-2`, … -/
def numbered (fields : List (List (Bytes × Bytes))) : List StreamEntry :=
  fields.mapIdx fun i pairs => ⟨⟨0, i + 1⟩, pairs⟩

def numberedStream (fields : List (List (Bytes × Bytes))) : Stream := ⟨numbered fields, ⟨0, fields.length⟩⟩

/-- A stream of numbered entries as it is stored: without entries there is none. -/
def streamOf (fields : List (List (Bytes × Bytes))) (expires : Option ℕ) : Option Stored :=
  if fields = [] then none else some ⟨.stream (numberedStream fields), expires⟩

section Numbered

variable {fields : List (List (Bytes × Bytes))}

@[simp] theorem length_numbered : (numbered fields).length = fields.length := List.length_mapIdx

theorem numbered_append (pairs : List (Bytes × Bytes)) :
    numbered (fields ++ [pairs]) = numbered fields ++ [⟨⟨0, fields.length + 1⟩, pairs⟩] := by
  unfold numbered
  rw [List.mapIdx_append]
  simp

theorem getElem?_numbered (i : ℕ) :
    (numbered fields)[i]? = fields[i]?.map fun pairs => ⟨⟨0, i + 1⟩, pairs⟩ := List.getElem?_mapIdx

theorem streamOf_of_ne_nil (h : fields ≠ []) (expires : Option ℕ) :
    streamOf fields expires = some ⟨.stream (numberedStream fields), expires⟩ := if_neg h

/-- The entry at an index and those behind it. -/
theorem drop_take_numbered {pairs : List (Bytes × Bytes)} {j k : ℕ} (hj : fields[j]? = some pairs)
    (hk : j < k) : ((numbered fields).take k).drop j =
      ⟨⟨0, j + 1⟩, pairs⟩ :: ((numbered fields).take k).drop (j + 1) := by
  obtain ⟨hlt, rfl⟩ := List.getElem?_eq_some_iff.mp hj
  have hj' : j < ((numbered fields).take k).length := by
    rw [List.length_take, length_numbered]
    omega
  rw [List.drop_eq_getElem_cons hj', List.getElem_take]
  exact congrArg (· :: _) List.getElem_mapIdx

/-- The last of the entries up to an index has the ID of the index. -/
theorem getLast?_numbered_take {j k : ℕ} (hjk : j < k) (hk : k ≤ fields.length) :
    (((numbered fields).take k).drop j).getLast?.map StreamEntry.id = some ⟨0, k⟩ := by
  obtain ⟨k, rfl⟩ : ∃ n, k = n + 1 := ⟨k - 1, by omega⟩
  have hlen : ¬ ((numbered fields).take (k + 1)).length ≤ j := by
    rw [List.length_take, length_numbered]
    omega
  rw [List.getLast?_drop, if_neg hlen, List.getLast?_take, if_neg (by omega), Nat.add_sub_cancel,
    getElem?_numbered, List.getElem?_eq_getElem (by omega)]
  rfl

/-- The entries after an ID are those behind its index. -/
theorem after_numbered (k : ℕ) :
    Stream.after (numberedStream fields) ⟨0, k⟩ = (numbered fields).drop k := by
  unfold Stream.after numberedStream
  induction fields using List.reverseRecOn with
  | nil => simp [numbered]
  | append_singleton fields pairs ih =>
    rw [numbered_append, List.filter_append, ih, List.drop_append, length_numbered]
    by_cases hk : k ≤ fields.length
    · have hlt : k < fields.length + 1 := Nat.lt_succ_of_le hk
      simp [EntryId.streamId, StreamId.lt, hlt, Nat.sub_eq_zero_of_le hk]
    · have hle : ¬ k < fields.length + 1 := by omega
      simp [EntryId.streamId, StreamId.lt, hle, List.drop_eq_nil_iff]
      omega

end Numbered

/-! ### What the scripts do -/

section Scripts

variable {server : Server} {key : Bytes} {fields : List (List (Bytes × Bytes))} {expires : Option ℕ}

theorem keys_of_streamOf (h : server.db key = streamOf fields expires) (hne : fields ≠ []) :
    server.keys key = some (.stream (numberedStream fields)) := by
  unfold Server.keys
  rw [h, streamOf_of_ne_nil hne]
  rfl

theorem keys_of_nil (h : server.db key = streamOf [] expires) : server.keys key = none := by
  unfold Server.keys
  rw [h]
  rfl

theorem getLast?_numbered :
    (numbered fields).getLast?.map StreamEntry.fields = fields.getLast? := by
  rcases List.eq_nil_or_concat fields with rfl | ⟨init, last, rfl⟩
  · rfl
  · rw [List.concat_eq_append, numbered_append, List.getLast?_concat, List.getLast?_concat]
    rfl

/-- The first field of the last entry. -/
def lastField (fields : List (List (Bytes × Bytes))) : Option Bytes :=
  fields.getLast?.bind fun pairs => pairs.head?.map Prod.fst

theorem xrevrangeLast_of_streamOf (h : server.db key = streamOf fields expires) :
    exec (xrevrangeLast key) server = (.ok (numbered fields).getLast?, server) := by
  by_cases hne : fields = []
  · subst hne
    exact exec_of_read (xrevrangeLast_of_none (keys_of_nil h))
  · exact exec_of_read (xrevrangeLast_of_stream (keys_of_streamOf h hne))

theorem xlen_of_streamOf (h : server.db key = streamOf fields expires) :
    exec (xlen key) server = (.ok fields.length, server) := by
  by_cases hne : fields = []
  · subst hne
    exact exec_of_read (xlen_of_none (keys_of_nil h))
  · refine exec_of_read ((xlen_of_stream (keys_of_streamOf h hne)).trans ?_)
    rw [numberedStream, length_numbered]

theorem text_index (i : ℕ) : asBytes "0-" ++ decimal (i + 1) = StreamId.text ⟨0, i + 1⟩ := by
  have hzero : asBytes "0-" = decimal 0 ++ [45] := by decide
  rw [hzero, List.append_assoc]
  rfl

/-- The next number is above the last one. -/
theorem xadd_of_streamOf (h : server.db key = streamOf fields expires) (pairs : List (Bytes × Bytes)) :
    ∃ expires', exec (xadd key (asBytes "0-" ++ decimal (fields.length + 1)) pairs) server =
      (.ok (), server.put key (streamOf (fields ++ [pairs]) expires')) := by
  rw [text_index]
  refine ⟨(server.db key).bind Stored.expires, ?_⟩
  rw [streamOf_of_ne_nil (by simp)]
  refine exec_of_put ?_
  unfold numberedStream
  rw [numbered_append, List.length_append, List.length_singleton]
  by_cases hne : fields = []
  · subst hne
    exact xadd_of_none _ _ (keys_of_nil h) (by simp [StreamId.lt])
  · exact xadd_of_stream _ _ (keys_of_streamOf h hne) (by simp [StreamId.lt, numberedStream])

theorem addEntry_of_ended (h : server.db key = streamOf fields expires)
    (hlast : lastField fields = some StreamBuffer.endField) (pairs : List (Bytes × Bytes)) (ttl : ℕ) :
    addEntry key pairs ttl server = (.ok none, server) := by
  unfold addEntry
  rw [Command.bind_of_ok (xrevrangeLast_of_streamOf h), if_pos]
  · rfl
  · rw [← hlast, lastField, ← getLast?_numbered, Option.bind_map]
    rfl

/-- **An entry is added at the end**, also when the TTL is out of range and the script fails. -/
theorem addEntry_of_open (h : server.db key = streamOf fields expires)
    (hlast : lastField fields ≠ some StreamBuffer.endField) (pairs : List (Bytes × Bytes)) {ttl : ℕ}
    (hpos : 0 < ttl) : ∃ result expires', addEntry key pairs ttl server =
      (result, server.put key (streamOf (fields ++ [pairs]) expires')) ∧
      (result = .ok (some fields.length) ∧ ¬ outOfRange server.now ttl ∨
        (∃ error, result = .error error) ∧ outOfRange server.now ttl) := by
  obtain ⟨expires', hadd⟩ := xadd_of_streamOf h pairs
  have hne : fields ++ [pairs] ≠ [] := by simp
  unfold addEntry
  rw [Command.bind_of_ok (xrevrangeLast_of_streamOf h), if_neg, Command.bind_of_ok (xlen_of_streamOf h),
    Command.bind_of_ok hadd]
  · generalize hserver : server.put key (streamOf (fields ++ [pairs]) expires') = added
    have hdb : added.db key = some ⟨.stream (numberedStream (fields ++ [pairs])), expires'⟩ := by
      rw [← hserver, Server.db_put_self, streamOf_of_ne_nil hne]
    have hnow : added.now = server.now := by rw [← hserver, Server.now_put]
    by_cases hout : outOfRange server.now ttl
    · obtain ⟨error, hexpire⟩ := pexpire_of_out key (hnow.symm ▸ hout)
      refine ⟨.error error, expires', ?_, Or.inr ⟨⟨error, rfl⟩, hout⟩⟩
      rw [Command.bind_of_error hexpire, hserver]
    · have hexpire := pexpire_of_some hdb hpos (hnow.symm ▸ Nat.not_le.mp hout)
      refine ⟨.ok (some fields.length), some (added.now + ttl), ?_, Or.inl ⟨rfl, hout⟩⟩
      rw [Command.bind_of_ok hexpire, ← hserver, Server.put_put, ← streamOf_of_ne_nil hne]
      rfl
  · intro he
    refine hlast (Eq.trans ?_ he)
    rw [lastField, ← getLast?_numbered, Option.bind_map]
    rfl

end Scripts

/-! ### What the writers do -/

section Writers

variable {values : List Bytes}

theorem lastField_finished : lastField (bufferFields values true) = some StreamBuffer.endField := by
  unfold lastField bufferFields
  rw [if_pos rfl, List.getLast?_concat]
  rfl

theorem lastField_open : lastField (bufferFields values false) ≠ some StreamBuffer.endField := by
  unfold lastField bufferFields
  rw [if_neg Bool.false_ne_true, List.append_nil]
  rcases List.eq_nil_or_concat values with rfl | ⟨init, last, rfl⟩
  · simp
  · have hne : StreamBuffer.bodyField ≠ StreamBuffer.endField := by decide
    rw [List.concat_eq_append, List.map_append, List.map_singleton, List.getLast?_concat]
    exact fun h => hne (Option.some.inj h)

theorem bufferFields_append (bytes : Bytes) :
    bufferFields values false ++ [[(StreamBuffer.bodyField, bytes)]] =
      bufferFields (values ++ [bytes]) false := by simp [bufferFields]

theorem bufferFields_finish :
    bufferFields values false ++ [[(StreamBuffer.endField, [])]] = bufferFields values true := by
  simp [bufferFields]

theorem length_bufferFields_open : (bufferFields values false).length = values.length := by
  simp [bufferFields]

theorem length_bufferFields_le (values : List Bytes) (finished : Bool) :
    (bufferFields values finished).length ≤ values.length + 1 := by
  cases finished <;> simp [bufferFields]

theorem bufferFields_body {j : ℕ} {bytes : Bytes} (h : values[j]? = some bytes) (finished : Bool) :
    (bufferFields values finished)[j]? = some [(StreamBuffer.bodyField, bytes)] := by
  obtain ⟨hj, -⟩ := List.getElem?_eq_some_iff.mp h
  unfold bufferFields
  rw [List.getElem?_append_left (by rwa [List.length_map]), List.getElem?_map, h]
  rfl

theorem bufferFields_end :
    (bufferFields values true)[values.length]? = some [(StreamBuffer.endField, [])] := by
  unfold bufferFields
  rw [List.getElem?_append_right (by simp), List.length_map, Nat.sub_self]
  rfl

variable {buffer : StreamBuffer B} {name : Bytes} {server : Server} {expires : Option ℕ}

section Open

variable (h : server.db (buffer.key name) = streamOf (bufferFields values false) expires)
include h

/-- **An append adds the body at the end and outputs its index**, unless the TTL is out of range. -/
theorem append_of_open {body : B} {bytes : Bytes} (hb : buffer.codec.serialize body = .ok bytes) :
    ∃ result expires', buffer.append name body server = (result,
      server.put (buffer.key name) (streamOf (bufferFields (values ++ [bytes]) false) expires')) ∧
      (result = .ok (some values.length) ∧ ¬ outOfRange server.now (millis buffer.ttl) ∨
        (∃ error, result = .error error) ∧ outOfRange server.now (millis buffer.ttl)) := by
  obtain ⟨result, expires', hadd, hresult⟩ :=
    addEntry_of_open h lastField_open [(StreamBuffer.bodyField, bytes)] (millis_pos buffer.ttl)
  rw [bufferFields_append] at hadd
  rw [length_bufferFields_open] at hresult
  unfold StreamBuffer.append
  rw [Command.bind_of_ok (Command.ofResult_of_ok hb)]
  rcases hresult with ⟨rfl, hin⟩ | ⟨⟨error, rfl⟩, hout⟩
  · refine ⟨.ok (some values.length), expires', ?_, Or.inl ⟨rfl, hin⟩⟩
    have hscript : appendScript (buffer.key name) bytes (millis buffer.ttl) server =
        (.ok values.length, _) := Command.bind_of_ok hadd
    rw [Command.bind_of_ok hscript]
    simp
  · refine ⟨.error error, expires', ?_, Or.inr ⟨⟨error, rfl⟩, hout⟩⟩
    have hscript : appendScript (buffer.key name) bytes (millis buffer.ttl) server =
        (.error error, _) := Command.bind_of_error hadd
    rw [Command.bind_of_error hscript]

theorem finish_of_open : ∃ result expires', buffer.finish name server =
    (result, server.put (buffer.key name) (streamOf (bufferFields values true) expires')) := by
  obtain ⟨result, expires', hadd, hresult⟩ :=
    addEntry_of_open h lastField_open [(StreamBuffer.endField, [])] (millis_pos buffer.ttl)
  rw [bufferFields_finish] at hadd
  unfold StreamBuffer.finish
  rcases hresult with ⟨rfl, -⟩ | ⟨⟨error, rfl⟩, -⟩
  · have hscript : finishScript (buffer.key name) (millis buffer.ttl) server = (.ok 1, _) :=
      Command.bind_of_ok hadd
    exact ⟨_, expires', Command.bind_of_ok hscript⟩
  · have hscript : finishScript (buffer.key name) (millis buffer.ttl) server = (.error error, _) :=
      Command.bind_of_error hadd
    exact ⟨_, expires', Command.bind_of_error hscript⟩

end Open

section Finished

variable (h : server.db (buffer.key name) = streamOf (bufferFields values true) expires)
include h

theorem append_of_finished (body : B) : buffer.append name body server =
    ((buffer.codec.serialize body).map fun _ => none, server) := by
  unfold StreamBuffer.append
  cases hb : buffer.codec.serialize body with
  | error error => rfl
  | ok bytes =>
    have hscript : appendScript (buffer.key name) bytes (millis buffer.ttl) server = (.ok (-1), server) :=
      Command.bind_of_ok (addEntry_of_ended h lastField_finished _ _)
    rw [Command.bind_of_ok (Command.ofResult_of_ok rfl), Command.bind_of_ok hscript]
    rfl

theorem finish_of_finished : buffer.finish name server = (.ok false, server) := by
  have hscript : finishScript (buffer.key name) (millis buffer.ttl) server = (.ok 0, server) :=
    Command.bind_of_ok (addEntry_of_ended h lastField_finished _ _)
  unfold StreamBuffer.finish
  rw [Command.bind_of_ok hscript]
  rfl

end Finished

end Writers

/-! ### What a cursor hands out -/

/-- A cursor that has handed out the entries before index `j` of numbered entries, or started there: it
may have read some of the others. -/
def Reads (fields : List (List (Bytes × Bytes))) (cursor : StreamCursor) (j : ℕ) : Prop :=
  ∃ k, cursor.after = ⟨0, k⟩ ∧ j ≤ k ∧ (j = k ∨ k ≤ fields.length) ∧
    cursor.pending = (((numbered fields).take k).drop j).map entryOf

section Reads

variable {fields : List (List (Bytes × Bytes))} {cursor : StreamCursor} {j : ℕ}

theorem reads_new (fields : List (List (Bytes × Bytes))) (key : Bytes) (start : ℕ) :
    Reads fields (.new key ⟨0, start⟩) start := by
  refine ⟨start, rfl, Nat.le_refl _, Or.inl rfl, ?_⟩
  rw [List.drop_eq_nil_of_le (List.length_take_le _ _)]
  rfl

/-- What is added does not change what was read. -/
theorem Reads.snoc (h : Reads fields cursor j) (pairs : List (Bytes × Bytes)) :
    Reads (fields ++ [pairs]) cursor j := by
  obtain ⟨k, hafter, hle, hk, hpending⟩ := h
  refine ⟨k, hafter, hle, hk.imp_right fun hk => ?_, ?_⟩
  · rw [List.length_append]
    omega
  · rw [hpending, numbered_append]
    rcases hk with rfl | hk
    · rw [List.drop_eq_nil_of_le (List.length_take_le _ _), List.drop_eq_nil_of_le (List.length_take_le _ _)]
    · rw [List.take_append_of_le_length (by rw [length_numbered]; exact hk)]

/-- Behind the last entry nothing is read ahead. -/
theorem Reads.pending_of_le (h : Reads fields cursor j) (hj : fields.length ≤ j) : cursor.pending = [] := by
  obtain ⟨k, -, hle, hk, hpending⟩ := h
  rw [hpending, List.drop_eq_nil_of_le]
  · rfl
  · rw [List.length_take, length_numbered]
    omega

variable (protocol : Protocol) {batch now block : ℕ} {keys : Keyspace}
  (hs : streamAt cursor.key keys = (.ok (numberedStream fields), keys)) (h : Reads fields cursor j)
include hs h

/-- **The entry at the index comes out.** -/
theorem Reads.next_of_some (hbatch : 0 < batch) (hsmall : fields.length < 2 ^ 64)
    (hblock : cursor.pending = [] → ¬ blockRefused now block)
    {pairs : List (Bytes × Bytes)} (hj : fields[j]? = some pairs) : ∃ cursor',
      cursor.next protocol batch now block keys = (.ok (some (entryOf ⟨⟨0, j + 1⟩, pairs⟩), cursor'), keys) ∧
      cursor'.key = cursor.key ∧ Reads fields cursor' (j + 1) := by
  obtain ⟨k, hafter, hle, hk, hpending⟩ := h
  obtain ⟨hlt, hget⟩ := List.getElem?_eq_some_iff.mp hj
  have hentry : (numbered fields)[j]? = some ⟨⟨0, j + 1⟩, pairs⟩ := by
    rw [getElem?_numbered, hj]
    rfl
  by_cases hjk : j = k
  · -- nothing is read ahead, so a batch is read
    subst hjk
    have hnil : cursor.pending = [] := by
      rw [hpending, List.drop_eq_nil_of_le (List.length_take_le _ _)]
      rfl
    have hrest : Stream.after (numberedStream fields) cursor.after = (numbered fields).drop j := by
      rw [hafter, after_numbered]
    have hparse : ∀ entry ∈ (numberedStream fields).entries, Parsable entry := by
      intro entry he
      obtain ⟨i, hi, rfl⟩ := List.mem_iff_getElem.mp he
      have hi' : i < fields.length := by rwa [← length_numbered]
      have hid : (numbered fields)[i] = ⟨⟨0, i + 1⟩, fields[i]⟩ := List.getElem_mapIdx
      show Parsable ((numbered fields)[i])
      rw [hid]
      exact ⟨Nat.two_pow_pos 64, show i + 1 < 2 ^ 64 by omega⟩
    obtain ⟨entry, rest, htake, hnext⟩ := next_of_cons protocol hnil hs (hblock hnil) hbatch hparse (by
      rw [hrest, Ne, List.drop_eq_nil_iff, length_numbered]
      omega)
    rw [hrest, List.take_drop] at htake
    have hall : (numbered fields).take (j + batch) =
        (numbered fields).take (min (j + batch) fields.length) := by
      rw [List.take_eq_take_iff, length_numbered]
      omega
    rw [hall] at htake
    generalize hk' : min (j + batch) fields.length = k' at htake
    have hcons := drop_take_numbered hj (k := k') (by omega)
    rw [htake] at hcons
    obtain ⟨rfl, rfl⟩ := List.cons.inj hcons
    refine ⟨_, hnext, rfl, k', ?_, by omega, Or.inr (by omega), rfl⟩
    have hlast : (((numbered fields).take k').drop j).getLast?.map StreamEntry.id = some ⟨0, k'⟩ :=
      getLast?_numbered_take (by omega) (by omega)
    rw [htake, List.getLast?_eq_getLast_of_ne_nil (List.cons_ne_nil _ _)] at hlast
    exact congrArg (fun id : StreamId => (⟨id.ms, id.seq⟩ : EntryId)) (Option.some.inj hlast)
  · have hcons := drop_take_numbered hj (k := k) (by omega)
    rw [hcons, List.map_cons] at hpending
    exact ⟨_, next_of_pending protocol batch now block hpending, rfl, k, hafter, by omega, by omega, rfl⟩

/-- Behind the last entry there is nothing. -/
theorem Reads.next_of_none (batch : ℕ) (hj : fields.length ≤ j) (hblock : ¬ blockRefused now block) :
    cursor.next protocol batch now block keys = (.ok (none, cursor), keys) := by
  have hnil := h.pending_of_le hj
  obtain ⟨k, hafter, hle, hk, hpending⟩ := h
  refine next_of_nil protocol hnil hs hblock ?_
  rw [hafter, after_numbered, List.drop_eq_nil_iff, length_numbered]
  omega

end Reads

/-! ### What a subscription does -/

section Subscription

variable {values : List Bytes} {finished : Bool} {expires : Option ℕ} {codec : Codec B} {server : Server}
  {subscription : StreamBufferSubscription} {j : ℕ}

theorem streamAt_of_streamOf {key : Bytes} {fields : List (List (Bytes × Bytes))}
    (h : server.db key = streamOf fields expires) :
    streamAt key server.keys = (.ok (numberedStream fields), server.keys) := by
  by_cases hne : fields = []
  · subst hne
    exact streamAt_of_none (keys_of_nil h)
  · exact streamAt_of_stream (keys_of_streamOf h hne)

theorem parse_body (id : StreamId) (bytes : Bytes) :
    StreamBufferItem.parse codec (entryOf ⟨id, [(StreamBuffer.bodyField, bytes)]⟩) =
      (codec.deserialize bytes).map .body := by
  unfold StreamBufferItem.parse
  rw [get_entryOf, List.findSome?_cons, if_pos rfl]

theorem parse_end (id : StreamId) :
    StreamBufferItem.parse codec (entryOf ⟨id, [(StreamBuffer.endField, [])]⟩) = .ok .ended := by
  have hne : StreamBuffer.endField ≠ StreamBuffer.bodyField := by decide
  unfold StreamBufferItem.parse
  rw [get_entryOf, get_entryOf, List.findSome?_cons, if_neg hne, List.findSome?_cons, if_pos rfl]
  rfl

theorem read_of_ended (protocol : Protocol) (batch : ℕ) (h : subscription.ended = true) :
    subscription.read codec protocol batch server = (.ok (.output (.ok none), subscription), server) := by
  unfold StreamBufferSubscription.read
  rw [if_pos h]
  rfl

/-- A read that Redis refuses fails and changes nothing. -/
theorem read_of_refused (codec : Codec B) (protocol : Protocol) (batch : ℕ) (h : subscription.Refused server.now) :
    ∃ error, subscription.read codec protocol batch server = (.error (.server error), server) := by
  obtain ⟨error, hnext⟩ := next_of_refused server.keys protocol batch h.2.1 h.2.2
  refine ⟨error, ?_⟩
  unfold StreamBufferSubscription.read
  rw [if_neg (by simp [h.1])]
  exact Command.bind_of_error (execAt_of_read hnext)

section Open

variable (hopen : subscription.ended = false)
  (h : server.db subscription.cursor.key = streamOf (bufferFields values finished) expires)
  (hr : Reads (bufferFields values finished) subscription.cursor j)
  (hblock : ¬ subscription.Refused server.now) (protocol : Protocol) {batch : ℕ}
include hopen h hr hblock

/-- **The body at the index comes out.** -/
theorem read_of_body (hbatch : 0 < batch) (hsmall : values.length + 1 < 2 ^ 64) {bytes : Bytes} {body : B}
    (hj : values[j]? = some bytes) (hbody : codec.deserialize bytes = .ok body) : ∃ cursor,
      subscription.read codec protocol batch server =
        (.ok (.output (.ok (some body)), { subscription with cursor }), server) ∧
      cursor.key = subscription.cursor.key ∧ Reads (bufferFields values finished) cursor (j + 1) := by
  have hlen := length_bufferFields_le values finished
  obtain ⟨cursor, hnext, hkey, hr'⟩ := hr.next_of_some protocol (streamAt_of_streamOf h) hbatch (by omega)
    (fun hp hb => hblock ⟨hopen, hp, hb⟩) (bufferFields_body hj finished)
  refine ⟨cursor, ?_, hkey, hr'⟩
  unfold StreamBufferSubscription.read
  rw [if_neg (by simp [hopen])]
  refine Eq.trans (Command.bind_of_ok (execAt_of_read hnext)) ?_
  simp only [parse_body, hbody]
  rfl

/-- The end comes after the last body. -/
theorem read_of_end (hbatch : 0 < batch) (hsmall : values.length + 1 < 2 ^ 64) (hfinished : finished = true)
    (hj : j = values.length) : ∃ cursor, subscription.read codec protocol batch server =
      (.ok (.output (.ok none), { subscription with cursor, ended := true }), server) ∧
      cursor.key = subscription.cursor.key := by
  subst hfinished hj
  have hlen := length_bufferFields_le values true
  obtain ⟨cursor, hnext, hkey, -⟩ := hr.next_of_some protocol (streamAt_of_streamOf h) hbatch (by omega)
    (fun hp hb => hblock ⟨hopen, hp, hb⟩) bufferFields_end
  refine ⟨cursor, ?_, hkey⟩
  unfold StreamBufferSubscription.read
  rw [if_neg (by simp [hopen])]
  refine Eq.trans (Command.bind_of_ok (execAt_of_read hnext)) ?_
  simp only [parse_end]
  rfl

/-- Behind the last entry the wait times out. -/
theorem read_of_none (hj : (bufferFields values finished).length ≤ j) :
    subscription.read codec protocol batch server = (.ok (.check, subscription), server) := by
  have hnil := hr.pending_of_le hj
  have hnext := hr.next_of_none protocol (streamAt_of_streamOf h) batch hj
    fun hb => hblock ⟨hopen, hnil, hb⟩
  unfold StreamBufferSubscription.read
  rw [if_neg (by simp [hopen])]
  refine Eq.trans (Command.bind_of_ok (execAt_of_read hnext)) ?_
  rfl

end Open

theorem check_of_some (h : (server.db subscription.cursor.key).isSome) :
    subscription.check (B := B) server = (.ok (.read, subscription), server) := by
  unfold StreamBufferSubscription.check
  rw [Command.bind_of_ok keyExists_apply, if_pos h]
  rfl

theorem check_of_none (h : server.db subscription.cursor.key = none) :
    subscription.check (B := B) server =
      (.ok (.output (.error goneBuffer), { subscription with ended := true }), server) := by
  unfold StreamBufferSubscription.check
  rw [Command.bind_of_ok keyExists_apply, if_neg (by simp [h])]
  rfl

end Subscription

end Wakuwaku.Entity.Redis.Dynamic
