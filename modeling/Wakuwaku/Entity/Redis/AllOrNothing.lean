import Wakuwaku.Entity.Redis.Collection.Lock.Numbers
import Wakuwaku.Entity.Redis.Dynamic.StreamBuffer

/-! # Writes that restart a TTL

Redis keeps what a script wrote before it failed, and four scripts write before they restart a TTL. A
query that fails leaves the keys as they were iff it does not come to a TTL that Redis refuses with
something written (`allOrNothing_iff`). -/

namespace Wakuwaku.Entity.Redis

open Wakuwaku.Redis Wakuwaku.Entity.Redis.Collection Wakuwaku.Entity.Redis.Dynamic

variable {α β B : Type} {server : Server}

/-! ### Failures -/

/-- If the command fails, the keys are as before. -/
def AllOrNothing (command : Command α) (server : Server) : Prop :=
  ∀ error, (command server).1 = .error error → (command server).2.db = server.db

section AllOrNothing

variable {command : Command α} {server' : Server}

theorem allOrNothing_of_ok {a : α} (h : command server = (.ok a, server')) : AllOrNothing command server := by
  intro error he
  rw [h] at he
  cases he

theorem allOrNothing_of_same {result : Except Error α} (h : command server = (result, server)) :
    AllOrNothing command server := fun _ _ => by rw [h]

theorem allOrNothing_of_error {error : Error} (h : command server = (.error error, server')) :
    AllOrNothing command server ↔ server'.db = server.db := by
  unfold AllOrNothing
  rw [h]
  exact ⟨fun hall => hall error rfl, fun hdb _ _ => hdb⟩

theorem allOrNothing_congr {command' : Command α} (h : command server = command' server) :
    AllOrNothing command server ↔ AllOrNothing command' server := by
  unfold AllOrNothing
  rw [h]

/-- What is made of the output does not matter. -/
theorem allOrNothing_bind {f : α → Command β} (hf : ∀ a server', ∃ b, f a server' = (.ok b, server')) :
    AllOrNothing (command >>= f) server ↔ AllOrNothing command server := by
  rcases hc : command server with ⟨error | a, server'⟩
  · rw [allOrNothing_of_error hc, allOrNothing_of_error (Command.bind_of_error hc)]
  · obtain ⟨b, hb⟩ := hf a server'
    exact iff_of_true (allOrNothing_of_ok ((Command.bind_of_ok hc).trans hb)) (allOrNothing_of_ok hc)

theorem put_db_eq {key : Bytes} {stored : Option Stored} :
    (server.put key stored).db = server.db ↔ stored = server.db key := by
  constructor
  · intro h
    rw [← h, Server.db_put_self]
  · rintro rfl
    rw [Server.put_db]

end AllOrNothing

/-! ### Entries -/

/-- The script adds an entry to what is stored: a stream that is not ended, or nothing. -/
def TakesEntry (server : Server) (key : Bytes) : Prop :=
  ∃ stream, streamAt key server.keys = (.ok stream, server.keys) ∧
    (stream.entries.getLast?.bind fun entry => entry.fields.head?.map Prod.fst) ≠ some StreamBuffer.endField ∧
    stream.lastId.lt ⟨0, stream.entries.length + 1⟩

section Entries

variable {key : Bytes} {stream : Stream} {fields : List (Bytes × Bytes)} {ttl : ℕ}

theorem exists_streamAt (key : Bytes) (keys : Keyspace) :
    (∃ stream, streamAt key keys = (.ok stream, keys)) ∨ streamAt key keys = (.error wrongType, keys) := by
  unfold streamAt
  split
  · exact Or.inl ⟨_, rfl⟩
  · exact Or.inl ⟨_, rfl⟩
  · exact Or.inr rfl

theorem xrevrangeLast_of_streamAt (h : streamAt key server.keys = (.ok stream, server.keys)) :
    exec (xrevrangeLast key) server = (.ok stream.entries.getLast?, server) :=
  exec_of_read (Wakuwaku.Redis.bind_of_ok h)

theorem xlen_of_streamAt (h : streamAt key server.keys = (.ok stream, server.keys)) :
    exec (xlen key) server = (.ok stream.entries.length, server) :=
  exec_of_read (Wakuwaku.Redis.bind_of_ok h)

/-- The server with one more entry in the stream. -/
def pushEntry (server : Server) (key : Bytes) (stream : Stream) (fields : List (Bytes × Bytes)) : Server :=
  server.put key (some ⟨.stream ⟨stream.entries ++ [⟨⟨0, stream.entries.length + 1⟩, fields⟩],
    ⟨0, stream.entries.length + 1⟩⟩, (server.db key).bind Stored.expires⟩)

theorem db_pushEntry_ne (h : streamAt key server.keys = (.ok stream, server.keys)) :
    (pushEntry server key stream fields).db ≠ server.db := by
  intro he
  have hstored := put_db_eq.mp he
  have hkeys : server.keys key = some (.stream ⟨stream.entries ++ [⟨⟨0, stream.entries.length + 1⟩, fields⟩],
      ⟨0, stream.entries.length + 1⟩⟩) := by
    unfold Server.keys
    rw [← hstored]
    rfl
  have hstream := Except.ok.inj (Prod.mk.inj ((streamAt_of_stream hkeys).symm.trans h)).1
  have hlen := congrArg (fun stream : Stream => stream.entries.length) hstream
  simp at hlen

theorem xadd_of_lt (fields : List (Bytes × Bytes)) (h : streamAt key server.keys = (.ok stream, server.keys))
    (hlt : stream.lastId.lt ⟨0, stream.entries.length + 1⟩) :
    exec (xadd key (asBytes "0-" ++ decimal (stream.entries.length + 1)) fields) server =
      (.ok (), pushEntry server key stream fields) := by
  refine exec_of_put ?_
  rw [text_index, xadd, Wakuwaku.Redis.bind_of_ok h, Wakuwaku.Redis.parse_text]
  simp only [if_pos hlt]
  rfl

theorem xadd_of_not_lt (fields : List (Bytes × Bytes)) (h : streamAt key server.keys = (.ok stream, server.keys))
    (hlt : ¬ stream.lastId.lt ⟨0, stream.entries.length + 1⟩) : ∃ error,
    exec (xadd key (asBytes "0-" ++ decimal (stream.entries.length + 1)) fields) server =
      (.error error, server) := by
  have hadd : ∃ error, xadd key (asBytes "0-" ++ decimal (stream.entries.length + 1)) fields server.keys =
      (.error error, server.keys) := by
    rw [text_index, xadd, Wakuwaku.Redis.bind_of_ok h, Wakuwaku.Redis.parse_text]
    simp only [if_neg hlt]
    exact ⟨_, rfl⟩
  exact hadd.imp fun error he => exec_of_read he

/-- The script comes to the TTL with the entry in the stream. -/
theorem addEntry_of_lt (ttl : ℕ) (fields : List (Bytes × Bytes))
    (h : streamAt key server.keys = (.ok stream, server.keys))
    (hlast : (stream.entries.getLast?.bind fun entry => entry.fields.head?.map Prod.fst) ≠
      some StreamBuffer.endField) (hlt : stream.lastId.lt ⟨0, stream.entries.length + 1⟩) :
    addEntry key fields ttl server =
      (do let _ ← pexpire key ttl; return some stream.entries.length : Command (Option ℕ))
        (pushEntry server key stream fields) := by
  rw [addEntry, Command.bind_of_ok (xrevrangeLast_of_streamAt h), if_neg hlast,
    Command.bind_of_ok (xlen_of_streamAt h)]
  exact Command.bind_of_ok (xadd_of_lt fields h hlt)

theorem addEntry_of_not_takesEntry (ttl : ℕ) (fields : List (Bytes × Bytes)) (h : ¬ TakesEntry server key) :
    ∃ result, addEntry key fields ttl server = (result, server) := by
  rcases exists_streamAt key server.keys with ⟨stream, hstream⟩ | herror
  · rw [addEntry, Command.bind_of_ok (xrevrangeLast_of_streamAt hstream)]
    by_cases hlast : (stream.entries.getLast?.bind fun entry => entry.fields.head?.map Prod.fst) =
        some StreamBuffer.endField
    · rw [if_pos hlast]
      exact ⟨_, rfl⟩
    · obtain ⟨error, hadd⟩ := xadd_of_not_lt fields hstream fun hlt => h ⟨stream, hstream, hlast, hlt⟩
      rw [if_neg hlast, Command.bind_of_ok (xlen_of_streamAt hstream)]
      exact ⟨_, Command.bind_of_error hadd⟩
  · have hlast : exec (xrevrangeLast key) server = (.error wrongType, server) :=
      exec_of_read (Wakuwaku.Redis.bind_of_error herror)
    exact ⟨_, Command.bind_of_error hlast⟩

theorem addEntry_iff (fields : List (Bytes × Bytes)) : AllOrNothing (addEntry key fields ttl) server ↔
    (TakesEntry server key → ¬ outOfRange server.now ttl) := by
  by_cases h : TakesEntry server key
  · obtain ⟨stream, hstream, hlast, hlt⟩ := id h
    have hadd := addEntry_of_lt ttl fields hstream hlast hlt
    rw [imp_iff_right h]
    by_cases hout : outOfRange server.now ttl
    · have hexpire : ∃ error, pexpire key ttl (pushEntry server key stream fields) = (.error error, _) :=
        pexpire_of_out key hout
      obtain ⟨error, hexpire⟩ := hexpire
      rw [allOrNothing_of_error (hadd.trans (Command.bind_of_error hexpire))]
      exact iff_of_false (db_pushEntry_ne hstream) fun hin => hin hout
    · have hexpire : ∃ n server', pexpire key ttl (pushEntry server key stream fields) = (.ok n, server') :=
        pexpire_of_in key hout
      obtain ⟨n, server', hexpire⟩ := hexpire
      exact iff_of_true (allOrNothing_of_ok (hadd.trans (Command.bind_of_ok hexpire))) hout
  · obtain ⟨result, hadd⟩ := addEntry_of_not_takesEntry ttl fields h
    exact iff_of_true (allOrNothing_of_same hadd) fun htakes => absurd htakes h

end Entries

/-! ### Readers -/

section Readers

variable (numbers : LuaNumbers) {writer readers token : Bytes} {ttl : ℕ}

/-- The end of a script that has put `stored` at a key. -/
theorem outlive_iff {stored : Stored} {command : Command ℕ} (h : command server =
      (do outlive numbers readers (numbers.number ttl); return 1 : Command ℕ) (server.put readers (some stored))) :
    AllOrNothing command server ↔
      (RestartRefused numbers server.now stored.expires ttl → some stored = server.db readers) := by
  by_cases hr : RestartRefused numbers server.now stored.expires ttl
  · obtain ⟨error, he⟩ := outlive_of_refused numbers (Server.db_put_self server readers (some stored)) hr
    rw [allOrNothing_of_error (h.trans (Command.bind_of_error he)), imp_iff_right hr]
    exact put_db_eq
  · obtain ⟨server', he⟩ := outlive_of_accepted numbers (Server.db_put_self server readers (some stored)) hr
    exact iff_of_true (allOrNothing_of_ok (h.trans (Command.bind_of_ok he))) fun hrefused => absurd hrefused hr

theorem readAcquireScript_iff : AllOrNothing (readAcquireScript numbers writer readers token ttl) server ↔
    (server.db writer = none → ∀ members expires, sortedSetOf (server.db readers) = some (members, expires) →
      RestartRefused numbers server.now (entered numbers server.now ttl token members expires).expires ttl →
      some (entered numbers server.now ttl token members expires) = server.db readers) := by
  cases hw : server.db writer with
  | some stored => exact iff_of_true (allOrNothing_of_ok (readAcquireScript_of_some hw)) nofun
  | none =>
    cases hr : sortedSetOf (server.db readers) with
    | none => exact iff_of_true (allOrNothing_of_same (readAcquireScript_of_wrongType numbers hw hr)) nofun
    | some pair =>
      obtain ⟨members, expires⟩ := pair
      rw [outlive_iff numbers (readAcquireScript_of_set numbers hw hr)]
      constructor
      · rintro h - _ _ ⟨⟩
        exact h
      · exact fun h => h rfl members expires rfl

theorem readExtendScript_iff : AllOrNothing (readExtendScript numbers readers token ttl) server ↔
    (∀ members expires, sortedSetOf (server.db readers) = some (members, expires) →
      runningLease server.now token members = true → RestartRefused numbers server.now expires ttl →
      some (renewed numbers server.now ttl token members expires) = server.db readers) := by
  cases hr : sortedSetOf (server.db readers) with
  | none => exact iff_of_true (allOrNothing_of_same (readExtendScript_of_wrongType numbers hr)) nofun
  | some pair =>
    obtain ⟨members, expires⟩ := pair
    cases hrun : runningLease server.now token members with
    | false =>
      obtain ⟨server', he⟩ := readExtendScript_of_over numbers ttl hr hrun
      refine iff_of_true (allOrNothing_of_ok he) ?_
      rintro _ _ ⟨⟩ htrue
      rw [hrun] at htrue
      cases htrue
    | true =>
      rw [outlive_iff numbers (readExtendScript_of_running numbers hr hrun)]
      constructor
      · rintro h _ _ ⟨⟩ -
        exact h
      · exact fun h => h members expires rfl hrun

end Readers

/-! ### The result -/

/-- The queries that write before they restart a TTL. -/
inductive Expiring (B : Type) where
  | append (buffer : StreamBuffer B) (name : Bytes) (body : B)
  | finish (buffer : StreamBuffer B) (name : Bytes)
  | tryRead (lock : RwLock) (name token : Bytes)
  | extend (held : ReadToken)

namespace Expiring

/-- The query, without its output. -/
def exec (numbers : LuaNumbers) : Expiring B → Command Unit
  | append buffer name body => do let _ ← buffer.append name body; return ()
  | finish buffer name => do let _ ← buffer.finish name; return ()
  | tryRead lock name token => do let _ ← lock.tryRead numbers name token; return ()
  | extend held => do let _ ← held.extend numbers; return ()

def ttl : Expiring B → ℕ
  | append buffer _ _ | finish buffer _ => buffer.ttl
  | tryRead lock _ _ => lock.ttl
  | extend held => held.ttl

/-- The query does not come to a TTL that is refused with something written. -/
def Restarts (numbers : LuaNumbers) (server : Server) : Expiring B → Prop
  | append buffer name body => (buffer.codec.serialize body).toOption.isSome →
    TakesEntry server (buffer.key name) → ¬ outOfRange server.now (millis buffer.ttl)
  | finish buffer name => TakesEntry server (buffer.key name) → ¬ outOfRange server.now (millis buffer.ttl)
  | tryRead lock name token => server.db (lock.keys name).1 = none → ∀ members expires,
    sortedSetOf (server.db (lock.keys name).2) = some (members, expires) →
    RestartRefused numbers server.now
      (entered numbers server.now (millis lock.ttl) token members expires).expires (millis lock.ttl) →
    some (entered numbers server.now (millis lock.ttl) token members expires) = server.db (lock.keys name).2
  | extend held => ∀ members expires, sortedSetOf (server.db held.key) = some (members, expires) →
    runningLease server.now held.token members = true →
    RestartRefused numbers server.now expires (millis held.ttl) →
    some (renewed numbers server.now (millis held.ttl) held.token members expires) = server.db held.key

end Expiring

theorem append_iff (buffer : StreamBuffer B) (name : Bytes) (body : B) :
    AllOrNothing (buffer.append name body) server ↔ ((buffer.codec.serialize body).toOption.isSome →
      TakesEntry server (buffer.key name) → ¬ outOfRange server.now (millis buffer.ttl)) := by
  cases hb : buffer.codec.serialize body with
  | error error =>
    have he : buffer.append name body server = (.error error, server) := by
      unfold StreamBuffer.append
      rw [hb]
      rfl
    exact iff_of_true (allOrNothing_of_same he) nofun
  | ok bytes =>
    have happend : buffer.append name body server = (do
        let index ← appendScript (buffer.key name) bytes (millis buffer.ttl)
        return if 0 ≤ index then some index.toNat else none : Command (Option ℕ)) server :=
      Command.bind_of_ok (Command.ofResult_of_ok hb)
    have hscript : AllOrNothing (appendScript (buffer.key name) bytes (millis buffer.ttl)) server ↔
        (TakesEntry server (buffer.key name) → ¬ outOfRange server.now (millis buffer.ttl)) := by
      refine (allOrNothing_bind fun index _ => ?_).trans (addEntry_iff [(StreamBuffer.bodyField, bytes)])
      cases index <;> exact ⟨_, rfl⟩
    rw [allOrNothing_congr happend]
    exact (allOrNothing_bind fun _ _ => ⟨_, rfl⟩).trans (hscript.trans (imp_iff_right rfl).symm)

theorem finish_iff (buffer : StreamBuffer B) (name : Bytes) : AllOrNothing (buffer.finish name) server ↔
    (TakesEntry server (buffer.key name) → ¬ outOfRange server.now (millis buffer.ttl)) := by
  refine (allOrNothing_bind fun _ _ => ⟨_, rfl⟩).trans ((allOrNothing_bind fun index _ => ?_).trans
    (addEntry_iff [(StreamBuffer.endField, [])]))
  cases index <;> exact ⟨_, rfl⟩

/-- A query leaves the keys as they were, if it fails, iff it does not come to a TTL that Redis refuses with
something written. -/
theorem allOrNothing_iff (numbers : LuaNumbers) (query : Expiring B) (server : Server) :
    AllOrNothing (query.exec numbers) server ↔ query.Restarts numbers server := by
  cases query with
  | append buffer name body =>
    exact (allOrNothing_bind fun _ _ => ⟨_, rfl⟩).trans (append_iff buffer name body)
  | finish buffer name =>
    exact (allOrNothing_bind fun _ _ => ⟨_, rfl⟩).trans (finish_iff buffer name)
  | tryRead lock name token =>
    exact (allOrNothing_bind fun _ _ => ⟨_, rfl⟩).trans
      ((allOrNothing_bind fun _ _ => ⟨_, rfl⟩).trans (readAcquireScript_iff numbers))
  | extend held =>
    exact (allOrNothing_bind fun _ _ => ⟨_, rfl⟩).trans
      ((allOrNothing_bind fun _ _ => ⟨_, rfl⟩).trans (readExtendScript_iff numbers))

theorem not_restartRefused (numbers : LuaNumbers) {now ttl : ℕ} (h : now + ttl < 2 ^ 53) (expires : Option ℕ) :
    ¬ RestartRefused numbers now expires ttl := by
  rintro ⟨-, hrefused⟩
  rw [numbers.number_exact ttl (by omega), numbers.text_exact ttl (by omega),
    expiryRefused_decimal (by omega), outOfRange] at hrefused
  omega

/-- A TTL that ends below 2^53 is never refused. -/
theorem Expiring.restarts_of_lt (numbers : LuaNumbers) (query : Expiring B)
    (h : server.now + millis query.ttl < 2 ^ 53) : query.Restarts numbers server := by
  have hin : ¬ outOfRange server.now (millis query.ttl) := by
    unfold outOfRange
    omega
  cases query with
  | append buffer name body => exact fun _ _ => hin
  | finish buffer name => exact fun _ => hin
  | tryRead lock name token => exact fun _ _ _ _ hrefused => absurd hrefused (not_restartRefused numbers h _)
  | extend held => exact fun _ _ _ _ hrefused => absurd hrefused (not_restartRefused numbers h _)

/-- Buffers of bytes that are to be kept for the longest duration. -/
def keptBuffer : StreamBuffer Bytes := ⟨"kept", 2 ^ 64 * 10 ^ 9 - 1, ⟨.ok, .ok⟩⟩

/-- **An append that fails leaves its body behind.** -/
theorem append_half_done :
    (∃ error, ((Expiring.append keptBuffer [] [7]).exec .exact ⟨0, fun _ => none⟩).1 = .error error) ∧
      ¬ AllOrNothing ((Expiring.append keptBuffer [] [7]).exec .exact) ⟨0, fun _ => none⟩ := by
  refine ⟨⟨_, rfl⟩, fun h => ?_⟩
  have hdb := congrFun (h _ rfl) (keptBuffer.key [])
  cases hdb

end Wakuwaku.Entity.Redis
