import Wakuwaku.Entity.Redis.Collection.Cache

/-! # Caches are registers

Any number of clients read, put and remove one item while time passes and its key expires. The queries
answer as a register of bodies would (`cache_register`, `hashedCache_register`), so every read gets the
body that was put last, while it lives. A reader that keeps a copy and checks it by its hash has, after each
check, the body that is stored (`reader_fresh`). -/

namespace Wakuwaku.Entity.Redis

open Wakuwaku.Redis

variable {B : Type}

/-! ### The queries of a cache -/

/-- A query, on a cache with a TTL. -/
inductive CacheOp (B : Type) where
  | get
  | put (ttl : ℕ) (body : B)
  | remove

inductive CacheAnswer (B : Type) where
  | found (body : Option B)
  | stored
  | removed (present : Bool)

namespace CacheOp

def exec (codec : Codec B) (space : String) (name : Bytes) : CacheOp B → Command (CacheAnswer B)
  | .get => do return .found (← Cache.get ⟨space, 0⟩ codec name)
  | .put ttl body => do
    Cache.put ⟨space, ttl⟩ codec name body
    return .stored
  | .remove => do return .removed (← Cache.remove ⟨space, 0⟩ name)

/-- Redis accepts the TTL. -/
def InRange (now : ℕ) : CacheOp B → Prop
  | .put ttl _ => now + millis ttl < 2 ^ 63
  | _ => True

/-- The answer for what the register holds. -/
def answer (codec : Codec B) : CacheOp B → Option (Stocked codec) → Except Error (CacheAnswer B)
  | .get, held => .ok (.found (held.map Stocked.body))
  | .put _ body, _ => (codec.serialize body).map fun _ => .stored
  | .remove, held => .ok (.removed held.isSome)

/-- The register with a body, if it can be written. -/
def stock (codec : Codec B) (ttl : ℕ) (body : B) (now : ℕ) (register : Register (Stocked codec)) :
    Register (Stocked codec) :=
  match Stocked.of? codec body with
  | some stocked => some (stocked, now + millis ttl)
  | none => register

/-- The register after the query. -/
def after (codec : Codec B) : CacheOp B → ℕ → Register (Stocked codec) → Register (Stocked codec)
  | .get, _, register => register
  | .put ttl body, now, register => stock codec ttl body now register
  | .remove, _, _ => none

/-- The queries of a cache, and of a register of bodies. -/
def queries (codec : Codec B) (space : String) (name : Bytes) :
    Register.Queries (Stocked codec) (CacheOp B) (CacheAnswer B) where
  exec := exec codec space name
  Allowed := InRange
  answer := answer codec
  after := after codec

end CacheOp

variable {codec : Codec B} {server : Server} {register : Register (Stocked codec)} {body : B}

theorem stock_of_some {stocked : Stocked codec} (ttl now : ℕ) (h : Stocked.of? codec body = some stocked) :
    CacheOp.stock codec ttl body now register = some (stocked, now + millis ttl) := by
  unfold CacheOp.stock
  rw [h]

theorem stock_of_none (ttl now : ℕ) (h : Stocked.of? codec body = none) :
    CacheOp.stock codec ttl body now register = register := by
  unfold CacheOp.stock
  rw [h]

theorem CacheOp.sound (hround : codec.RoundTrips) (space : String) (name : Bytes) :
    (CacheOp.queries codec space name).Sound Stocked.item (Cache.key ⟨space, 0⟩ name) := by
  intro op server register h hrange
  cases op with
  | get =>
    have hget : CacheOp.exec codec space name .get server = _ := Command.bind_of_ok (Cache.get_of_at hround h)
    rw [show (CacheOp.queries codec space name).exec .get server = _ from hget]
    exact ⟨rfl, h⟩
  | put ttl body =>
    cases hs : Stocked.of? codec body with
    | none =>
      obtain ⟨error, he⟩ := Stocked.of?_eq_none hs
      have hput : CacheOp.exec codec space name (.put ttl body) server = (.error error, server) :=
        Command.bind_of_error (Cache.put_of_error he)
      rw [show (CacheOp.queries codec space name).exec (.put ttl body) server = _ from hput]
      refine ⟨?_, ?_⟩
      · show _ = (codec.serialize body).map _
        rw [he]
        rfl
      · show Register.At _ _ _ (CacheOp.stock codec ttl body server.now register)
        rw [stock_of_none ttl _ hs]
        exact h
    | some stocked =>
      obtain ⟨-, hb⟩ := Stocked.of?_eq_some hs
      have hput : CacheOp.exec codec space name (.put ttl body) server = _ :=
        Command.bind_of_ok (Cache.put_of_ok ⟨space, ttl⟩ hb hrange)
      rw [show (CacheOp.queries codec space name).exec (.put ttl body) server = _ from hput]
      refine ⟨?_, ?_⟩
      · show _ = (codec.serialize body).map _
        rw [hb]
        rfl
      · show Register.At _ _ _ (CacheOp.stock codec ttl body server.now register)
        rw [stock_of_some ttl _ hs]
        exact Register.at_put Stocked.item _ stocked (Nat.le_add_right _ _)
  | remove =>
    have hremove : CacheOp.exec codec space name .remove server = _ := Command.bind_of_ok (unlinkKey_of_at h)
    rw [show (CacheOp.queries codec space name).exec .remove server = _ from hremove]
    exact ⟨rfl, Register.at_put_none _ _ _⟩

/-- **A cache item is a register.** In every state of a run from an absent key, every query in range gets
the answer of a register that holds the body put last, unless it was removed or its TTL has run out. -/
theorem cache_register (hround : codec.RoundTrips) (space : String) (name : Bytes) {beats : List (Beat (CacheOp B))}
    {s : Server × Register (Stocked codec)} (habsent : server.db (Cache.key ⟨space, 0⟩ name) = none)
    (run : Steps (CacheOp.queries codec space name).Step (server, none) beats s) (op : CacheOp B)
    (hrange : op.InRange s.1.now) :
    (op.exec codec space name s.1).1 = op.answer codec (s.2.read s.1.now) :=
  (CacheOp.sound hround space name op s.1 s.2 ((CacheOp.sound hround space name).run habsent run) hrange).1

/-- Bodies that are bytes. -/
def bytesCodec : Codec Bytes := ⟨.ok, .ok⟩

theorem bytesCodec_roundTrips : bytesCodec.RoundTrips := fun _ _ h => by cases h; rfl

/-- A body that is read 3 ms after it was put for 5 ms. -/
theorem cache_register_abc : ∃ s, Steps (CacheOp.queries bytesCodec "users" [7]).Step (⟨0, fun _ => none⟩, none)
      [.query (.put 5000000 (asBytes "abc")), .pass 3000] s ∧
    (CacheOp.get.exec bytesCodec "users" [7] s.1).1 = .ok (.found (some (asBytes "abc"))) := by
  have hrange : CacheOp.InRange 0 (.put 5000000 (asBytes "abc")) := by
    show 0 + millis 5000000 < 2 ^ 63
    decide
  have hput : (CacheOp.queries bytesCodec "users" [7]).Step (⟨0, fun _ => none⟩, none) _ _ :=
    .query (CacheOp.put 5000000 (asBytes "abc")) hrange
  have run := (Steps.single hput).snoc (.pass 3000 (Nat.zero_le _))
  exact ⟨_, run, cache_register bytesCodec_roundTrips "users" [7] rfl run .get trivial⟩

/-! ### The queries of a hashed cache -/

/-- A query, on a hashed cache with a TTL. -/
inductive HashedOp (B : Type) where
  | get
  | hash
  | getIfChanged (known : Hash)
  | put (ttl : ℕ) (body : B)
  | remove

inductive HashedAnswer (B : Type) where
  | found (hashed : Option (Hashed B))
  | hash (hash : Option Hash)
  | fresh (freshness : Freshness B)
  | stored (hash : Hash)
  | removed (present : Bool)

namespace HashedOp

variable (codec : Codec B) (blake3 : Bytes → Hash)

def exec (space : String) (name : Bytes) : HashedOp B → Command (HashedAnswer B)
  | .get => do return .found (← HashedCache.get ⟨space, 0⟩ codec name)
  | .hash => do return .hash (← HashedCache.hash ⟨space, 0⟩ name)
  | .getIfChanged known => do return .fresh (← HashedCache.getIfChanged ⟨space, 0⟩ codec name known)
  | .put ttl body => do return .stored (← HashedCache.put ⟨space, ttl⟩ codec blake3 name body)
  | .remove => do return .removed (← HashedCache.remove ⟨space, 0⟩ name)

/-- Redis accepts the TTL. -/
def InRange (now : ℕ) : HashedOp B → Prop
  | .put ttl _ => now + millis ttl < 2 ^ 63
  | _ => True

/-- The answer for what the register holds. -/
def answer : HashedOp B → Option (Stocked codec) → Except Error (HashedAnswer B)
  | .get, held => .ok (.found (held.map (Stocked.hashed blake3)))
  | .hash, held => .ok (.hash (held.map fun stocked => blake3 stocked.bytes))
  | .getIfChanged known, held => .ok (.fresh (freshness blake3 known held))
  | .put _ body, _ => (codec.serialize body).map fun bytes => .stored (blake3 bytes)
  | .remove, held => .ok (.removed held.isSome)

/-- The register after the query. -/
def after : HashedOp B → ℕ → Register (Stocked codec) → Register (Stocked codec)
  | .put ttl body, now, register => CacheOp.stock codec ttl body now register
  | .remove, _, _ => none
  | _, _, register => register

/-- The queries of a hashed cache, and of a register of bodies. -/
def queries (space : String) (name : Bytes) : Register.Queries (Stocked codec) (HashedOp B) (HashedAnswer B) where
  exec := exec codec blake3 space name
  Allowed := InRange
  answer := answer codec blake3
  after := after codec

end HashedOp

variable {blake3 : Bytes → Hash}

/-- The result and the next server of a query, from those of its command. -/
theorem sound_of_exec {space : String} {name : Bytes} (op : HashedOp B) {result : Except Error (HashedAnswer B)}
    {server' : Server} (hexec : op.exec codec blake3 space name server = (result, server'))
    (hresult : result = op.answer codec blake3 (register.read server.now))
    (hat : Register.At (Stocked.hashedItem blake3) (HashedCache.key ⟨space, 0⟩ name) server'
      (op.after codec server.now register)) :
    (op.exec codec blake3 space name server).1 = op.answer codec blake3 (register.read server.now) ∧
      Register.At (Stocked.hashedItem blake3) (HashedCache.key ⟨space, 0⟩ name)
        (op.exec codec blake3 space name server).2 (op.after codec server.now register) := by
  rw [hexec]
  exact ⟨hresult, hat⟩

theorem HashedOp.sound (hround : codec.RoundTrips) (space : String) (name : Bytes) :
    (HashedOp.queries codec blake3 space name).Sound (Stocked.hashedItem blake3)
      (HashedCache.key ⟨space, 0⟩ name) := by
  intro op server register h hrange
  cases op with
  | get => exact sound_of_exec _ (Command.bind_of_ok (HashedCache.get_of_at hround h)) rfl h
  | hash => exact sound_of_exec _ (Command.bind_of_ok (HashedCache.hash_of_at h)) rfl h
  | getIfChanged known =>
    exact sound_of_exec _ (Command.bind_of_ok (HashedCache.getIfChanged_of_at hround known h)) rfl h
  | put ttl body =>
    cases hs : Stocked.of? codec body with
    | none =>
      obtain ⟨error, he⟩ := Stocked.of?_eq_none hs
      refine sound_of_exec (.put ttl body) (Command.bind_of_error (HashedCache.put_of_error he)) ?_ ?_
      · show _ = (codec.serialize body).map _
        rw [he]
        rfl
      · show Register.At _ _ _ (CacheOp.stock codec ttl body server.now register)
        rw [stock_of_none ttl _ hs]
        exact h
    | some stocked =>
      obtain ⟨-, hb⟩ := Stocked.of?_eq_some hs
      refine sound_of_exec (.put ttl body)
        (Command.bind_of_ok (HashedCache.put_of_ok ⟨space, ttl⟩ hb hrange h)) ?_ ?_
      · show _ = (codec.serialize body).map _
        rw [hb]
        rfl
      · show Register.At _ _ _ (CacheOp.stock codec ttl body server.now register)
        rw [stock_of_some ttl _ hs]
        exact Register.at_put (Stocked.hashedItem blake3) _ stocked (Nat.le_add_right _ _)
  | remove => exact sound_of_exec _ (Command.bind_of_ok (unlinkKey_of_at h)) rfl (Register.at_put_none _ _ _)

/-- **A hashed cache item is a register**, and its hash is always that of its body. In every state of a run
from an absent key, every query in range gets the answer of a register that holds the body put last, unless
it was removed or its TTL has run out; in particular no query finds a damaged item. -/
theorem hashedCache_register (hround : codec.RoundTrips) (blake3 : Bytes → Hash) (space : String) (name : Bytes)
    {beats : List (Beat (HashedOp B))} {s : Server × Register (Stocked codec)}
    (habsent : server.db (HashedCache.key ⟨space, 0⟩ name) = none)
    (run : Steps (HashedOp.queries codec blake3 space name).Step (server, none) beats s) (op : HashedOp B)
    (hrange : op.InRange s.1.now) :
    (op.exec codec blake3 space name s.1).1 = op.answer codec blake3 (s.2.read s.1.now) :=
  (HashedOp.sound hround space name op s.1 s.2 ((HashedOp.sound hround space name).run habsent run) hrange).1

/-- The BLAKE3 hash of the bytes of `abc`. -/
def abcHash : Hash where
  bytes := [100, 55, 179, 172, 56, 70, 81, 51, 255, 182, 59, 117, 39, 58, 141, 181, 72, 197, 88, 70, 93, 121,
    219, 3, 253, 53, 156, 108, 213, 189, 157, 133]
  size := rfl

/-- A body that a reader with its hash does not get again, 3 ms after it was put for 5 ms. -/
theorem hashedCache_register_abc : ∃ s,
    Steps (HashedOp.queries bytesCodec (fun _ => abcHash) "users" [7]).Step (⟨0, fun _ => none⟩, none)
      [.query (.put 5000000 (asBytes "abc")), .pass 3000] s ∧
    ((HashedOp.getIfChanged abcHash).exec bytesCodec (fun _ => abcHash) "users" [7] s.1).1 =
      .ok (.fresh .unchanged) := by
  have hrange : HashedOp.InRange 0 (.put 5000000 (asBytes "abc")) := by
    show 0 + millis 5000000 < 2 ^ 63
    decide
  have hput : (HashedOp.queries bytesCodec (fun _ => abcHash) "users" [7]).Step (⟨0, fun _ => none⟩, none) _ _ :=
    .query (HashedOp.put 5000000 (asBytes "abc")) hrange
  have run := (Steps.single hput).snoc (.pass 3000 (Nat.zero_le _))
  exact ⟨_, run, hashedCache_register bytesCodec_roundTrips _ "users" [7] rfl run (.getIfChanged abcHash) trivial⟩

/-! ### A reader with a copy -/

/-- Bring a copy up to date: the body goes over the wire only if its hash changed. -/
def HashedCache.refresh (cache : HashedCache) (codec : Codec B) (name : Bytes) :
    Option (Hashed B) → Command (Option (Hashed B))
  | none => cache.get codec name
  | some copy => do
    match ← cache.getIfChanged codec name copy.hash with
    | .missing => return none
    | .unchanged => return some copy
    | .changed hashed => return some hashed

/-- The item with its register, and the copy of a reader. -/
structure Reading (codec : Codec B) where
  item : Server × Register (Stocked codec)
  copy : Option (Hashed B)

inductive ReadingMove (B : Type) where
  | other (beat : Beat (HashedOp B))
  | refresh

/-- Time passes, a client queries, or the reader brings its copy up to date. -/
inductive ReadingStep (codec : Codec B) (blake3 : Bytes → Hash) (space : String) (name : Bytes) :
    Reading codec → ReadingMove B → Reading codec → Prop
  | other {s beat item} (h : (HashedOp.queries codec blake3 space name).Step s.item beat item) :
    ReadingStep codec blake3 space name s (.other beat) { s with item }
  | refresh {s copy server} (h : HashedCache.refresh ⟨space, 0⟩ codec name s.copy s.item.1 = (.ok copy, server)) :
    ReadingStep codec blake3 space name s .refresh ⟨(server, s.item.2), copy⟩

/-- The bytes that some moves put. -/
def putBytes (codec : Codec B) (moves : List (ReadingMove B)) : Set Bytes := fun bytes =>
  ∃ ttl body, ReadingMove.other (.query (.put ttl body)) ∈ moves ∧ codec.serialize body = .ok bytes

/-- The item is the register, and what it holds and the copy were put. -/
structure Reads (codec : Codec B) (blake3 : Bytes → Hash) (key : Bytes) (bodies : Set Bytes) (s : Reading codec) :
    Prop where
  item : Register.At (Stocked.hashedItem blake3) key s.item.1 s.item.2
  stocked : ∀ entry, s.item.2 = some entry → entry.1.bytes ∈ bodies
  copy : ∀ copy, s.copy = some copy → ∃ stocked : Stocked codec, stocked.bytes ∈ bodies ∧
    copy = stocked.hashed blake3

/-- Bytes of one hash are one body. -/
theorem hashed_eq (hround : codec.RoundTrips) {bodies : Set Bytes} (hinj : Set.InjOn blake3 bodies)
    {x y : Stocked codec} (hx : x.bytes ∈ bodies) (hy : y.bytes ∈ bodies) (h : blake3 x.bytes = blake3 y.bytes) :
    x.hashed blake3 = y.hashed blake3 := by
  have hbytes := hinj hx hy h
  have hxb := hround.deserialize x.written
  rw [hbytes, hround.deserialize y.written] at hxb
  unfold Stocked.hashed
  rw [Except.ok.inj hxb, hbytes]

theorem Reads.refresh {space : String} {name : Bytes} (hround : codec.RoundTrips) {bodies : Set Bytes}
    (hinj : Set.InjOn blake3 bodies) {s : Reading codec}
    (h : Reads codec blake3 (HashedCache.key ⟨space, 0⟩ name) bodies s) :
    HashedCache.refresh ⟨space, 0⟩ codec name s.copy s.item.1 =
      (.ok ((s.item.2.read s.item.1.now).map (Stocked.hashed blake3)), s.item.1) := by
  cases hc : s.copy with
  | none => exact HashedCache.get_of_at hround h.item
  | some copy =>
    obtain ⟨stocked, hmem, rfl⟩ := h.copy copy hc
    refine (Command.bind_of_ok (HashedCache.getIfChanged_of_at hround _ h.item)).trans ?_
    cases hr : s.item.2.read s.item.1.now with
    | none => rfl
    | some held =>
      obtain ⟨deadline, he, -⟩ := Register.read_eq_some.mp hr
      simp only [freshness]
      by_cases hhash : blake3 held.bytes = (stocked.hashed blake3).hash
      · rw [if_pos hhash, hashed_eq hround hinj hmem (h.stocked _ he) hhash.symm]
        rfl
      · rw [if_neg hhash]
        rfl

/-- What one step preserves. -/
theorem Reads.step {space : String} {name : Bytes} (hround : codec.RoundTrips) {bodies : Set Bytes}
    (hinj : Set.InjOn blake3 bodies) {s s' : Reading codec} {move : ReadingMove B}
    (h : Reads codec blake3 (HashedCache.key ⟨space, 0⟩ name) bodies s)
    (hput : ∀ bytes ∈ putBytes codec [move], bytes ∈ bodies) (hs : ReadingStep codec blake3 space name s move s') :
    Reads codec blake3 (HashedCache.key ⟨space, 0⟩ name) bodies s' := by
  cases hs with
  | @other beat item hstep =>
    obtain ⟨⟨server, register⟩, copy⟩ := s
    cases hstep with
    | pass _ hclock => exact ⟨h.item.advance hclock, h.stocked, h.copy⟩
    | query op hallowed =>
      refine ⟨(HashedOp.sound hround space name op _ _ h.item hallowed).2, fun entry he => ?_, h.copy⟩
      have hafter : op.after codec server.now register = some entry := he
      cases op with
      | put ttl body =>
        replace hafter : CacheOp.stock codec ttl body server.now register = some entry := hafter
        cases hstock : Stocked.of? codec body with
        | none =>
          rw [stock_of_none ttl _ hstock] at hafter
          exact h.stocked entry hafter
        | some stocked =>
          rw [stock_of_some ttl _ hstock] at hafter
          obtain rfl := Option.some.inj hafter
          exact hput _ ⟨ttl, body, List.mem_singleton_self _, (Stocked.of?_eq_some hstock).2⟩
      | remove => cases hafter
      | get => exact h.stocked entry hafter
      | hash => exact h.stocked entry hafter
      | getIfChanged known => exact h.stocked entry hafter
  | refresh hrefresh =>
    rw [h.refresh hround hinj] at hrefresh
    obtain ⟨hcopy, rfl⟩ := Prod.mk.inj hrefresh
    refine ⟨h.item, h.stocked, fun copy hc => ?_⟩
    obtain ⟨held, hr, rfl⟩ := Option.map_eq_some_iff.mp ((Except.ok.inj hcopy).trans hc)
    obtain ⟨deadline, he, -⟩ := Register.read_eq_some.mp hr
    exact ⟨held, h.stocked _ he, rfl⟩

/-- **A checked copy is the stored body.** In every state of a run from an absent key and no copy, in which
no two of the bodies that are put have one hash, bringing the copy up to date succeeds and gives the body
put last and its hash, or nothing if it was removed or its TTL has run out. -/
theorem reader_fresh (hround : codec.RoundTrips) (blake3 : Bytes → Hash) (space : String) (name : Bytes)
    {moves : List (ReadingMove B)} {s : Reading codec} (hinj : Set.InjOn blake3 (putBytes codec moves))
    (habsent : server.db (HashedCache.key ⟨space, 0⟩ name) = none)
    (run : Steps (ReadingStep codec blake3 space name) ⟨(server, none), none⟩ moves s) :
    HashedCache.refresh ⟨space, 0⟩ codec name s.copy s.item.1 =
      (.ok ((s.item.2.read s.item.1.now).map (Stocked.hashed blake3)), s.item.1) := by
  have hreads : putBytes codec moves ⊆ putBytes codec moves →
      Reads codec blake3 (HashedCache.key ⟨space, 0⟩ name) (putBytes codec moves) s := by
    refine Steps.invariant (p := fun t s => putBytes codec t ⊆ putBytes codec moves →
      Reads codec blake3 (HashedCache.key ⟨space, 0⟩ name) (putBytes codec moves) s)
      (fun _ => ⟨Register.at_none habsent, by simp, by simp⟩) ?_ run
    intro t s move s' _ ih hs hsub
    have hsplit : ∀ part, (∀ m ∈ part, m ∈ t ++ [move]) → putBytes codec part ⊆ putBytes codec moves :=
      fun part hpart bytes ⟨ttl, body, hmem, hb⟩ => hsub ⟨ttl, body, hpart _ hmem, hb⟩
    exact (ih (hsplit t fun _ => List.mem_append_left _)).step hround hinj
      (hsplit [move] fun _ => List.mem_append_right _) hs
  exact (hreads subset_rfl).refresh hround hinj

/-- A reader that checks its copy of a body after the body has expired. -/
theorem reader_fresh_abc : ∃ s, Steps (ReadingStep bytesCodec (fun _ => abcHash) "users" [7])
      ⟨(⟨0, fun _ => none⟩, none), none⟩
      [.other (.query (.put 5000000 (asBytes "abc"))), .refresh, .other (.pass 9000)] s ∧
    s.copy = some ⟨asBytes "abc", abcHash⟩ ∧
    HashedCache.refresh ⟨"users", 0⟩ bytesCodec [7] s.copy s.item.1 = (.ok none, s.item.1) := by
  have hrange : HashedOp.InRange 0 (.put 5000000 (asBytes "abc")) := by
    show 0 + millis 5000000 < 2 ^ 63
    decide
  have hstep : (HashedOp.queries bytesCodec (fun _ => abcHash) "users" [7]).Step (⟨0, fun _ => none⟩, none) _ _ :=
    .query (HashedOp.put 5000000 (asBytes "abc")) hrange
  have hput := Steps.single (ReadingStep.other (s := ⟨(⟨0, fun _ => none⟩, none), none⟩) hstep)
  have hinj : ∀ t, (∀ ttl body, .other (.query (.put ttl body)) ∈ t → body = asBytes "abc") →
      Set.InjOn (fun _ : Bytes => abcHash) (putBytes bytesCodec t) := by
    rintro t ht x ⟨ttl, body, hx, hxb⟩ y ⟨ttl', body', hy, hyb⟩ -
    cases hxb
    cases hyb
    rw [ht _ _ hx, ht _ _ hy]
  have hread := reader_fresh bytesCodec_roundTrips _ "users" [7] (hinj _ (by simp)) rfl hput
  have run := (hput.snoc (.refresh hread)).snoc (.other (.pass 9000 (Nat.zero_le _)))
  exact ⟨_, run, rfl, reader_fresh bytesCodec_roundTrips _ "users" [7] (hinj _ (by simp)) rfl run⟩

end Wakuwaku.Entity.Redis
