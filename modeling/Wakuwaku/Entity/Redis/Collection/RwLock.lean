import Wakuwaku.Steps
import Wakuwaku.Entity.Redis.Collection.Lock.Numbers

/-! # Reader-writer locks exclude

Any number of clients try, extend and release leases on one name while time passes and keys expire. A
lease runs from the query that granted or extended it for its TTL, unless it was released. The writer
key holds the running write lease (`WriterKept`), the sorted set holds every running read lease and
lives as long (`ReadersKept`), so a write lease runs alone (`rwLock_exclusion`). The scripts of the readers
compute with numbers that are exact below 2^53, and a lease that ends later may end too early for the
script (`rwLock_rounded`). -/

namespace Wakuwaku.Entity.Redis.Collection

open Wakuwaku.Redis Wakuwaku.Entity.Redis

/-! ### Leases -/

/-- What the queries of the clients output, as the time until which each token's lease runs: a read
lease before it, a write lease up to it, since a key outlives the millisecond of its deadline. The
tokens are random, so each is one client's. -/
structure Leases where
  reads : Bytes → Option ℕ
  writes : Bytes → Option ℕ

namespace Leases

def empty : Leases := ⟨fun _ => none, fun _ => none⟩

def readRuns (leases : Leases) (now : ℕ) (token : Bytes) : Bool :=
  (leases.reads token).any fun expiry => now < expiry

def writeRuns (leases : Leases) (now : ℕ) (token : Bytes) : Bool :=
  (leases.writes token).any fun expiry => now ≤ expiry

theorem readRuns_iff {leases : Leases} {now : ℕ} {token : Bytes} :
    leases.readRuns now token = true ↔ ∃ expiry, leases.reads token = some expiry ∧ now < expiry := by
  simp [readRuns, Option.any_eq_true]

theorem writeRuns_iff {leases : Leases} {now : ℕ} {token : Bytes} :
    leases.writeRuns now token = true ↔ ∃ expiry, leases.writes token = some expiry ∧ now ≤ expiry := by
  simp [writeRuns, Option.any_eq_true]

end Leases

/-- A query of a client, on a lock with leases of `ttl`. -/
inductive LeaseOp where
  | tryRead (ttl : ℕ) (token : Bytes)
  | tryWrite (ttl : ℕ) (token : Bytes)
  | extendRead (ttl : ℕ) (token : Bytes)
  | extendWrite (ttl : ℕ) (token : Bytes)
  | releaseRead (token : Bytes)
  | releaseWrite (token : Bytes)

namespace LeaseOp

/-- Whether a lease was granted, or the output of the query. -/
def exec (numbers : LuaNumbers) (space : String) (name : Bytes) : LeaseOp → Command Bool
  | tryRead ttl token => do return (← RwLock.tryRead numbers ⟨space, ttl⟩ name token).isSome
  | tryWrite ttl token => do return (← RwLock.tryWrite ⟨space, ttl⟩ name token).isSome
  | extendRead ttl token => ReadToken.extend numbers ⟨(RwLock.keys ⟨space, ttl⟩ name).2, token, ttl⟩
  | extendWrite ttl token => LockToken.extend ⟨(RwLock.keys ⟨space, ttl⟩ name).1, token, ttl⟩
  | releaseRead token => ReadToken.release ⟨(RwLock.keys ⟨space, 0⟩ name).2, token, 0⟩
  | releaseWrite token => LockToken.release ⟨(RwLock.keys ⟨space, 0⟩ name).1, token, 0⟩

def token : LeaseOp → Bytes
  | tryRead _ token | tryWrite _ token | extendRead _ token | extendWrite _ token | releaseRead token
  | releaseWrite token => token

/-- Whether the query asks for a new lease. -/
def acquires : LeaseOp → Bool
  | tryRead _ _ | tryWrite _ _ => true
  | _ => false

/-- Redis accepts the TTL. -/
def InRange (now : ℕ) : LeaseOp → Prop
  | tryRead ttl _ | tryWrite ttl _ | extendRead ttl _ | extendWrite ttl _ => now + millis ttl < 2 ^ 63
  | _ => True

/-- Redis accepts the TTL, and the numbers of the script are exact. -/
def Exact (now : ℕ) : LeaseOp → Prop
  | tryRead ttl _ | extendRead ttl _ => now + millis ttl < 2 ^ 53
  | tryWrite ttl _ => now < 2 ^ 53 ∧ now + millis ttl < 2 ^ 63
  | extendWrite ttl _ => now + millis ttl < 2 ^ 63
  | releaseRead _ => now < 2 ^ 53
  | releaseWrite _ => True

theorem Exact.inRange {now : ℕ} : ∀ {op : LeaseOp}, op.Exact now → op.InRange now
  | tryRead _ _, h | extendRead _ _, h => Nat.lt_trans h (by decide)
  | tryWrite _ _, h => h.2
  | extendWrite _ _, h => h
  | releaseRead _, _ | releaseWrite _, _ => trivial

/-- Whether the lease that the query extends or releases runs. -/
def runs (leases : Leases) (now : ℕ) : LeaseOp → Bool
  | extendRead _ token | releaseRead token => leases.readRuns now token
  | extendWrite _ token | releaseWrite token => leases.writeRuns now token
  | _ => false

/-- The leases after an output. -/
def record (now : ℕ) (leases : Leases) : LeaseOp → Bool → Leases
  | tryRead ttl token, true | extendRead ttl token, true =>
    { leases with reads := Function.update leases.reads token (some (now + millis ttl)) }
  | tryWrite ttl token, true | extendWrite ttl token, true =>
    { leases with writes := Function.update leases.writes token (some (now + millis ttl)) }
  | releaseRead token, true => { leases with reads := Function.update leases.reads token none }
  | releaseWrite token, true => { leases with writes := Function.update leases.writes token none }
  | _, false => leases

end LeaseOp

/-- The server and the leases. -/
structure Shared where
  server : Server
  leases : Leases

inductive Moment where
  | pass (clock : ℕ)
  | query (op : LeaseOp)

/-- Time passes, or a client makes a query that is allowed at that time. -/
inductive LeaseStep (numbers : LuaNumbers) (allowed : ℕ → LeaseOp → Prop) (space : String) (name : Bytes) :
    Shared → Moment → Shared → Prop
  | pass {s clock} (h : s.server.clock ≤ clock) :
    LeaseStep numbers allowed space name s (.pass clock) ⟨s.server.advance clock, s.leases⟩
  | query {s op output server} (ha : allowed s.server.now op)
    (h : op.exec numbers space name s.server = (.ok output, server)) :
    LeaseStep numbers allowed space name s (.query op) ⟨server, op.record s.server.now s.leases output⟩

/-! ### What the keys hold -/

variable {writer readers : Bytes} {server : Server} {leases : Leases}

/-- The writer key holds the running write lease, if there is one. -/
def WriterKept (writer : Bytes) (server : Server) (leases : Leases) : Prop :=
  (server.db writer = none ∧ ∀ token, leases.writeRuns server.now token = false) ∨
  ∃ token deadline, server.db writer = some ⟨.string token, some deadline⟩ ∧
    leases.writes token = some deadline ∧ server.now ≤ deadline ∧
    ∀ other, leases.writeRuns server.now other = true → other = token

/-- The sorted set holds every running read lease and does not expire before it, at an exact number. -/
def ReadersKept (readers : Bytes) (server : Server) (leases : Leases) : Prop :=
  ∃ members deadline, server.db readers = sortedSet members (some deadline) ∧ deadline < 2 ^ 53 ∧
    (∀ pair ∈ members, pair.2 ≤ deadline ∧ leases.reads pair.1 = some pair.2) ∧
    ∀ token expiry, leases.reads token = some expiry → server.now < expiry → (token, expiry) ∈ members

/-- What holds in every state of a run. -/
structure Guarded (writer readers : Bytes) (server : Server) (leases : Leases) : Prop where
  writer : WriterKept writer server leases
  readers : ReadersKept readers server leases
  exclusive : ∀ token other, leases.writeRuns server.now token = true →
    leases.readRuns server.now other = false

theorem WriterKept.eq_of_runs (h : WriterKept writer server leases) {token other : Bytes}
    (ht : leases.writeRuns server.now token = true) (ho : leases.writeRuns server.now other = true) :
    token = other := by
  rcases h with ⟨-, hnone⟩ | ⟨held, deadline, -, -, -, hall⟩
  · rw [hnone token] at ht
    cases ht
  · rw [hall token ht, hall other ho]

/-! ### Time passes -/

section Pass

variable {clock : ℕ} (hclock : server.clock ≤ clock)
include hclock

theorem now_le_advance : server.now ≤ (server.advance clock).now := Nat.div_le_div_right hclock

theorem writeRuns_of_advance {token : Bytes}
    (h : leases.writeRuns (server.advance clock).now token = true) :
    leases.writeRuns server.now token = true := by
  obtain ⟨expiry, he, hle⟩ := Leases.writeRuns_iff.mp h
  exact Leases.writeRuns_iff.mpr ⟨expiry, he, Nat.le_trans (now_le_advance hclock) hle⟩

theorem readRuns_of_advance {token : Bytes} (h : leases.readRuns (server.advance clock).now token = true) :
    leases.readRuns server.now token = true := by
  obtain ⟨expiry, he, hlt⟩ := Leases.readRuns_iff.mp h
  exact Leases.readRuns_iff.mpr ⟨expiry, he, Nat.lt_of_le_of_lt (now_le_advance hclock) hlt⟩

theorem WriterKept.advance (h : WriterKept writer server leases) :
    WriterKept writer (server.advance clock) leases := by
  rcases h with ⟨hnone, hall⟩ | ⟨held, deadline, hw, hlease, -, hall⟩
  · refine Or.inl ⟨Server.db_advance_of_none clock hnone, fun token => ?_⟩
    by_contra hrun
    have hbefore := writeRuns_of_advance hclock (Bool.not_eq_false _ ▸ hrun)
    rw [hall token] at hbefore
    cases hbefore
  · have hdb := Server.db_advance_of_some clock hw
    by_cases hgone : deadline < clock / 1000
    · rw [if_pos hgone] at hdb
      refine Or.inl ⟨hdb, fun token => ?_⟩
      by_contra hrun
      have hrun : leases.writeRuns (server.advance clock).now token = true := Bool.not_eq_false _ ▸ hrun
      obtain ⟨expiry, he, hle⟩ := Leases.writeRuns_iff.mp hrun
      rw [hall token (writeRuns_of_advance hclock hrun), hlease] at he
      cases he
      exact absurd hgone (Nat.not_lt.mpr hle)
    · rw [if_neg hgone] at hdb
      exact Or.inr ⟨held, deadline, hdb, hlease, Nat.not_lt.mp hgone,
        fun other ho => hall other (writeRuns_of_advance hclock ho)⟩

theorem ReadersKept.advance (h : ReadersKept readers server leases) :
    ReadersKept readers (server.advance clock) leases := by
  obtain ⟨members, deadline, hr, hsmall, hmem, hruns⟩ := h
  by_cases hm : members = []
  · subst hm
    refine ⟨[], deadline, Server.db_advance_of_none clock hr, hsmall, by simp, fun token expiry he hlt => ?_⟩
    exact hruns token expiry he (Nat.lt_of_le_of_lt (now_le_advance hclock) hlt)
  · have hdb := Server.db_advance_of_some clock (hr.trans (sortedSet_of_ne_nil hm _))
    by_cases hgone : deadline < clock / 1000
    · rw [if_pos hgone] at hdb
      refine ⟨[], deadline, hdb, hsmall, by simp, fun token expiry he hlt => ?_⟩
      have hin := hruns token expiry he (Nat.lt_of_le_of_lt (now_le_advance hclock) hlt)
      have hle := (hmem _ hin).1
      exact absurd (Nat.lt_of_le_of_lt hle hgone) (Nat.lt_asymm hlt)
    · rw [if_neg hgone] at hdb
      refine ⟨members, deadline, hdb.trans (sortedSet_of_ne_nil hm _).symm, hsmall, hmem,
        fun token expiry he hlt => ?_⟩
      exact hruns token expiry he (Nat.lt_of_le_of_lt (now_le_advance hclock) hlt)

theorem Guarded.advance (h : Guarded writer readers server leases) :
    Guarded writer readers (server.advance clock) leases := by
  refine ⟨h.writer.advance hclock, h.readers.advance hclock, fun token other ht => ?_⟩
  by_contra hrun
  have hbefore := readRuns_of_advance hclock (Bool.not_eq_false _ ▸ hrun)
  rw [h.exclusive token other (writeRuns_of_advance hclock ht)] at hbefore
  cases hbefore

end Pass

/-! ### The writer key -/

section Writer

variable {server' : Server} {leases' : Leases} {token : Bytes} {deadline : ℕ}

/-- What only the readers key and the read leases change. -/
theorem WriterKept.of_same (h : WriterKept writer server leases) (hdb : server'.db writer = server.db writer)
    (hnow : server'.now = server.now) (hwrites : leases'.writes = leases.writes) :
    WriterKept writer server' leases' := by
  unfold WriterKept Leases.writeRuns at h ⊢
  rw [hdb, hnow, hwrites]
  exact h

/-- A token gets the write lease, or keeps it. -/
theorem writerKept_of_string (hdb : server'.db writer = some ⟨.string token, some deadline⟩)
    (hle : server'.now ≤ deadline)
    (hwrites : leases'.writes = Function.update leases.writes token (some deadline))
    (halone : ∀ other, leases.writeRuns server'.now other = true → other = token) :
    WriterKept writer server' leases' := by
  refine Or.inr ⟨token, deadline, hdb, ?_, hle, fun other ho => ?_⟩
  · rw [hwrites, Function.update_self]
  · by_contra hne
    unfold Leases.writeRuns at ho
    rw [hwrites, Function.update_of_ne hne] at ho
    exact hne (halone other ho)

/-- A token gives the write lease back. -/
theorem writerKept_of_released (hdb : server'.db writer = none)
    (hwrites : leases'.writes = Function.update leases.writes token none)
    (halone : ∀ other, leases.writeRuns server'.now other = true → other = token) :
    WriterKept writer server' leases' := by
  refine Or.inl ⟨hdb, fun other => ?_⟩
  unfold Leases.writeRuns
  rw [hwrites]
  by_cases ho : other = token
  · rw [ho, Function.update_self]
    rfl
  · rw [Function.update_of_ne ho]
    by_contra hrun
    exact ho (halone other (Bool.not_eq_false _ ▸ hrun))

end Writer

/-! ### The readers key -/

section Readers

variable {server' : Server} {leases' : Leases} {members : List (Bytes × ℕ)} {token : Bytes}
  {deadline expiry : ℕ}

theorem mem_rescore {pair : Bytes × ℕ} :
    (pair ∈ members.map fun pair => if pair.1 = token then (token, expiry) else pair) ↔
      (pair = (token, expiry) ∧ ∃ old ∈ members, old.1 = token) ∨ pair ∈ members ∧ pair.1 ≠ token := by
  rw [List.mem_map]
  constructor
  · rintro ⟨old, hold, rfl⟩
    by_cases ht : old.1 = token
    · rw [if_pos ht]
      exact Or.inl ⟨rfl, old, hold, ht⟩
    · rw [if_neg ht]
      exact Or.inr ⟨hold, ht⟩
  · rintro (⟨rfl, old, hold, ht⟩ | ⟨hp, hne⟩)
    · exact ⟨old, hold, if_pos ht⟩
    · exact ⟨pair, hp, if_neg hne⟩

theorem mem_setScore {pair : Bytes × ℕ} : pair ∈ setScore members token expiry ↔
    pair = (token, expiry) ∨ pair ∈ members ∧ pair.1 ≠ token := by
  unfold setScore
  by_cases hin : ∃ pair ∈ members, pair.1 = token
  · rw [if_pos hin, mem_rescore]
    exact or_congr_left ⟨And.left, fun he => ⟨he, hin⟩⟩
  · rw [if_neg hin, List.mem_append, List.mem_singleton]
    constructor
    · rintro (hp | hp)
      · exact Or.inr ⟨hp, fun he => hin ⟨pair, hp, he⟩⟩
      · exact Or.inl hp
    · rintro (hp | ⟨hp, -⟩)
      · exact Or.inr hp
      · exact Or.inl hp

/-- What only the writer key and the write leases change. -/
theorem ReadersKept.of_same (h : ReadersKept readers server leases)
    (hdb : server'.db readers = server.db readers) (hnow : server'.now = server.now)
    (hreads : leases'.reads = leases.reads) : ReadersKept readers server' leases' := by
  unfold ReadersKept at h ⊢
  rw [hdb, hnow, hreads]
  exact h

/-- The readers whose leases ran out may go. -/
theorem ReadersKept.live (h : ReadersKept readers server leases) : ∃ members deadline,
    server.db readers = sortedSet members (some deadline) ∧ deadline < 2 ^ 53 ∧
    (∀ pair ∈ live server.now members, pair.2 ≤ deadline ∧ leases.reads pair.1 = some pair.2) ∧
    ∀ token expiry, leases.reads token = some expiry → server.now < expiry →
      (token, expiry) ∈ live server.now members := by
  obtain ⟨members, deadline, hr, hsmall, hmem, hruns⟩ := h
  refine ⟨members, deadline, hr, hsmall, fun pair hp => hmem pair (List.mem_filter.mp hp).1, ?_⟩
  intro token expiry he hlt
  exact List.mem_filter.mpr ⟨hruns token expiry he hlt, decide_eq_true hlt⟩

/-- A token gets a read lease, or a longer one. -/
theorem readersKept_of_scored {members' : List (Bytes × ℕ)} {deadline' : ℕ}
    (hdb : server'.db readers = sortedSet members' (some deadline'))
    (hmem' : ∀ pair, pair ∈ members' ↔ pair = (token, expiry) ∨ pair ∈ members ∧ pair.1 ≠ token)
    (hsmall : deadline' < 2 ^ 53) (hexpiry : expiry ≤ deadline')
    (hmem : ∀ pair ∈ members, pair.2 ≤ deadline' ∧ leases.reads pair.1 = some pair.2)
    (hruns : ∀ token expiry, leases.reads token = some expiry → server'.now < expiry →
      (token, expiry) ∈ members)
    (hreads : leases'.reads = Function.update leases.reads token (some expiry)) :
    ReadersKept readers server' leases' := by
  refine ⟨members', deadline', hdb, hsmall, fun pair hp => ?_, fun other e he hlt => ?_⟩
  · rcases (hmem' pair).mp hp with rfl | ⟨hp, hne⟩
    · exact ⟨hexpiry, by rw [hreads, Function.update_self]⟩
    · rw [hreads, Function.update_of_ne hne]
      exact hmem pair hp
  · rw [hreads] at he
    by_cases ho : other = token
    · rw [ho, Function.update_self] at he
      cases he
      exact (hmem' _).mpr (Or.inl (by rw [ho]))
    · rw [Function.update_of_ne ho] at he
      exact (hmem' _).mpr (Or.inr ⟨hruns other e he hlt, ho⟩)

/-- A member goes whose lease ended. -/
theorem readersKept_of_removed (hsmall : deadline < 2 ^ 53)
    (hmem : ∀ pair ∈ members, pair.2 ≤ deadline ∧ leases.reads pair.1 = some pair.2)
    (hdb : server'.db readers = sortedSet (members.filter fun pair => pair.1 ≠ token) (some deadline))
    (hruns : ∀ token expiry, leases.reads token = some expiry → server'.now < expiry →
      (token, expiry) ∈ members)
    (hended : ∀ expiry, leases'.reads token = some expiry → ¬ server'.now < expiry)
    (hothers : ∀ other, other ≠ token → leases'.reads other = leases.reads other) :
    ReadersKept readers server' leases' := by
  refine ⟨_, deadline, hdb, hsmall, fun pair hp => ?_, fun other e he hlt => ?_⟩
  · obtain ⟨hp, hne⟩ := List.mem_filter.mp hp
    rw [hothers pair.1 (of_decide_eq_true hne)]
    exact hmem pair hp
  · by_cases ho : other = token
    · exact absurd hlt (hended e (ho ▸ he))
    · rw [hothers other ho] at he
      exact List.mem_filter.mpr ⟨hruns other e he hlt, decide_eq_true ho⟩

end Readers

/-! ### One query -/

theorem Guarded.no_writer (h : Guarded writer readers server leases) {other : Bytes}
    (ho : leases.readRuns server.now other = true) (held : Bytes) :
    leases.writeRuns server.now held = false := by
  by_contra hrun
  rw [h.exclusive held other (Bool.not_eq_false _ ▸ hrun)] at ho
  cases ho

/-- The score of a reader, with the deadline of its key. -/
def readerAt (stored : Option Stored) (token : Bytes) : Option (ℕ × Option ℕ) :=
  match stored with
  | some ⟨.sortedSet members, expires⟩ =>
    (members.find? fun pair => pair.1 = token).map fun pair => (pair.2, expires)
  | _ => none

/-- The score of a member, by the leases. -/
theorem lease_of_find {token : Bytes} {members : List (Bytes × ℕ)} {deadline : ℕ} {pair : Bytes × ℕ}
    (hmem : ∀ pair ∈ members, pair.2 ≤ deadline ∧ leases.reads pair.1 = some pair.2)
    (hfind : (members.find? fun pair => pair.1 = token) = some pair) :
    leases.reads token = some pair.2 := by
  have hp := List.find?_some hfind
  have heq : pair.1 = token := of_decide_eq_true hp
  exact heq ▸ (hmem pair (List.mem_of_find?_eq_some hfind)).2

/-- Another reader is found as before. -/
theorem readerAt_filter {members : List (Bytes × ℕ)} {expires : Option ℕ} {token other : Bytes}
    (ho : other ≠ token) : readerAt (sortedSet (members.filter fun pair => pair.1 ≠ token) expires) other =
      readerAt (sortedSet members expires) other := by
  have hat : ∀ list, readerAt (sortedSet list expires) other =
      (list.find? fun pair => pair.1 = other).map fun pair => (pair.2, expires) := by
    intro list
    by_cases hl : list = []
    · rw [hl]
      rfl
    · rw [sortedSet_of_ne_nil hl]
      rfl
  rw [hat, hat, List.find?_filter]
  congr 2
  funext pair
  by_cases hp : pair.1 = other
  · simp [hp, ho]
  · simp [hp]

/-- A query is answered as its lease runs, keeps the locks guarded, and does nothing to the leases of
other tokens if its own does not run. -/
structure Answered (numbers : LuaNumbers) (space : String) (name : Bytes) (server : Server) (leases : Leases)
    (op : LeaseOp) (output : Bool) (server' : Server) : Prop where
  exec : op.exec numbers space name server = (.ok output, server')
  guarded : Guarded (RwLock.keys ⟨space, 0⟩ name).1 (RwLock.keys ⟨space, 0⟩ name).2 server'
    (op.record server.now leases output)
  output : op.acquires = false → output = op.runs leases server.now
  stale : op.acquires = false → op.runs leases server.now = false →
    server'.db (RwLock.keys ⟨space, 0⟩ name).1 = server.db (RwLock.keys ⟨space, 0⟩ name).1 ∧
    ∀ other, other ≠ op.token → readerAt (server'.db (RwLock.keys ⟨space, 0⟩ name).2) other =
      readerAt (server.db (RwLock.keys ⟨space, 0⟩ name).2) other

section Queries

variable {numbers : LuaNumbers} {space : String} {name token : Bytes} {ttl : ℕ}

theorem keys_ne (space : String) (name : Bytes) :
    (RwLock.keys ⟨space, 0⟩ name).1 ≠ (RwLock.keys ⟨space, 0⟩ name).2 := taggedPair_ne (by decide)

variable (h : Guarded (RwLock.keys ⟨space, 0⟩ name).1 (RwLock.keys ⟨space, 0⟩ name).2 server leases)
include h

/-- A query that is refused and changes nothing. -/
theorem answered_false {op : LeaseOp} (hexec : op.exec numbers space name server = (.ok false, server))
    (hruns : op.runs leases server.now = false)
    (hrecord : op.record server.now leases false = leases) :
    Answered numbers space name server leases op false server :=
  ⟨hexec, by rw [hrecord]; exact h, fun _ => hruns.symm, fun _ _ => ⟨rfl, fun _ _ => rfl⟩⟩

theorem answered_extendWrite (range : server.now + millis ttl < 2 ^ 63) :
    ∃ output server', Answered numbers space name server leases (.extendWrite ttl token) output server' := by
  have hpos := millis_pos ttl
  rcases h.writer with ⟨hnone, hall⟩ | ⟨held, deadline, hw, hlease, hle, hall⟩
  · refine ⟨false, server, answered_false h ?_ (hall token) rfl⟩
    exact Command.bind_of_ok (extendScript_of_none hnone)
  · by_cases ht : held = token
    · subst ht
      have hrun : leases.writeRuns server.now held = true := Leases.writeRuns_iff.mpr ⟨deadline, hlease, hle⟩
      have hscript := extendScript_of_string held hw hpos range
      rw [if_pos rfl] at hscript
      refine ⟨true, _, Command.bind_of_ok hscript, ⟨?_, ?_, ?_⟩, fun _ => hrun.symm, ?_⟩
      · exact writerKept_of_string (Server.db_put_self _ _ _) (Nat.le_add_right _ _) rfl hall
      · exact h.readers.of_same (Server.db_put_of_ne _ _ (keys_ne space name).symm) rfl rfl
      · exact fun _ other _ => h.exclusive held other hrun
      · exact fun _ hstale => absurd (hrun.symm.trans hstale) (by decide)
    · have hstale : leases.writeRuns server.now token = false := by
        by_contra hrun
        exact ht (hall token (Bool.not_eq_false _ ▸ hrun)).symm
      have hscript := extendScript_of_string token hw hpos range
      rw [if_neg ht] at hscript
      exact ⟨false, server, answered_false h (Command.bind_of_ok hscript) hstale rfl⟩

theorem answered_releaseWrite :
    ∃ output server', Answered numbers space name server leases (.releaseWrite token) output server' := by
  rcases h.writer with ⟨hnone, hall⟩ | ⟨held, deadline, hw, hlease, hle, hall⟩
  · refine ⟨false, server, answered_false h ?_ (hall token) rfl⟩
    exact Command.bind_of_ok (releaseScript_of_none hnone)
  · have hscript := releaseScript_of_string token hw
    by_cases ht : held = token
    · subst ht
      have hrun : leases.writeRuns server.now held = true := Leases.writeRuns_iff.mpr ⟨deadline, hlease, hle⟩
      rw [if_pos rfl] at hscript
      refine ⟨true, _, Command.bind_of_ok hscript, ⟨?_, ?_, ?_⟩, fun _ => hrun.symm, ?_⟩
      · exact writerKept_of_released (Server.db_put_self _ _ _) rfl hall
      · exact h.readers.of_same (Server.db_put_of_ne _ _ (keys_ne space name).symm) rfl rfl
      · exact fun _ other _ => h.exclusive held other hrun
      · exact fun _ hstale => absurd (hrun.symm.trans hstale) (by decide)
    · have hstale : leases.writeRuns server.now token = false := by
        by_contra hrun
        exact ht (hall token (Bool.not_eq_false _ ▸ hrun)).symm
      rw [if_neg ht] at hscript
      exact ⟨false, server, answered_false h (Command.bind_of_ok hscript) hstale rfl⟩

theorem answered_extendRead (range : server.now + millis ttl < 2 ^ 53) :
    ∃ output server', Answered numbers space name server leases (.extendRead ttl token) output server' := by
  obtain ⟨members, deadline, hr, hsmall, hmem, hruns⟩ := h.readers
  have hpos := millis_pos ttl
  by_cases hrun : leases.readRuns server.now token = true
  · obtain ⟨expiry, hlease, hlt⟩ := Leases.readRuns_iff.mp hrun
    obtain ⟨pair, hfind⟩ : ∃ pair, (members.find? fun pair => pair.1 = token) = some pair := by
      refine Option.isSome_iff_exists.mp (List.find?_isSome.mpr ?_)
      exact ⟨(token, expiry), hruns token expiry hlease hlt, decide_eq_true rfl⟩
    have hscore : pair.2 = expiry := Option.some.inj ((lease_of_find hmem hfind).symm.trans hlease)
    have hold : ∃ old ∈ members, old.1 = token := ⟨(token, expiry), hruns token expiry hlease hlt, rfl⟩
    refine ⟨true, _, Command.bind_of_ok (readExtendScript_of_some numbers hr hfind (hscore ▸ hlt) hsmall hpos range),
      ⟨?_, ?_, ?_⟩, fun _ => hrun.symm, ?_⟩
    · exact h.writer.of_same (Server.db_put_of_ne _ _ (keys_ne space name)) rfl rfl
    · refine readersKept_of_scored (Server.db_put_self _ _ _) (fun pair => ?_) (Nat.max_lt.mpr ⟨hsmall, range⟩)
        (Nat.le_max_right _ _)
        (fun pair hp => ?_) hruns rfl
      · rw [mem_rescore]
        exact or_congr_left ⟨And.left, fun he => ⟨he, hold⟩⟩
      · exact ⟨Nat.le_trans (hmem pair hp).1 (Nat.le_max_left _ _), (hmem pair hp).2⟩
    · exact fun held _ hheld => absurd ((h.no_writer hrun held).symm.trans hheld) (by decide)
    · exact fun _ hstale => absurd (hrun.symm.trans hstale) (by decide)
  · have hstale : leases.readRuns server.now token = false := Bool.not_eq_true _ ▸ hrun
    refine ⟨false, server, answered_false h (Command.bind_of_ok (readExtendScript_of_none numbers hr ?_))
      hstale rfl⟩
    intro pair hfind
    by_contra hlt
    exact hrun (Leases.readRuns_iff.mpr ⟨pair.2, lease_of_find hmem hfind, Nat.not_le.mp hlt⟩)

theorem answered_releaseRead :
    ∃ output server', Answered numbers space name server leases (.releaseRead token) output server' := by
  obtain ⟨members, deadline, hr, hsmall, hmem, hruns⟩ := h.readers
  cases hfind : members.find? fun pair => pair.1 = token with
  | none =>
    refine ⟨false, server, answered_false h (Command.bind_of_ok (readReleaseScript_of_none hr hfind))
      ?_ rfl⟩
    by_contra hrun
    obtain ⟨expiry, hlease, hlt⟩ := Leases.readRuns_iff.mp (Bool.not_eq_false _ ▸ hrun)
    exact absurd (decide_eq_true rfl) (List.find?_eq_none.mp hfind _ (hruns token expiry hlease hlt))
  | some pair =>
    have hlease := lease_of_find hmem hfind
    have hscript := readReleaseScript_of_some hr hfind
    have hwriter : ∀ leases', leases'.writes = leases.writes →
        WriterKept (RwLock.keys ⟨space, 0⟩ name).1 (server.put (RwLock.keys ⟨space, 0⟩ name).2
          (sortedSet (members.filter fun pair => pair.1 ≠ token) (some deadline))) leases' := by
      intro leases' hwrites
      exact h.writer.of_same (Server.db_put_of_ne _ _ (keys_ne space name)) rfl hwrites
    by_cases hlt : server.now < pair.2
    · have hrun : leases.readRuns server.now token = true := Leases.readRuns_iff.mpr ⟨_, hlease, hlt⟩
      rw [if_pos hlt] at hscript
      refine ⟨true, _, Command.bind_of_ok hscript, ⟨hwriter _ rfl, ?_, ?_⟩, fun _ => hrun.symm, ?_⟩
      · refine readersKept_of_removed hsmall hmem (Server.db_put_self _ _ _) hruns
          (fun expiry he => ?_) fun other ho => ?_
        · simp [LeaseOp.record] at he
        · exact Function.update_of_ne ho _ _
      · exact fun held _ hheld => absurd ((h.no_writer hrun held).symm.trans hheld) (by decide)
      · exact fun _ hstale => absurd (hrun.symm.trans hstale) (by decide)
    · have hstale : leases.readRuns server.now token = false := by
        by_contra hrun
        obtain ⟨expiry, he, hlive⟩ := Leases.readRuns_iff.mp (Bool.not_eq_false _ ▸ hrun)
        rw [hlease] at he
        cases he
        exact hlt hlive
      rw [if_neg hlt] at hscript
      refine ⟨false, _, Command.bind_of_ok hscript, ⟨hwriter _ rfl, ?_, h.exclusive⟩,
        fun _ => hstale.symm, fun _ _ => ⟨Server.db_put_of_ne _ _ (keys_ne space name), fun other ho => ?_⟩⟩
      · refine readersKept_of_removed hsmall hmem (Server.db_put_self _ _ _) hruns (fun expiry he hlive => ?_)
          fun _ _ => rfl
        rw [show leases.reads token = some expiry from he] at hlease
        cases hlease
        exact hlt hlive
      · rw [Server.db_put_self, hr]
        exact readerAt_filter ho

theorem answered_tryRead (range : server.now + millis ttl < 2 ^ 53) :
    ∃ output server', Answered numbers space name server leases (.tryRead ttl token) output server' := by
  have hpos := millis_pos ttl
  rcases h.writer with ⟨hnone, hall⟩ | ⟨held, deadline, hw, -, -, -⟩
  · obtain ⟨members, deadline, hr, hsmall, hmem, hruns⟩ := h.readers.live
    have hscript : readAcquireScript numbers (RwLock.keys ⟨space, ttl⟩ name).1 (RwLock.keys ⟨space, ttl⟩ name).2
        token (millis ttl) server = _ := readAcquireScript_of_none numbers hnone hr hsmall hpos range
    refine ⟨true, _, Command.bind_of_ok (tryRead_of_script ⟨space, ttl⟩ hscript),
      ⟨?_, ?_, ?_⟩, by simp [LeaseOp.acquires], by simp [LeaseOp.acquires]⟩
    · exact h.writer.of_same (Server.db_put_of_ne _ _ (keys_ne space name)) rfl rfl
    · refine readersKept_of_scored (Server.db_put_self _ _ _) (fun pair => mem_setScore) ?_ (Nat.le_max_right _ _)
        (fun pair hp => ⟨?_, (hmem pair hp).2⟩) hruns rfl
      · split <;> omega
      rw [if_neg (List.ne_nil_of_mem hp)]
      exact Nat.le_trans (hmem pair hp).1 (Nat.le_max_left _ _)
    · exact fun held _ hheld => absurd ((hall held).symm.trans hheld) (by decide)
  · have hscript : readAcquireScript numbers (RwLock.keys ⟨space, ttl⟩ name).1 (RwLock.keys ⟨space, ttl⟩ name).2
        token (millis ttl) server = _ := readAcquireScript_of_some hw
    refine ⟨false, server, Command.bind_of_ok (tryRead_of_script ⟨space, ttl⟩ hscript),
      ⟨h.writer, h.readers, h.exclusive⟩, by simp [LeaseOp.acquires], by simp [LeaseOp.acquires]⟩

theorem answered_tryWrite (range : server.now + millis ttl < 2 ^ 63) :
    ∃ output server', Answered numbers space name server leases (.tryWrite ttl token) output server' := by
  have hpos := millis_pos ttl
  have hne := keys_ne space name
  obtain ⟨members, deadline, hr, hsmall, hmem, hruns⟩ := h.readers.live
  have hkept : ∀ server' leases', server'.db (RwLock.keys ⟨space, 0⟩ name).2 =
      sortedSet (live server.now members) (some deadline) → server'.now = server.now →
        leases'.reads = leases.reads → ReadersKept (RwLock.keys ⟨space, 0⟩ name).2 server' leases' := by
    intro server' leases' hdb hnow hreads
    refine ⟨_, deadline, hdb, hsmall, by rw [hreads]; exact hmem, ?_⟩
    rw [hreads, hnow]
    exact hruns
  by_cases hbusy : live server.now members ≠ [] ∨
      ∃ stored, server.db (RwLock.keys ⟨space, 0⟩ name).1 = some stored
  · have hscript : writeAcquireScript (RwLock.keys ⟨space, ttl⟩ name).1 (RwLock.keys ⟨space, ttl⟩ name).2
        token (millis ttl) server = _ := writeAcquireScript_of_busy hne hr hpos range hbusy
    refine ⟨false, _, Command.bind_of_ok (tryWrite_of_script ⟨space, ttl⟩ hscript),
      ⟨?_, ?_, h.exclusive⟩, by simp [LeaseOp.acquires], by simp [LeaseOp.acquires]⟩
    · exact h.writer.of_same (Server.db_put_of_ne _ _ hne) rfl rfl
    · exact hkept _ _ (Server.db_put_self _ _ _) rfl rfl
  · obtain ⟨hlive, hnone⟩ := not_or.mp hbusy
    have hlive : live server.now members = [] := not_not.mp hlive
    have hw : server.db (RwLock.keys ⟨space, 0⟩ name).1 = none :=
      Option.eq_none_iff_forall_ne_some.mpr fun stored he => hnone ⟨stored, he⟩
    have halone : ∀ other, leases.writeRuns server.now other = true → other = token := by
      intro other ho
      rcases h.writer with ⟨-, hall⟩ | ⟨held, d, hd, -⟩
      · rw [hall other] at ho
        cases ho
      · rw [hw] at hd
        cases hd
    have hscript : writeAcquireScript (RwLock.keys ⟨space, ttl⟩ name).1 (RwLock.keys ⟨space, ttl⟩ name).2
        token (millis ttl) server = _ := writeAcquireScript_of_free hne hr hpos range hlive hw
    refine ⟨true, _, Command.bind_of_ok (tryWrite_of_script ⟨space, ttl⟩ hscript), ⟨?_, ?_, ?_⟩,
      by simp [LeaseOp.acquires], by simp [LeaseOp.acquires]⟩
    · exact writerKept_of_string (Server.db_put_self _ _ _) (Nat.le_add_right _ _) rfl halone
    · refine hkept _ _ ((Server.db_put_of_ne _ _ hne.symm).trans ?_) rfl rfl
      rw [hlive]
      exact Server.db_put_self _ _ _
    · -- No reader runs: it would be live.
      intro held other _
      by_contra hrun
      obtain ⟨expiry, he, hlt⟩ := Leases.readRuns_iff.mp (Bool.not_eq_false _ ▸ hrun)
      have hin := hruns other expiry he hlt
      rw [hlive] at hin
      cases hin

/-- **Every query with exact numbers is answered.** -/
theorem answered (numbers : LuaNumbers) (op : LeaseOp) (exact : op.Exact server.now) :
    ∃ output server', Answered numbers space name server leases op output server' := by
  cases op with
  | tryRead ttl token => exact answered_tryRead h exact
  | tryWrite ttl token => exact answered_tryWrite h exact.2
  | extendRead ttl token => exact answered_extendRead h exact
  | extendWrite ttl token => exact answered_extendWrite h exact
  | releaseRead token => exact answered_releaseRead h
  | releaseWrite token => exact answered_releaseWrite h

end Queries

/-! ### Runs -/

theorem guarded_empty (hw : server.db writer = none) (hr : server.db readers = none) :
    Guarded writer readers server .empty :=
  ⟨Or.inl ⟨hw, fun _ => rfl⟩, ⟨[], 0, hr, by decide, by simp, by simp [Leases.empty]⟩, fun _ _ _ => rfl⟩

/-- **What one step preserves.** -/
theorem Guarded.step {numbers : LuaNumbers} {space : String} {name : Bytes} {s s' : Shared} {moment : Moment}
    (h : Guarded (RwLock.keys ⟨space, 0⟩ name).1 (RwLock.keys ⟨space, 0⟩ name).2 s.server s.leases)
    (hs : LeaseStep numbers (fun now op => op.Exact now) space name s moment s') :
    Guarded (RwLock.keys ⟨space, 0⟩ name).1 (RwLock.keys ⟨space, 0⟩ name).2 s'.server s'.leases := by
  cases hs with
  | pass hclock => exact h.advance hclock
  | query exact hexec =>
    obtain ⟨output, server', ha⟩ := answered h numbers _ exact
    have heq := ha.exec
    rw [hexec] at heq
    cases heq
    exact ha.guarded

/-- **A write lease runs alone.** In every state of a run from absent keys with exact numbers: no two write
leases run, and no read lease runs beside a write lease; the readers key lives as long as every running read
lease in it; every query with exact numbers succeeds, an extension or a release outputs whether the lease of
its token runs, and one whose lease does not run leaves the writer key and the leases of the other readers
as they were. -/
theorem rwLock_exclusion (numbers : LuaNumbers) (space : String) (name : Bytes) {server : Server}
    {moments : List Moment} {s : Shared} (hw : server.db (RwLock.keys ⟨space, 0⟩ name).1 = none)
    (hr : server.db (RwLock.keys ⟨space, 0⟩ name).2 = none)
    (run : Steps (LeaseStep numbers (fun now op => op.Exact now) space name) ⟨server, .empty⟩ moments s) :
    (∀ token other, s.leases.writeRuns s.server.now token = true →
      s.leases.writeRuns s.server.now other = true → token = other) ∧
    (∀ token other, s.leases.writeRuns s.server.now token = true →
      s.leases.readRuns s.server.now other = false) ∧
    (∀ token expiry, s.leases.reads token = some expiry → s.server.now < expiry →
      ∃ members deadline, s.server.db (RwLock.keys ⟨space, 0⟩ name).2 =
        some ⟨.sortedSet members, some deadline⟩ ∧ (token, expiry) ∈ members ∧ expiry ≤ deadline) ∧
    ∀ op : LeaseOp, op.Exact s.server.now →
      ∃ output server', op.exec numbers space name s.server = (.ok output, server') ∧
        (op.acquires = false → output = op.runs s.leases s.server.now) ∧
        (op.acquires = false → op.runs s.leases s.server.now = false →
          server'.db (RwLock.keys ⟨space, 0⟩ name).1 = s.server.db (RwLock.keys ⟨space, 0⟩ name).1 ∧
          ∀ other, other ≠ op.token → readerAt (server'.db (RwLock.keys ⟨space, 0⟩ name).2) other =
            readerAt (s.server.db (RwLock.keys ⟨space, 0⟩ name).2) other) := by
  have h : Guarded (RwLock.keys ⟨space, 0⟩ name).1 (RwLock.keys ⟨space, 0⟩ name).2 s.server s.leases :=
    Steps.invariant (p := fun _ s => Guarded _ _ s.server s.leases) (guarded_empty hw hr)
      (fun _ h hs => h.step hs) run
  refine ⟨fun token other => h.writer.eq_of_runs, h.exclusive, fun token expiry he hlt => ?_,
    fun op exact => ?_⟩
  · obtain ⟨members, deadline, hdb, -, hmem, hruns⟩ := h.readers
    have hin := hruns token expiry he hlt
    exact ⟨members, deadline, hdb.trans (sortedSet_of_ne_nil (List.ne_nil_of_mem hin) _), hin, (hmem _ hin).1⟩
  · obtain ⟨output, server', ha⟩ := answered h numbers op exact
    exact ⟨output, server', ha.exec, ha.output, ha.stale⟩

section Examples

variable {numbers : LuaNumbers} {allowed : ℕ → LeaseOp → Prop} {s : Shared}

theorem LeaseStep.of_pass (clock : ℕ) (h : s.server.clock ≤ clock) :
    LeaseStep numbers allowed "jobs" [] s (.pass clock) ⟨s.server.advance clock, s.leases⟩ := .pass h

/-- A query with a known output. -/
theorem LeaseStep.of_output (op : LeaseOp) (output : Bool) (ha : allowed s.server.now op)
    (h : (op.exec numbers "jobs" [] s.server).1.toOption = some output) :
    LeaseStep numbers allowed "jobs" [] s (.query op)
      ⟨(op.exec numbers "jobs" [] s.server).2, op.record s.server.now s.leases output⟩ := by
  refine .query ha (Prod.ext ?_ rfl)
  cases he : (op.exec numbers "jobs" [] s.server).1 with
  | error error =>
    rw [he] at h
    cases h
  | ok found =>
    rw [he] at h
    exact congrArg Except.ok (Option.some.inj h)

/-- Two readers take leases of 5 ms and 9 ms. After 6 ms the first lease has run out, the second reader
releases its own, and a writer takes a lease of 7 ms: it runs alone, and neither reader is let back. -/
theorem rwLock_exclusion_writer : ∃ s server',
    Steps (LeaseStep .doubles (fun now op => op.Exact now) "jobs" []) ⟨⟨0, fun _ => none⟩, .empty⟩
      [.query (.tryRead 5000000 [1]), .query (.tryRead 9000000 [2]), .pass 6000, .query (.releaseRead [2]),
        .query (.tryWrite 7000000 [3])] s ∧
      s.leases.writeRuns s.server.now [3] = true ∧ s.leases.readRuns s.server.now [2] = false ∧
      (LeaseOp.extendRead 5000000 [1]).exec .doubles "jobs" [] s.server = (.ok false, server') := by
  have h1 : Steps (LeaseStep .doubles (fun now op => op.Exact now) "jobs" []) ⟨⟨0, fun _ => none⟩, .empty⟩
      [.query (.tryRead 5000000 [1])] _ :=
    Steps.nil.snoc (.of_output _ true (by decide : 0 + millis 5000000 < 2 ^ 53) (by decide +kernel))
  have h2 := h1.snoc (.of_output (.tryRead 9000000 [2]) true
    (by decide : 0 + millis 9000000 < 2 ^ 53) (by decide +kernel))
  have h3 := h2.snoc (.of_pass 6000 (by decide +kernel))
  have h4 := h3.snoc (.of_output (.releaseRead [2]) true (by decide : 6 < 2 ^ 53)
    (by decide +kernel))
  have h5 := h4.snoc (.of_output (.tryWrite 7000000 [3]) true
    (by decide : 6 < 2 ^ 53 ∧ 6 + millis 7000000 < 2 ^ 63) (by decide +kernel))
  obtain ⟨-, hreads, -, hops⟩ := rwLock_exclusion .doubles "jobs" [] rfl rfl h5
  obtain ⟨output, server', hexec, houtput, -⟩ := hops (.extendRead 5000000 [1])
    (by decide : 6 + millis 5000000 < 2 ^ 53)
  refine ⟨_, server', h5, by decide +kernel, hreads [3] [2] (by decide +kernel), ?_⟩
  have hstale : output = false := (houtput rfl).trans (by decide +kernel)
  rw [hexec, hstale]

/-- **A lease that ends at a number that is not exact ends too early.** The reader's lease runs to the
millisecond 2^54 + 1, its score is 2^54. -/
theorem rwLock_rounded : ∃ s,
    Steps (LeaseStep .doubles (fun now op => op.InRange now) "jobs" []) ⟨⟨1000, fun _ => none⟩, .empty⟩
      [.query (.tryRead (2 ^ 54 * 10 ^ 6) [1]), .pass (2 ^ 54 * 1000), .query (.tryWrite 5000000 [2])] s ∧
      s.leases.readRuns s.server.now [1] = true ∧ s.leases.writeRuns s.server.now [2] = true := by
  have h1 : Steps (LeaseStep .doubles (fun now op => op.InRange now) "jobs" []) ⟨⟨1000, fun _ => none⟩, .empty⟩
      [.query (.tryRead (2 ^ 54 * 10 ^ 6) [1])] _ :=
    Steps.nil.snoc (.of_output _ true (by decide +kernel : 1 + millis (2 ^ 54 * 10 ^ 6) < 2 ^ 63)
      (by decide +kernel))
  have h2 := h1.snoc (.of_pass (2 ^ 54 * 1000) (by decide +kernel))
  have h3 := h2.snoc (.of_output (.tryWrite 5000000 [2]) true
    (by decide +kernel : 2 ^ 54 + millis 5000000 < 2 ^ 63) (by decide +kernel))
  exact ⟨_, h3, by decide +kernel, by decide +kernel⟩

end Examples

end Wakuwaku.Entity.Redis.Collection
