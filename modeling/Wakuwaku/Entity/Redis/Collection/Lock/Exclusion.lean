import Wakuwaku.Redis.Register
import Wakuwaku.Entity.Redis.Collection.Lock

/-! # Locks exclude

The key of a lock is a register of tokens (`LockOp.sound`): it holds the token of the lease that runs. Any
number of clients try, extend and release the lock of one name while time passes. What they were output
says which leases run, and the register agrees with it (`Agrees`), so at most one lease runs, a free lock is
granted, and a token whose lease has run out does no harm (`lock_exclusion`). -/

namespace Wakuwaku.Entity.Redis.Collection

open Wakuwaku.Redis Wakuwaku.Entity.Redis

/-! ### The queries of a lock -/

/-- A query of a client, on a lock with leases of `ttl`. -/
inductive LockOp where
  | tryLock (ttl : ℕ) (token : Bytes)
  | extend (ttl : ℕ) (token : Bytes)
  | release (token : Bytes)

/-- The key of the lock of `name`. -/
def lockKey (space : String) (name : Bytes) : Bytes := itemKey "Lock" space name

namespace LockOp

/-- Whether the lock was granted, or the output of the query. -/
def exec (space : String) (name : Bytes) : LockOp → Command Bool
  | tryLock ttl token => do return (← Lock.tryLock ⟨space, ttl⟩ name token).isSome
  | extend ttl token => LockToken.extend ⟨lockKey space name, token, ttl⟩
  | release token => LockToken.release ⟨lockKey space name, token, 0⟩

/-- Redis accepts the TTL. -/
def InRange (now : ℕ) : LockOp → Prop
  | tryLock ttl _ | extend ttl _ => now + millis ttl < 2 ^ 63
  | release _ => True

/-- The output, from the token whose lease runs. -/
def output : LockOp → Option Bytes → Bool
  | tryLock _ _, held => held.isNone
  | extend _ token, held | release token, held => held = some token

/-- The lease after a query that outputs `true`. -/
def lease (now : ℕ) : LockOp → Register Bytes
  | tryLock ttl token | extend ttl token => some (token, now + millis ttl)
  | release _ => none

/-- The register after the query. -/
def after (op : LockOp) (now : ℕ) (register : Register Bytes) : Register Bytes :=
  if op.output (register.read now) then op.lease now else register

/-- The queries of a lock, and of a register of tokens. -/
def queries (space : String) (name : Bytes) : Register.Queries Bytes LockOp Bool where
  exec := exec space name
  Allowed := InRange
  answer op held := .ok (op.output held)
  after := after

end LockOp

variable {server : Server} {register : Register Bytes} {space : String} {name : Bytes}

theorem tryLock_of_set (lock : Lock) {token : Bytes} {acquired : Bool} {server' : Server}
    (h : setNxPx (lockKey lock.space name) token (millis lock.ttl) server = (.ok acquired, server')) :
    lock.tryLock name token server =
      (.ok (if acquired then some ⟨lockKey lock.space name, token, lock.ttl⟩ else none), server') :=
  Command.bind_of_ok h

/-- What a query does if the key is the register. -/
theorem LockOp.exec_of_at (op : LockOp) (h : Register.At .string (lockKey space name) server register)
    (hrange : op.InRange server.now) : op.exec space name server = (.ok (op.output (register.read server.now)),
      if op.output (register.read server.now) then server.put (lockKey space name)
        ((op.lease server.now).map fun entry => ⟨.string entry.1, some entry.2⟩)
      else server) := by
  cases hr : register.read server.now with
  | none =>
    have hdb := h.db_of_none hr
    cases op with
    | tryLock ttl token =>
      have hset := setNxPx_of_none token hdb (millis_pos ttl) hrange
      exact Command.bind_of_ok (tryLock_of_set ⟨space, ttl⟩ hset)
    | extend ttl token => exact Command.bind_of_ok (extendScript_of_none hdb)
    | release token => exact Command.bind_of_ok (releaseScript_of_none hdb)
  | some held =>
    obtain ⟨deadline, -, -, hdb⟩ := h.db_of_some hr
    cases op with
    | tryLock ttl token =>
      have hset := setNxPx_of_some token hdb (millis_pos ttl) hrange
      exact Command.bind_of_ok (tryLock_of_set ⟨space, ttl⟩ hset)
    | extend ttl token =>
      have hscript := extendScript_of_string token hdb (millis_pos ttl) hrange
      by_cases hheld : held = token
      · rw [if_pos hheld] at hscript
        subst hheld
        simp only [output, decide_true, if_true]
        exact Command.bind_of_ok hscript
      · rw [if_neg hheld] at hscript
        simp only [output, Option.some.injEq, decide_eq_false hheld]
        exact Command.bind_of_ok hscript
    | release token =>
      have hscript := releaseScript_of_string token hdb
      by_cases hheld : held = token
      · rw [if_pos hheld] at hscript
        subst hheld
        simp only [output, decide_true, if_true]
        exact Command.bind_of_ok hscript
      · rw [if_neg hheld] at hscript
        simp only [output, Option.some.injEq, decide_eq_false hheld]
        exact Command.bind_of_ok hscript

theorem LockOp.sound (space : String) (name : Bytes) :
    (LockOp.queries space name).Sound .string (lockKey space name) := by
  intro op server register h hrange
  have hexec := op.exec_of_at h hrange
  rw [show (LockOp.queries space name).exec op server = _ from hexec]
  refine ⟨rfl, ?_⟩
  show Register.At _ _ _ (op.after server.now register)
  unfold LockOp.after
  by_cases ho : op.output (register.read server.now) = true
  · rw [if_pos ho, if_pos ho]
    cases op with
    | tryLock ttl token => exact Register.at_put _ _ token (Nat.le_add_right _ _)
    | extend ttl token => exact Register.at_put _ _ token (Nat.le_add_right _ _)
    | release token => exact Register.at_put_none _ _ _
  · rw [if_neg ho, if_neg ho]
    exact h

/-! ### What the clients know -/

/-- The server, and the time until which each token's lease runs, from what the queries output. The tokens
are random, so each is one client's. -/
structure Locking where
  server : Server
  leases : Bytes → Option ℕ

/-- Whether the lease of a token runs. Its key outlives the millisecond of the deadline. -/
def Locking.Runs (s : Locking) (token : Bytes) : Prop :=
  ∃ deadline, s.leases token = some deadline ∧ s.server.now ≤ deadline

/-- When a query outputs `true`. -/
def LockOp.Succeeds (s : Locking) : LockOp → Prop
  | .tryLock _ _ => ∀ token, ¬ s.Runs token
  | .extend _ token | .release token => s.Runs token

/-- The leases after an output. -/
def LockOp.record (now : ℕ) (leases : Bytes → Option ℕ) : LockOp → Bool → Bytes → Option ℕ
  | .tryLock ttl token, true | .extend ttl token, true => Function.update leases token (some (now + millis ttl))
  | .release token, true => Function.update leases token none
  | _, false => leases

/-- Time passes, or a client queries. -/
inductive LockStep (space : String) (name : Bytes) : Locking → Beat LockOp → Locking → Prop
  | pass {s : Locking} (clock : ℕ) (h : s.server.clock ≤ clock) :
    LockStep space name s (.pass clock) ⟨s.server.advance clock, s.leases⟩
  | query {s : Locking} {op : LockOp} {output : Bool} {server : Server} (range : op.InRange s.server.now)
    (h : op.exec space name s.server = (.ok output, server)) :
    LockStep space name s (.query op) ⟨server, op.record s.server.now s.leases output⟩

/-- The register holds the lease that runs. -/
structure Agrees (space : String) (name : Bytes) (s : Locking) (register : Register Bytes) : Prop where
  key : Register.At .string (lockKey space name) s.server register
  lease : ∀ token deadline, s.server.now ≤ deadline →
    (s.leases token = some deadline ↔ register = some (token, deadline))

variable {s s' : Locking}

theorem Agrees.runs_iff (h : Agrees space name s register) (token : Bytes) :
    s.Runs token ↔ register.read s.server.now = some token := by
  rw [Register.read_eq_some]
  constructor
  · rintro ⟨deadline, hl, hle⟩
    exact ⟨deadline, (h.lease token deadline hle).mp hl, hle⟩
  · rintro ⟨deadline, hr, hle⟩
    exact ⟨deadline, (h.lease token deadline hle).mpr hr, hle⟩

/-- A query that outputs `true` replaces the lease that runs, which is no other client's. -/
theorem Agrees.record (h : Agrees space name s register) (op : LockOp)
    (ho : op.output (register.read s.server.now) = true) (token : Bytes) (deadline : ℕ)
    (hle : s.server.now ≤ deadline) : op.record s.server.now s.leases true token = some deadline ↔
      op.lease s.server.now = some (token, deadline) := by
  -- no lease runs but that of the token of the query
  have hother : ∀ other, (∀ held, register.read s.server.now = some held → held = other) → token ≠ other →
      s.leases token ≠ some deadline := by
    intro other hheld hne hl
    exact hne (hheld token ((h.runs_iff token).mp ⟨deadline, hl, hle⟩))
  cases op with
  | tryLock ttl asked =>
    have hnone : register.read s.server.now = none := Option.isNone_iff_eq_none.mp ho
    by_cases ht : token = asked
    · subst ht
      simp [LockOp.record, LockOp.lease]
    · have hfree := hother asked (by simp [hnone]) ht
      simp [LockOp.record, LockOp.lease, Function.update_of_ne ht, hfree, Ne.symm ht]
  | extend ttl asked =>
    have hheld : register.read s.server.now = some asked := of_decide_eq_true ho
    by_cases ht : token = asked
    · subst ht
      simp [LockOp.record, LockOp.lease]
    · have hfree := hother asked (by simp [hheld]) ht
      simp [LockOp.record, LockOp.lease, Function.update_of_ne ht, hfree, Ne.symm ht]
  | release asked =>
    have hheld : register.read s.server.now = some asked := of_decide_eq_true ho
    by_cases ht : token = asked
    · subst ht
      simp [LockOp.record, LockOp.lease]
    · have hfree := hother asked (by simp [hheld]) ht
      simp [LockOp.record, LockOp.lease, Function.update_of_ne ht, hfree]

/-- What one step preserves. -/
theorem Agrees.step {beat : Beat LockOp} (h : Agrees space name s register) (hs : LockStep space name s beat s') :
    ∃ register, Agrees space name s' register := by
  cases hs with
  | pass clock hclock =>
    have hnow : s.server.now ≤ clock / 1000 := Nat.div_le_div_right hclock
    exact ⟨register, h.key.advance hclock, fun token deadline hle => h.lease token deadline (hnow.trans hle)⟩
  | @query op output server range hexec =>
    obtain ⟨hanswer, hat⟩ := LockOp.sound space name op s.server register h.key range
    rw [show (LockOp.queries space name).exec op s.server = _ from hexec] at hanswer hat
    have hclock := op.exec_of_at h.key range
    rw [hexec] at hclock
    obtain ⟨houtput, hserver⟩ := Prod.mk.inj hclock
    obtain rfl := Except.ok.inj houtput
    have hnow : server.now = s.server.now := by
      rw [hserver]
      split <;> rfl
    refine ⟨op.after s.server.now register, hat, fun token deadline hle => ?_⟩
    replace hle : s.server.now ≤ deadline := hnow ▸ hle
    unfold LockOp.after
    cases ho : op.output (register.read s.server.now) with
    | true =>
      rw [if_pos rfl]
      exact h.record op ho token deadline hle
    | false =>
      have hsame : op.record s.server.now s.leases false = s.leases := by cases op <;> rfl
      rw [if_neg Bool.false_ne_true]
      show op.record s.server.now s.leases false token = _ ↔ _
      rw [hsame]
      exact h.lease token deadline hle

/-- **A lock excludes.** In every state of a run from an absent key at most one token's lease runs. An
attempt outputs whether no lease runs, an extension or a release whether the lease of its token does, and
a query that outputs `false` changes nothing. -/
theorem lock_exclusion (space : String) (name : Bytes) {beats : List (Beat LockOp)} {s : Locking}
    (habsent : server.db (lockKey space name) = none)
    (run : Steps (LockStep space name) ⟨server, fun _ => none⟩ beats s) :
    (∀ token other, s.Runs token → s.Runs other → token = other) ∧
    ∀ op : LockOp, op.InRange s.server.now → ∃ output server', op.exec space name s.server = (.ok output, server') ∧
      (output = true ↔ op.Succeeds s) ∧ (output = false → server' = s.server) := by
  obtain ⟨register, h⟩ : ∃ register, Agrees space name s register := by
    refine Steps.invariant (p := fun _ s => ∃ register, Agrees space name s register)
      ⟨none, Register.at_none habsent, by simp⟩ ?_ run
    rintro t s e s' _ ⟨register, h⟩ hs
    exact h.step hs
  refine ⟨fun token other ht ho => ?_, fun op range => ⟨_, _, op.exec_of_at h.key range, ?_, ?_⟩⟩
  · rw [h.runs_iff] at ht ho
    exact Option.some.inj (ht.symm.trans ho)
  · cases op with
    | tryLock ttl token => simp [LockOp.output, LockOp.Succeeds, h.runs_iff, Option.eq_none_iff_forall_ne_some]
    | extend ttl token => simp [LockOp.output, LockOp.Succeeds, h.runs_iff]
    | release token => simp [LockOp.output, LockOp.Succeeds, h.runs_iff]
  · intro hfalse
    rw [if_neg (by simp [hfalse])]

/-- A lock that is held for 5 ms is not granted again before. -/
theorem lock_exclusion_held : ∃ s server', Steps (LockStep "jobs" []) ⟨⟨0, fun _ => none⟩, fun _ => none⟩
      [.query (.tryLock 5000000 [1])] s ∧ s.Runs [1] ∧
    (LockOp.tryLock 5000000 [2]).exec "jobs" [] s.server = (.ok false, server') := by
  have hrange : LockOp.InRange 0 (.tryLock 5000000 [1]) := by
    show 0 + millis 5000000 < 2 ^ 63
    decide
  have hat : Register.At .string (lockKey "jobs" []) ⟨0, fun _ => none⟩ none := Register.at_none rfl
  have hexec := (LockOp.tryLock 5000000 [1]).exec_of_at hat hrange
  have run := Steps.single (LockStep.query (s := ⟨⟨0, fun _ => none⟩, fun _ => none⟩) hrange hexec)
  have hlease : (LockOp.tryLock 5000000 [1]).record 0 (fun _ => none) true [1] = some 5 := by decide
  have hruns : ∀ server : Server, server.now = 0 →
      Locking.Runs ⟨server, (LockOp.tryLock 5000000 [1]).record 0 (fun _ => none) true⟩ [1] :=
    fun _ h => ⟨5, hlease, h.le.trans (Nat.zero_le 5)⟩
  obtain ⟨-, h⟩ := lock_exclusion "jobs" [] rfl run
  obtain ⟨output, server', hexec', houtput, -⟩ := h (.tryLock 5000000 [2]) hrange
  cases output with
  | false => exact ⟨_, server', run, hruns _ rfl, hexec'⟩
  | true => exact absurd (hruns _ rfl) (houtput.mp rfl [1])

end Wakuwaku.Entity.Redis.Collection
