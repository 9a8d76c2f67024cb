import Wakuwaku.Redis.Numbers
import Wakuwaku.Entity.Redis.Keys
import Mathlib.Data.Rat.Floor
import Mathlib.Tactic.Positivity
import Mathlib.Tactic.Linarith
import Mathlib.Tactic.Ring
import Mathlib.Tactic.FieldSimp

/-! # A rate limiter based on token buckets

A bucket is a hash with its tokens and the millisecond they were counted at. The script `ACQUIRE`
refills it by the server clock, takes what is asked for if there is as much, and lets the key expire
once the bucket would be full again. Its arithmetic is exact here, and so are the texts it stores
numbers as. What it passes to `PEXPIRE` has the text of a number of Lua. -/

namespace Wakuwaku.Entity.Redis.Collection

open Wakuwaku.Redis Wakuwaku.Entity.Redis

/-- How Lua writes and reads a number, without loss. -/
structure NumberText where
  text : ℚ → Bytes
  tonumber : Bytes → Option ℚ
  tonumber_text : ∀ q, 0 ≤ q → tonumber (text q) = some q

/-- How fast a bucket refills: `tokens` every `period`, in nanoseconds. -/
structure Rate where
  tokens : ℕ
  period : ℕ
  tokens_pos : 0 < tokens

def Rate.periodMicros (rate : Rate) : ℕ := max (min (rate.period / 1000) (2 ^ 64 - 1)) 1

/-- Buckets in a namespace holding up to `capacity` tokens and refilled at `rate`. -/
structure TokenBucket where
  space : String
  capacity : ℕ
  rate : Rate

def TokenBucket.key (bucket : TokenBucket) (name : Bytes) : Bytes :=
  itemKey "TokenBucket" bucket.space name

/-- Output of an acquisition. -/
inductive Admission where
  | allowed (remaining : ℕ)
  /-- With the time in milliseconds until there are enough tokens, if there will ever be. -/
  | denied (retryAfter : Option ℕ)
  deriving DecidableEq, Repr

/-- Field of a bucket with its tokens. -/
def tokensField : Bytes := asBytes "tokens"

/-- Field of a bucket with the time of its tokens. -/
def tsField : Bytes := asBytes "ts"

/-- The tokens and the time that the fields hold, those of a full bucket if one is missing. -/
def readBucket (nums : NumberText) (capacity now : ℚ) : List (Option Bytes) → ℚ × ℚ
  | [some tokens, some ts] =>
    match nums.tonumber tokens, nums.tonumber ts with
    | some tokens, some ts => (tokens, ts)
    | _, _ => (capacity, now)
  | _ => (capacity, now)

/-- The end of `ACQUIRE`: stores the tokens and expires the key once it would be full. -/
def storeBucket (nums : NumberText) (key : Bytes) (capacity refill periodUs tokens now : ℚ) : Command Unit := do
  exec (hset key [(tokensField, nums.text tokens), (tsField, nums.text now)])
  let untilFull := ⌈(capacity - tokens) * periodUs / refill / 1000⌉
  let _ ← pexpireText key (numberText (max untilFull 1).toNat)

/-- `ACQUIRE`: takes `cost` tokens from the bucket `key` of a capacity, refilled with `refill` tokens
every `periodUs` µs. Returns `{allowed, retry_after_ms, remaining}`. -/
def acquireScript (nums : NumberText) (key : Bytes) (capacity refill periodUs cost : ℚ) :
    Command (Int × Int × Int) := do
  let now ← luaNow
  let state ← exec (hmget key [tokensField, tsField])
  let (tokens, ts) := readBucket nums capacity now state
  let elapsedUs := max (now - ts) 0 * 1000
  let tokens := min capacity (tokens + elapsedUs * refill / periodUs)
  if cost > capacity then
    return (0, -1, ⌊tokens⌋)
  else if tokens ≥ cost then
    storeBucket nums key capacity refill periodUs (tokens - cost) now
    return (1, 0, ⌊tokens - cost⌋)
  else
    storeBucket nums key capacity refill periodUs tokens now
    return (0, ⌈(cost - tokens) * periodUs / refill / 1000⌉, ⌊tokens⌋)

/-- Take `cost` tokens from the bucket of `name`, if it holds that many. -/
def TokenBucket.acquire (nums : NumberText) (bucket : TokenBucket) (name : Bytes) (cost : ℕ) :
    Command Admission := do
  let (allowed, retryAfter, remaining) ← acquireScript nums (bucket.key name) bucket.capacity
    bucket.rate.tokens bucket.rate.periodMicros cost
  return if allowed = 1 then .allowed remaining.toNat
    else .denied (if 0 ≤ retryAfter then some retryAfter.toNat else none)

/-- Refill the bucket of `name`. Outputs whether it had been used. -/
def TokenBucket.reset (bucket : TokenBucket) (name : Bytes) : Command Bool := do
  let removed ← del (bucket.key name)
  return removed > 0

/-! ### What an acquisition does -/

/-- The tokens that are refilled every millisecond. -/
def TokenBucket.perMilli (bucket : TokenBucket) : ℚ :=
  bucket.rate.tokens * 1000 / bucket.rate.periodMicros

/-- What is stored at a key holds so many tokens at a millisecond. -/
def Level (nums : NumberText) (bucket : TokenBucket) (stored : Option Stored) (now : ℕ) (level : ℚ) : Prop :=
  (stored = none ∧ level = bucket.capacity) ∨
  ∃ (fields : Bytes → Option Bytes) (expires : Option ℕ) (tokens : ℚ) (ts : ℕ),
    stored = some ⟨.hash fields, expires⟩ ∧ fields tokensField = some (nums.text tokens) ∧
    fields tsField = some (nums.text ts) ∧ 0 ≤ tokens ∧ tokens ≤ bucket.capacity ∧ ts ≤ now ∧
    level = min (bucket.capacity : ℚ) (tokens + (now - ts) * bucket.perMilli)

/-- Whether the tokens were taken. -/
def admitted : Except Error Admission → Bool
  | .ok (.allowed _) => true
  | _ => false

variable {nums : NumberText} {bucket : TokenBucket} {server : Server} {level : ℚ} {now : ℕ}
  {stored : Option Stored}

theorem periodMicros_pos (rate : Rate) : (0 : ℚ) < rate.periodMicros := by
  refine Nat.cast_pos.mpr ?_
  unfold Rate.periodMicros
  omega

theorem perMilli_pos (bucket : TokenBucket) : 0 < bucket.perMilli := by
  have htokens : (0 : ℚ) < bucket.rate.tokens := Nat.cast_pos.mpr bucket.rate.tokens_pos
  have hperiod := periodMicros_pos bucket.rate
  unfold TokenBucket.perMilli
  positivity

theorem Level.le (h : Level nums bucket stored now level) : level ≤ bucket.capacity := by
  rcases h with ⟨-, rfl⟩ | ⟨fields, expires, tokens, ts, -, -, -, -, -, -, rfl⟩
  · exact le_refl _
  · exact min_le_left _ _

theorem Level.nonneg (h : Level nums bucket stored now level) : 0 ≤ level := by
  rcases h with ⟨-, rfl⟩ | ⟨fields, expires, tokens, ts, -, -, -, htokens, -, hts, rfl⟩
  · exact Nat.cast_nonneg _
  · have hrate := perMilli_pos bucket
    have hcast : (ts : ℚ) ≤ now := Nat.cast_le.mpr hts
    have helapsed : 0 ≤ ((now : ℚ) - ts) * bucket.perMilli := mul_nonneg (by linarith) hrate.le
    exact le_min (Nat.cast_nonneg _) (by linarith)

/-- The tokens that the script counts. -/
theorem exists_read {key : Bytes} (h : Level nums bucket (server.db key) server.now level) :
    ∃ state, exec (hmget key [tokensField, tsField]) server = (.ok state, server) ∧
      min (bucket.capacity : ℚ) ((readBucket nums bucket.capacity server.now state).1 +
        max (server.now - (readBucket nums bucket.capacity server.now state).2) 0 * 1000 *
          bucket.rate.tokens / bucket.rate.periodMicros) = level := by
  rcases h with ⟨hnone, rfl⟩ | ⟨fields, expires, tokens, ts, hsome, hf, ht, htokens, -, hts, rfl⟩
  · have hkeys : server.keys key = none := by
      unfold Server.keys
      rw [hnone]
      rfl
    refine ⟨_, exec_of_read (hmget_of_none _ hkeys), ?_⟩
    simp [readBucket]
  · have hkeys : server.keys key = some (.hash fields) := by
      unfold Server.keys
      rw [hsome]
      rfl
    refine ⟨_, exec_of_read (hmget_of_hash _ hkeys), ?_⟩
    have hcast : (ts : ℚ) ≤ server.now := Nat.cast_le.mpr hts
    have hread : readBucket nums bucket.capacity server.now ([tokensField, tsField].map fields) =
        (tokens, (ts : ℚ)) := by
      simp only [List.map_cons, List.map_nil, hf, ht, readBucket, nums.tonumber_text _ htokens,
        nums.tonumber_text _ (Nat.cast_nonneg ts)]
    rw [hread, max_eq_left (by linarith : (0 : ℚ) ≤ server.now - ts)]
    unfold TokenBucket.perMilli
    congr 2
    ring

theorem tokensField_ne : tokensField ≠ tsField := by decide

/-- The fields that the script writes. -/
def bucketFields (tokens ts : Bytes) (fields : Bytes → Option Bytes) : Bytes → Option Bytes :=
  Function.update (Function.update fields tokensField (some tokens)) tsField (some ts)

theorem exists_hset {key : Bytes} (tokens ts : Bytes)
    (h : Level nums bucket (server.db key) server.now level) : ∃ fields,
      exec (hset key [(tokensField, tokens), (tsField, ts)]) server = (.ok (), server.put key
        (some ⟨.hash (bucketFields tokens ts fields), deadlineOf (server.db key)⟩)) := by
  rcases h with ⟨hnone, -⟩ | ⟨fields, expires, _, _, hsome, -⟩
  · have hkeys : server.keys key = none := by
      unfold Server.keys
      rw [hnone]
      rfl
    exact ⟨_, exec_of_put (hset_of_none _ hkeys)⟩
  · have hkeys : server.keys key = some (.hash fields) := by
      unfold Server.keys
      rw [hsome]
      rfl
    exact ⟨_, exec_of_put (hset_of_hash _ hkeys)⟩

/-- Fields just written are at the level they hold. -/
theorem level_of_fields {left : ℚ} (hleft : 0 ≤ left) (hle : left ≤ bucket.capacity)
    (fields : Bytes → Option Bytes) (expires : Option ℕ) : Level nums bucket
      (some ⟨.hash (bucketFields (nums.text left) (nums.text now) fields), expires⟩) now left := by
  refine Or.inr ⟨_, expires, left, now, rfl, ?_, Function.update_self _ _ _, hleft, hle, le_refl _, ?_⟩
  · exact (Function.update_of_ne tokensField_ne _ _).trans (Function.update_self _ _ _)
  · rw [sub_self, zero_mul, add_zero, min_eq_right hle]

/-- The time until a bucket is full, rounded up, refills what it lacks. -/
theorem le_of_untilFull {refill period : ℚ} (hrefill : 0 < refill) (hperiod : 0 < period)
    (capacity left : ℚ) :
    capacity ≤ left + refill * 1000 / period *
      ((max ⌈(capacity - left) * period / refill / 1000⌉ 1).toNat : ℚ) := by
  have hmul : refill * 1000 / period * ((capacity - left) * period / refill / 1000) = capacity - left := by
    field_simp
  have hceil : (capacity - left) * period / refill / 1000 ≤
      ((max ⌈(capacity - left) * period / refill / 1000⌉ 1).toNat : ℚ) := by
    have hint : ⌈(capacity - left) * period / refill / 1000⌉ ≤
        ((max ⌈(capacity - left) * period / refill / 1000⌉ 1).toNat : ℤ) := by omega
    exact (Int.le_ceil _).trans (by exact_mod_cast hint)
  have hle := mul_le_mul_of_nonneg_left hceil (by positivity : 0 ≤ refill * 1000 / period)
  rw [hmul] at hle
  linarith

/-- Milliseconds until a bucket with so many tokens is full, as the script counts them. -/
def TokenBucket.untilFull (bucket : TokenBucket) (left : ℚ) : ℕ :=
  (max ⌈(bucket.capacity - left) * bucket.rate.periodMicros / bucket.rate.tokens / 1000⌉ 1).toNat

/-- Redis takes the time until a bucket with so many tokens is full: its text has no exponent, and the
deadline is in range. -/
def TokenBucket.Expires (bucket : TokenBucket) (now : ℕ) (left : ℚ) : Prop :=
  bucket.untilFull left < 10 ^ 17 ∧ ¬ outOfRange now (bucket.untilFull left)

instance (bucket : TokenBucket) (now : ℕ) (left : ℚ) : Decidable (bucket.Expires now left) :=
  inferInstanceAs (Decidable (_ ∧ _))

theorem expires_iff (now : ℕ) (left : ℚ) :
    bucket.Expires now left ↔ ¬ expiryRefused now (numberText (bucket.untilFull left)) := by
  rw [expiryRefused_numberText, not_or, Nat.not_le, TokenBucket.Expires]

/-- **The end of the script stores the tokens**, and sets the deadline if Redis takes the time. -/
theorem storeBucket_spec {key : Bytes} {left : ℚ} (h : Level nums bucket (server.db key) server.now level)
    (hleft : 0 ≤ left) (hle : left ≤ bucket.capacity) : ∃ result server',
      storeBucket nums key bucket.capacity bucket.rate.tokens bucket.rate.periodMicros left server.now server =
        (result, server') ∧ server'.clock = server.clock ∧
      Level nums bucket (server'.db key) server.now left ∧
      ((result = .ok () ∧ bucket.Expires server.now left ∧
          ∃ deadline, deadlineOf (server'.db key) = some deadline ∧
            (bucket.capacity : ℚ) ≤ left + bucket.perMilli * (deadline - server.now)) ∨
        (∃ error, result = .error error) ∧ ¬ bucket.Expires server.now left ∧
          deadlineOf (server'.db key) = deadlineOf (server.db key)) := by
  obtain ⟨fields, hset⟩ := exists_hset (nums.text left) (nums.text server.now) h
  generalize hserver : server.put key _ = stored at hset
  have hdb : stored.db key = some ⟨.hash (bucketFields (nums.text left) (nums.text server.now) fields),
      deadlineOf (server.db key)⟩ := by rw [← hserver, Server.db_put_self]
  have hnow : stored.now = server.now := by rw [← hserver, Server.now_put]
  have hclock : stored.clock = server.clock := by rw [← hserver, Server.clock_put]
  have hfull := le_of_untilFull (Nat.cast_pos.mpr bucket.rate.tokens_pos)
    (periodMicros_pos bucket.rate) bucket.capacity left
  have hstore : storeBucket nums key bucket.capacity bucket.rate.tokens bucket.rate.periodMicros left server.now
      server = (do let _ ← pexpireText key (numberText (bucket.untilFull left)) : Command Unit) stored :=
    Command.bind_of_ok hset
  have hpos : 0 < bucket.untilFull left := by
    unfold TokenBucket.untilFull
    omega
  rw [hstore]
  by_cases hexpires : bucket.Expires server.now left
  · have htext : numberText (bucket.untilFull left) = decimal (bucket.untilFull left) := if_pos hexpires.1
    have hexpire := pexpire_of_some hdb hpos (hnow.symm ▸ Nat.not_le.mp hexpires.2)
    rw [htext, pexpireText_decimal (hexpires.1.trans (by decide))]
    refine ⟨.ok (), _, Command.bind_of_ok hexpire, hclock, ?_,
      Or.inl ⟨rfl, hexpires, stored.now + bucket.untilFull left, ?_, ?_⟩⟩
    · rw [Server.db_put_self]
      exact level_of_fields hleft hle _ _
    · rw [Server.db_put_self]
      rfl
    · rw [hnow, Nat.cast_add, add_sub_cancel_left]
      exact hfull
  · have hrefused : expiryRefused stored.now (numberText (bucket.untilFull left)) :=
      hnow.symm ▸ not_not.mp (mt (expires_iff _ _).mpr hexpires)
    obtain ⟨error, hexpire⟩ := pexpireText_of_refused key hrefused
    refine ⟨.error error, stored, Command.bind_of_error hexpire, hclock, ?_,
      Or.inr ⟨⟨error, rfl⟩, hexpires, ?_⟩⟩
    · rw [hdb]
      exact level_of_fields hleft hle _ _
    · rw [hdb]
      rfl

/-- The script once it has counted the tokens. -/
theorem acquireScript_of_level {key : Bytes} (cost : ℚ)
    (h : Level nums bucket (server.db key) server.now level) :
    acquireScript nums key bucket.capacity bucket.rate.tokens bucket.rate.periodMicros cost server =
      (if cost > bucket.capacity then return (0, -1, ⌊level⌋)
      else if level ≥ cost then do
        storeBucket nums key bucket.capacity bucket.rate.tokens bucket.rate.periodMicros (level - cost) server.now
        return (1, 0, ⌊level - cost⌋)
      else do
        storeBucket nums key bucket.capacity bucket.rate.tokens bucket.rate.periodMicros level server.now
        return (0, ⌈(cost - level) * bucket.rate.periodMicros / bucket.rate.tokens / 1000⌉, ⌊level⌋) :
          Command (Int × Int × Int)) server := by
  obtain ⟨state, hread, hlevel⟩ := exists_read h
  have hscript : acquireScript nums key bucket.capacity bucket.rate.tokens
      bucket.rate.periodMicros cost server = _ := Command.bind_of_ok luaNow_apply
  rw [Command.bind_of_ok hread] at hscript
  simp only [hlevel] at hscript
  exact hscript

/-- What an acquisition does to a bucket at a level. -/
inductive Acquired (nums : NumberText) (bucket : TokenBucket) (key : Bytes) (server : Server) (level cost : ℚ) :
    Except Error Admission → Server → Prop
  /-- The request is larger than the bucket. -/
  | refused {result} (hresult : admitted result = false) :
    Acquired nums bucket key server level cost result server
  | allowed {result server' deadline} (hresult : admitted result = true) (hcost : cost ≤ level)
    (hlevel : Level nums bucket (server'.db key) server.now (level - cost))
    (hdeadline : deadlineOf (server'.db key) = some deadline)
    (hfull : (bucket.capacity : ℚ) ≤ level - cost + bucket.perMilli * (deadline - server.now)) :
    Acquired nums bucket key server level cost result server'
  | denied {result server' left} (hresult : admitted result = false) (hleft : left ≤ level)
    (hlevel : Level nums bucket (server'.db key) server.now left)
    (hdeadline : ∀ deadline, deadlineOf (server'.db key) = some deadline →
      deadlineOf (server.db key) = some deadline ∨
        (bucket.capacity : ℚ) ≤ left + bucket.perMilli * (deadline - server.now)) :
    Acquired nums bucket key server level cost result server'

/-- **One acquisition.** -/
theorem acquired {name : Bytes} (cost : ℕ)
    (h : Level nums bucket (server.db (bucket.key name)) server.now level) :
    Acquired nums bucket (bucket.key name) server level cost (bucket.acquire nums name cost server).1
      (bucket.acquire nums name cost server).2 ∧
    (bucket.acquire nums name cost server).2.clock = server.clock := by
  have hscript := acquireScript_of_level (cost : ℚ) h
  by_cases hlarge : (cost : ℚ) > bucket.capacity
  · rw [if_pos hlarge, Command.pure_apply] at hscript
    unfold TokenBucket.acquire
    rw [Command.bind_of_ok hscript]
    exact ⟨.refused rfl, rfl⟩
  · rw [if_neg hlarge] at hscript
    by_cases hcost : level ≥ cost
    · rw [if_pos hcost] at hscript
      have hleft : 0 ≤ level - (cost : ℚ) := by linarith
      have hcap : level - (cost : ℚ) ≤ bucket.capacity := by
        have := h.le
        have : (0 : ℚ) ≤ cost := Nat.cast_nonneg _
        linarith
      obtain ⟨result, server', hstore, hclock, hlevel', hdone⟩ := storeBucket_spec h hleft hcap
      unfold TokenBucket.acquire
      rcases hdone with ⟨rfl, -, deadline, hdeadline, hfull⟩ | ⟨⟨error, rfl⟩, -, hdeadline⟩
      · rw [Command.bind_of_ok hstore, Command.pure_apply] at hscript
        rw [Command.bind_of_ok hscript]
        exact ⟨.allowed rfl hcost hlevel' hdeadline hfull, hclock⟩
      · rw [Command.bind_of_error hstore] at hscript
        rw [Command.bind_of_error hscript]
        refine ⟨.denied rfl ?_ hlevel' fun deadline hd => Or.inl (hdeadline ▸ hd), hclock⟩
        have : (0 : ℚ) ≤ cost := Nat.cast_nonneg _
        linarith
    · rw [if_neg hcost] at hscript
      obtain ⟨result, server', hstore, hclock, hlevel', hdone⟩ := storeBucket_spec h h.nonneg h.le
      unfold TokenBucket.acquire
      rcases hdone with ⟨rfl, -, deadline, hdeadline, hfull⟩ | ⟨⟨error, rfl⟩, -, hdeadline⟩
      · rw [Command.bind_of_ok hstore, Command.pure_apply] at hscript
        rw [Command.bind_of_ok hscript]
        refine ⟨.denied rfl (le_refl _) hlevel' fun d hd => Or.inr ?_, hclock⟩
        obtain rfl := Option.some.inj (hdeadline.symm.trans hd)
        exact hfull
      · rw [Command.bind_of_error hstore] at hscript
        rw [Command.bind_of_error hscript]
        exact ⟨.denied rfl (le_refl _) hlevel' fun deadline hd => Or.inl (hdeadline ▸ hd), hclock⟩

end Wakuwaku.Entity.Redis.Collection
