import Wakuwaku.Entity.Redis.Collection.RateLimit
import Mathlib.Algebra.Group.Nat.Defs

/-! # The bucket behind a rate limiter

What is stored is the level of an ideal bucket, which starts full, is refilled without end and does not
notice the requests it denies (`Tracks`): what a denial writes is the level of that time, and the key
expires when the ideal bucket is full. So the outcomes are those of the ideal bucket as long as the times
and the numbers that Redis has to take are in range (`ideal_iff`). -/

namespace Wakuwaku.Entity.Redis.Collection

open Wakuwaku.Redis Wakuwaku.Entity.Redis

/-! ### The query with the integers of a reply -/

/-- How Redis makes a signed 64-bit integer of a whole number that a script returns. -/
structure IntegerReply where
  toI64 : ℤ → ℤ
  exact : ∀ n, -2 ^ 63 ≤ n → n < 2 ^ 63 → toI64 n = n
  lt : ∀ n, toI64 n < 2 ^ 63

/-- Take `cost` tokens from the bucket of `name`, with the integers of the reply. -/
def TokenBucket.acquireWith (nums : NumberText) (reply : IntegerReply) (bucket : TokenBucket) (name : Bytes)
    (cost : ℕ) : Command Admission := do
  let (allowed, retryAfter, remaining) ← acquireScript nums (bucket.key name) bucket.capacity
    bucket.rate.tokens bucket.rate.periodMicros cost
  return if reply.toI64 allowed = 1 then .allowed (reply.toI64 remaining).toNat
    else .denied (if 0 ≤ reply.toI64 retryAfter then some (reply.toI64 retryAfter).toNat else none)

/-! ### Runs -/

/-- An acquisition: its millisecond, what it asked for and its output. -/
structure Call where
  time : ℕ
  cost : ℕ
  output : Except Error Admission

def Call.request (call : Call) : ℚ × ℚ := (call.time, call.cost)

/-- The server, and the acquisitions so far. -/
structure Served where
  server : Server
  calls : List Call

/-- Time passes, or a client acquires. -/
inductive ServeStep (nums : NumberText) (reply : IntegerReply) (bucket : TokenBucket) (name : Bytes) :
    Served → Turn → Served → Prop
  | pass {s clock} (h : s.server.clock ≤ clock) :
    ServeStep nums reply bucket name s (.pass clock) ⟨s.server.advance clock, s.calls⟩
  | acquire {s cost output server} (h : bucket.acquireWith nums reply name cost s.server = (output, server)) :
    ServeStep nums reply bucket name s (.acquire cost) ⟨server, s.calls ++ [⟨s.server.now, cost, output⟩]⟩

/-! ### The ideal bucket -/

/-- A bucket that is full, and has been since time 0. -/
def TokenBucket.full (bucket : TokenBucket) : Gauge ℚ := ⟨bucket.capacity, 0⟩

/-- The levels that acquisitions find in the ideal bucket. -/
def TokenBucket.levels (bucket : TokenBucket) (calls : List Call) : List ℚ :=
  bucket.full.found bucket.capacity bucket.perMilli (calls.map Call.request)

/-- What the ideal bucket answers at a level. -/
def TokenBucket.outcome (bucket : TokenBucket) (level : ℚ) (cost : ℕ) : Admission :=
  if (cost : ℚ) ≤ level then .allowed ⌊level - cost⌋.toNat
  else if bucket.capacity < cost then .denied none
  else .denied (some ⌈(cost - level) / bucket.perMilli⌉.toNat)

/-- The outcomes are those of the ideal bucket. -/
def Answers (bucket : TokenBucket) (calls : List Call) : Prop :=
  calls.map Call.output =
    List.zipWith (fun level call => .ok (bucket.outcome level call.cost)) (bucket.levels calls) calls

/-- The rate limiter behaves as the ideal bucket: it gives the same outcomes, it says that a request will
never be served iff it is larger than the bucket, and a request that it puts off for `r` ms, when nothing is
taken in the meantime, is served from then on and not before. -/
structure Ideal (bucket : TokenBucket) (calls : List Call) : Prop where
  answers : Answers bucket calls
  none_iff : ∀ call ∈ calls, call.output = .ok (.denied none) ↔ bucket.capacity < call.cost
  exact : ∀ before a between b after r, calls = before ++ a :: (between ++ b :: after) →
    a.output = .ok (.denied (some r)) → (∀ call ∈ between, admitted call.output = false) → b.cost = a.cost →
    (admitted b.output = true ↔ a.time + r ≤ b.time)

/-- What a request leaves in a bucket. -/
def leftOf (level : ℚ) (cost : ℕ) : ℚ := if (cost : ℚ) ≤ level then level - cost else level

/-- Redis takes the time until the bucket would be full, and the tokens that are left are a signed 64-bit
integer. -/
def Fits (bucket : TokenBucket) (level : ℚ) (call : Call) : Prop :=
  call.cost ≤ bucket.capacity → bucket.Expires call.time (leftOf level call.cost) ∧
    ((call.cost : ℚ) ≤ level → ⌊level - call.cost⌋ < 2 ^ 63)

instance (bucket : TokenBucket) (level : ℚ) (call : Call) : Decidable (Fits bucket level call) :=
  inferInstanceAs (Decidable (_ → _ ∧ (_ → _)))

/-- Every acquisition fits at the level that it finds in the ideal bucket. -/
def InRange (bucket : TokenBucket) (calls : List Call) : Prop :=
  ∀ pair ∈ (bucket.levels calls).zip calls, Fits bucket pair.1 pair.2

instance (bucket : TokenBucket) (calls : List Call) : Decidable (InRange bucket calls) :=
  inferInstanceAs (Decidable (∀ pair ∈ _, _))

/-! ### One acquisition -/

section Acquire

variable {nums : NumberText} {reply : IntegerReply} {bucket : TokenBucket} {name : Bytes} {server : Server}
  {level : ℚ} {cost : ℕ}

/-- How long it takes until there are enough tokens, in the numbers of the script. -/
theorem div_perMilli (bucket : TokenBucket) (x : ℚ) :
    x * bucket.rate.periodMicros / bucket.rate.tokens / 1000 = x / bucket.perMilli := by
  have htokens : (bucket.rate.tokens : ℚ) ≠ 0 := (Nat.cast_pos.mpr bucket.rate.tokens_pos).ne'
  have hperiod := (periodMicros_pos bucket.rate).ne'
  unfold TokenBucket.perMilli
  field_simp

theorem toI64_of_mem (reply : IntegerReply) {n : ℤ} (hpos : 0 ≤ n) (hlt : n < 2 ^ 63) : reply.toI64 n = n :=
  reply.exact n (by omega) hlt

theorem outcome_of_gt (hlevel : level ≤ bucket.capacity) (hcost : (cost : ℚ) > bucket.capacity) :
    bucket.outcome level cost = .denied none := by
  rw [TokenBucket.outcome, if_neg (by linarith), if_pos (by exact_mod_cast hcost)]

theorem outcome_of_le (hcost : (cost : ℚ) ≤ level) :
    bucket.outcome level cost = .allowed ⌊level - cost⌋.toNat := if_pos hcost

theorem outcome_of_lt (hcost : level < cost) (hle : (cost : ℚ) ≤ bucket.capacity) :
    bucket.outcome level cost = .denied (some ⌈(cost - level) / bucket.perMilli⌉.toNat) := by
  rw [TokenBucket.outcome, if_neg (not_le.mpr hcost), if_neg (not_lt.mpr (by exact_mod_cast hle))]

/-- A wait that Redis takes is a signed 64-bit integer, and so is any shorter one. -/
theorem ceil_lt_of_expires {now : ℕ} (hle : (cost : ℚ) ≤ bucket.capacity)
    (hin : bucket.Expires now level) : ⌈(cost - level) / bucket.perMilli⌉ < 2 ^ 63 := by
  have hmono : ⌈(cost - level) / bucket.perMilli⌉ ≤ ⌈(bucket.capacity - level) / bucket.perMilli⌉ := by
    refine Int.ceil_le_ceil (div_le_div_of_nonneg_right ?_ (perMilli_pos bucket).le)
    linarith
  have hlt := hin.1
  unfold TokenBucket.untilFull at hlt
  rw [div_perMilli] at hlt
  omega

/-- What an acquisition answers and leaves at a level: the answer of the ideal bucket iff it fits. -/
structure Replied (nums : NumberText) (bucket : TokenBucket) (key : Bytes) (server : Server) (level : ℚ)
    (cost : ℕ) (output : Except Error Admission) (server' : Server) : Prop where
  answer_iff : output = .ok (bucket.outcome level cost) ↔ Fits bucket level ⟨server.now, cost, output⟩
  kept : Level nums bucket (server'.db key) server.now (leftOf level cost)
  deadline_of_answer : output = .ok (bucket.outcome level cost) → ∀ deadline,
    deadlineOf (server'.db key) = some deadline →
      (deadlineOf (server.db key) = some deadline ∧ leftOf level cost = level) ∨
        (bucket.capacity : ℚ) ≤ leftOf level cost + bucket.perMilli * (deadline - server.now)

/-- The script fails: no answer, and Redis does not take the TTL. -/
theorem Replied.of_error {key : Bytes} {error : Error} {server' : Server} (hle : (cost : ℚ) ≤ bucket.capacity)
    (hout : ¬ bucket.Expires server.now (leftOf level cost))
    (hlevel : Level nums bucket (server'.db key) server.now (leftOf level cost)) :
    Replied nums bucket key server level cost (.error error) server' where
  answer_iff := iff_of_false nofun fun h => hout (h (by exact_mod_cast hle)).1
  kept := hlevel
  deadline_of_answer := nofun

/-- The script has stored what is left: it answers like the ideal bucket iff the number of tokens fits. -/
theorem Replied.of_ok {key : Bytes} {output : Admission} {server' : Server} {deadline : ℕ}
    (hin : bucket.Expires server.now (leftOf level cost))
    (houtput : output = bucket.outcome level cost ↔ ((cost : ℚ) ≤ level → ⌊level - cost⌋ < 2 ^ 63))
    (hle : (cost : ℚ) ≤ bucket.capacity)
    (hlevel : Level nums bucket (server'.db key) server.now (leftOf level cost))
    (hdeadline : deadlineOf (server'.db key) = some deadline)
    (hfull : (bucket.capacity : ℚ) ≤ leftOf level cost + bucket.perMilli * (deadline - server.now)) :
    Replied nums bucket key server level cost (.ok output) server' where
  answer_iff := by
    rw [Except.ok.injEq, houtput]
    exact ⟨fun hfits _ => ⟨hin, hfits⟩, fun hfits => (hfits (by exact_mod_cast hle)).2⟩
  kept := hlevel
  deadline_of_answer _ d hd := by
    obtain rfl := Option.some.inj (hdeadline.symm.trans hd)
    exact Or.inr hfull

theorem leftOf_of_le (hcost : (cost : ℚ) ≤ level) : leftOf level cost = level - cost := if_pos hcost

theorem leftOf_of_lt (hcost : level < cost) : leftOf level cost = level := if_neg (not_le.mpr hcost)

/-- The tokens that are left, as the client gets them. -/
theorem allowed_eq_iff (reply : IntegerReply) {n : ℤ} (hn : 0 ≤ n) :
    (Admission.allowed (reply.toI64 n).toNat = .allowed n.toNat) ↔ n < 2 ^ 63 := by
  constructor
  · intro he
    have hlt := reply.lt n
    have hnat := Admission.allowed.inj he
    omega
  · intro hlt
    rw [toI64_of_mem reply hn hlt]

section Reply

variable {reply : IntegerReply} {server' : Server} {n : ℤ}

theorem acquireWith_of_error {error : Error} (h : acquireScript nums (bucket.key name) bucket.capacity
      bucket.rate.tokens bucket.rate.periodMicros cost server = (.error error, server')) :
    bucket.acquireWith nums reply name cost server = (.error error, server') := Command.bind_of_error h

theorem acquireWith_of_allowed {m : ℤ} (h : acquireScript nums (bucket.key name) bucket.capacity
      bucket.rate.tokens bucket.rate.periodMicros cost server = (.ok (1, m, n), server')) :
    bucket.acquireWith nums reply name cost server = (.ok (.allowed (reply.toI64 n).toNat), server') := by
  refine (Command.bind_of_ok h).trans ?_
  simp only [reply.exact 1 (by norm_num) (by norm_num)]
  rfl

theorem acquireWith_of_denied {m : ℤ} (h : acquireScript nums (bucket.key name) bucket.capacity
      bucket.rate.tokens bucket.rate.periodMicros cost server = (.ok (0, n, m), server'))
    (hlower : -2 ^ 63 ≤ n) (hlt : n < 2 ^ 63) : bucket.acquireWith nums reply name cost server =
      (.ok (.denied (if 0 ≤ n then some n.toNat else none)), server') := by
  refine (Command.bind_of_ok h).trans ?_
  simp only [reply.exact 0 (by norm_num) (by norm_num), reply.exact n hlower hlt]
  rfl

end Reply

/-- **One acquisition.** -/
theorem replied (reply : IntegerReply) (cost : ℕ)
    (h : Level nums bucket (server.db (bucket.key name)) server.now level) : ∃ output server',
      bucket.acquireWith nums reply name cost server = (output, server') ∧ server'.clock = server.clock ∧
      Replied nums bucket (bucket.key name) server level cost output server' := by
  have hscript := acquireScript_of_level (cost : ℚ) h
  by_cases hlarge : (cost : ℚ) > bucket.capacity
  · -- the request is larger than the bucket, and nothing is written
    have houtput := outcome_of_gt h.le hlarge
    have hleft : leftOf level cost = level := leftOf_of_lt (h.le.trans_lt hlarge)
    rw [if_pos hlarge, Command.pure_apply] at hscript
    refine ⟨_, server, acquireWith_of_denied hscript (by norm_num) (by norm_num), rfl, ?_, hleft.symm ▸ h,
      fun _ deadline hd => Or.inl ⟨hd, hleft⟩⟩
    rw [houtput]
    exact iff_of_true rfl fun hle => absurd hlarge (not_lt.mpr (by exact_mod_cast hle))
  · rw [if_neg hlarge] at hscript
    have hle := not_lt.mp hlarge
    by_cases hcost : (cost : ℚ) ≤ level
    · rw [if_pos hcost] at hscript
      have hpos : (0 : ℚ) ≤ cost := Nat.cast_nonneg _
      have hfull := h.le
      obtain ⟨result, server', hstore, hclock, hlevel, hdone⟩ :=
        storeBucket_spec h (sub_nonneg.mpr hcost) (by linarith : level - (cost : ℚ) ≤ bucket.capacity)
      rw [← leftOf_of_le hcost] at hlevel hdone
      rcases hdone with ⟨rfl, hin, deadline, hdeadline, hfull⟩ | ⟨⟨error, rfl⟩, hout, -⟩
      · rw [Command.bind_of_ok hstore, Command.pure_apply] at hscript
        refine ⟨_, server', acquireWith_of_allowed hscript, hclock, .of_ok hin ?_ hle hlevel hdeadline hfull⟩
        rw [outcome_of_le hcost, allowed_eq_iff reply (Int.floor_nonneg.mpr (sub_nonneg.mpr hcost)),
          imp_iff_right hcost]
      · rw [Command.bind_of_error hstore] at hscript
        exact ⟨_, server', acquireWith_of_error hscript, hclock, .of_error hle hout hlevel⟩
    · have hlt := not_le.mp hcost
      rw [if_neg hcost] at hscript
      obtain ⟨result, server', hstore, hclock, hlevel, hdone⟩ := storeBucket_spec h h.nonneg h.le
      rw [← leftOf_of_lt hlt] at hlevel hdone
      rcases hdone with ⟨rfl, hin, deadline, hdeadline, hfull⟩ | ⟨⟨error, rfl⟩, hout, -⟩
      · have hwait : 0 ≤ ⌈(cost - level) / bucket.perMilli⌉ :=
          Int.ceil_nonneg (div_nonneg (by linarith) (perMilli_pos bucket).le)
        have hsmall := ceil_lt_of_expires hle (leftOf_of_lt hlt ▸ hin)
        rw [Command.bind_of_ok hstore, Command.pure_apply, div_perMilli] at hscript
        refine ⟨_, server', acquireWith_of_denied hscript (by omega) hsmall, hclock,
          .of_ok hin ?_ hle hlevel hdeadline hfull⟩
        rw [outcome_of_lt hlt hle, if_pos hwait]
        exact iff_of_true rfl fun hcost' => absurd hcost' hcost
      · rw [Command.bind_of_error hstore] at hscript
        exact ⟨_, server', acquireWith_of_error hscript, hclock, .of_error hle hout hlevel⟩

end Acquire

/-! ### Runs -/

section Runs

variable {nums : NumberText} {reply : IntegerReply} {bucket : TokenBucket} {name : Bytes} {s s' : Served}
  {calls : List Call} {call : Call}

/-- The ideal bucket after acquisitions. -/
def TokenBucket.after (bucket : TokenBucket) (calls : List Call) : Gauge ℚ :=
  (calls.map Call.request).foldl (Gauge.take (bucket.capacity : ℚ) bucket.perMilli) bucket.full

/-- The level of the ideal bucket after acquisitions. -/
def TokenBucket.levelAfter (bucket : TokenBucket) (calls : List Call) (time : ℕ) : ℚ :=
  (bucket.after calls).levelAt bucket.capacity bucket.perMilli time

theorem after_append (calls later : List Call) : bucket.after (calls ++ later) =
    (later.map Call.request).foldl (Gauge.take (bucket.capacity : ℚ) bucket.perMilli) (bucket.after calls) := by
  rw [TokenBucket.after, List.map_append, List.foldl_append, TokenBucket.after]

theorem levels_append (calls : List Call) (call : Call) :
    bucket.levels (calls ++ [call]) = bucket.levels calls ++ [bucket.levelAfter calls call.time] := by
  rw [TokenBucket.levels, List.map_append, Gauge.found_append]
  rfl

theorem length_levels : (bucket.levels calls).length = calls.length := by simp [TokenBucket.levels]

theorem answers_append : Answers bucket (calls ++ [call]) ↔ Answers bucket calls ∧
    call.output = .ok (bucket.outcome (bucket.levelAfter calls call.time) call.cost) := by
  unfold Answers
  rw [levels_append, List.zipWith_append length_levels, List.map_append]
  constructor
  · intro he
    obtain ⟨hcalls, hcall⟩ := List.append_inj' he rfl
    exact ⟨hcalls, List.singleton_inj.mp hcall⟩
  · rintro ⟨hcalls, hcall⟩
    rw [hcalls]
    exact congrArg (_ ++ [·]) hcall

theorem inRange_append : InRange bucket (calls ++ [call]) ↔
    InRange bucket calls ∧ Fits bucket (bucket.levelAfter calls call.time) call := by
  unfold InRange
  rw [levels_append, List.zip_append length_levels, List.forall_mem_append]
  simp

theorem levelAfter_le (calls : List Call) (time : ℕ) : bucket.levelAfter calls time ≤ bucket.capacity := refilled_le

/-- The level right after an acquisition. -/
theorem levelAfter_append (calls : List Call) (call : Call) :
    bucket.levelAfter (calls ++ [call]) call.time = leftOf (bucket.levelAfter calls call.time) call.cost := by
  rw [TokenBucket.levelAfter, after_append]
  exact Gauge.levelAt_take (Nat.cast_nonneg call.cost)

/-- The level later, when nothing is taken. -/
theorem levelAfter_later (bucket : TokenBucket) (calls : List Call) {now now' : ℕ} (hle : now ≤ now') :
    bucket.levelAfter calls now' =
      refilled (bucket.capacity : ℚ) bucket.perMilli (bucket.levelAfter calls now) ((now' : ℚ) - now) :=
  (Gauge.refilled_levelAt (perMilli_pos bucket).le (Nat.cast_le.mpr hle)).symm

/-- What is stored is at the level of the ideal bucket, which is full when the key expires. -/
structure Tracks (nums : NumberText) (bucket : TokenBucket) (name : Bytes) (s : Served) : Prop where
  level : Level nums bucket (s.server.db (bucket.key name)) s.server.now (bucket.levelAfter s.calls s.server.now)
  full : ∀ deadline, deadlineOf (s.server.db (bucket.key name)) = some deadline →
    (bucket.capacity : ℚ) ≤ bucket.levelAfter s.calls s.server.now + bucket.perMilli * (deadline - s.server.now)

/-- **Time passes.** If the key expires, the ideal bucket is full. -/
theorem Tracks.pass {clock : ℕ} (h : Tracks nums bucket name s) (hclock : s.server.clock ≤ clock) :
    Tracks nums bucket name ⟨s.server.advance clock, s.calls⟩ := by
  have hrate := (perMilli_pos bucket).le
  have hnow : s.server.now ≤ clock / 1000 := Nat.div_le_div_right hclock
  have hlater := levelAfter_later bucket s.calls hnow
  rcases s.server.db_advance (bucket.key name) clock with ⟨hsame, hlive⟩ | ⟨hgone, hwhy⟩
  · refine ⟨?_, fun deadline hd => ?_⟩
    · show Level nums bucket ((s.server.advance clock).db (bucket.key name)) (clock / 1000 : ℕ) _
      rw [hsame]
      exact hlater ▸ h.level.refill hnow
    · have hlive' : ((clock / 1000 : ℕ) : ℚ) ≤ deadline := Nat.cast_le.mpr (hlive deadline (hsame ▸ hd))
      have hbefore := h.full deadline (hsame ▸ hd)
      have hafter := mul_nonneg hrate (sub_nonneg.mpr hlive')
      have hsplit : bucket.perMilli * ((deadline : ℚ) - s.server.now) =
          bucket.perMilli * (((clock / 1000 : ℕ) : ℚ) - s.server.now) +
            bucket.perMilli * (deadline - ((clock / 1000 : ℕ) : ℚ)) := by ring
      show _ ≤ bucket.levelAfter s.calls (clock / 1000) + bucket.perMilli * (deadline - ((clock / 1000 : ℕ) : ℚ))
      rw [hlater, refilled]
      rcases min_choice (bucket.capacity : ℚ) (bucket.levelAfter s.calls s.server.now +
          bucket.perMilli * (((clock / 1000 : ℕ) : ℚ) - s.server.now)) with hmin | hmin
      · rw [hmin]
        linarith
      · rw [hmin]
        linarith
  · have hfull : bucket.levelAfter s.calls (clock / 1000) = bucket.capacity := by
      rcases hwhy with hnone | ⟨deadline, hd, hlt⟩
      · have hlevel := h.level.refill hnow
        rw [hnone, ← hlater] at hlevel
        rcases hlevel with ⟨-, hcapacity⟩ | ⟨_, _, _, _, hsome, -⟩
        · exact hcapacity
        · cases hsome
      · have hbefore := h.full deadline hd
        have hpast : (deadline : ℚ) ≤ ((clock / 1000 : ℕ) : ℚ) := Nat.cast_le.mpr hlt.le
        have hmono := mul_le_mul_of_nonneg_left (sub_le_sub_right hpast (s.server.now : ℚ)) hrate
        rw [hlater]
        exact refilled_eq_capacity (by linarith)
    refine ⟨Or.inl ⟨hgone, hfull⟩, fun deadline hd => ?_⟩
    have hnone : deadlineOf ((s.server.advance clock).db (bucket.key name)) = none := by rw [hgone]; rfl
    rw [hnone] at hd
    cases hd

/-- **An acquisition** that is answered like the ideal bucket. -/
theorem Tracks.acquire {output : Except Error Admission} {server : Server} {cost : ℕ} (h : Tracks nums bucket name s)
    (hclock : server.clock = s.server.clock)
    (ha : Replied nums bucket (bucket.key name) s.server (bucket.levelAfter s.calls s.server.now) cost output server)
    (houtput : output = .ok (bucket.outcome (bucket.levelAfter s.calls s.server.now) cost)) :
    Tracks nums bucket name ⟨server, s.calls ++ [⟨s.server.now, cost, output⟩]⟩ := by
  have hnow : server.now = s.server.now := congrArg (· / 1000) hclock
  have hlevel : bucket.levelAfter (s.calls ++ [⟨s.server.now, cost, output⟩]) s.server.now =
      leftOf (bucket.levelAfter s.calls s.server.now) cost := levelAfter_append s.calls ⟨s.server.now, cost, output⟩
  refine ⟨?_, fun deadline hd => ?_⟩
  · rw [hnow, hlevel]
    exact ha.kept
  · rw [hnow, hlevel]
    rcases ha.deadline_of_answer houtput deadline hd with ⟨hold, hleft⟩ | hnew
    · rw [hleft]
      exact h.full deadline hold
    · exact hnew

/-- What holds in every state of a run: as long as the answers are those of the ideal bucket, what is stored
is its level. -/
structure Behaves (nums : NumberText) (bucket : TokenBucket) (name : Bytes) (s : Served) : Prop where
  times : s.calls.Pairwise fun a b => a.time ≤ b.time
  past : ∀ call ∈ s.calls, call.time ≤ s.server.now
  stored : ∃ level, Level nums bucket (s.server.db (bucket.key name)) s.server.now level
  answers_iff : Answers bucket s.calls ↔ InRange bucket s.calls
  tracks : Answers bucket s.calls → Tracks nums bucket name s

theorem Behaves.start {server : Server} (habsent : server.db (bucket.key name) = none) :
    Behaves nums bucket name ⟨server, []⟩ where
  times := .nil
  past := nofun
  stored := ⟨_, Or.inl ⟨habsent, rfl⟩⟩
  answers_iff := iff_of_true rfl nofun
  tracks _ := by
    have hfull : bucket.levelAfter [] server.now = bucket.capacity := by
      have := mul_nonneg (perMilli_pos bucket).le (Nat.cast_nonneg server.now : (0 : ℚ) ≤ server.now)
      refine refilled_eq_capacity ?_
      show (bucket.capacity : ℚ) ≤ bucket.capacity + bucket.perMilli * (server.now - 0)
      rw [sub_zero]
      linarith
    refine ⟨Or.inl ⟨habsent, hfull⟩, fun deadline hd => ?_⟩
    have hnone : deadlineOf (server.db (bucket.key name)) = none := by rw [habsent]; rfl
    rw [hnone] at hd
    cases hd

/-- **What one step preserves.** -/
theorem Behaves.step {turn : Turn} (h : Behaves nums bucket name s)
    (hs : ServeStep nums reply bucket name s turn s') : Behaves nums bucket name s' := by
  cases hs with
  | @pass clock hclock =>
    have hnow : s.server.now ≤ clock / 1000 := Nat.div_le_div_right hclock
    refine ⟨h.times, fun call hcall => (h.past call hcall).trans hnow, ?_, h.answers_iff,
      fun ha => (h.tracks ha).pass hclock⟩
    obtain ⟨level, hlevel⟩ := h.stored
    rcases s.server.db_advance (bucket.key name) clock with ⟨hsame, -⟩ | ⟨hgone, -⟩
    · exact ⟨_, hsame.symm ▸ hlevel.refill hnow⟩
    · exact ⟨_, Or.inl ⟨hgone, rfl⟩⟩
  | @acquire cost output server ha =>
    obtain ⟨level, hlevel⟩ := h.stored
    obtain ⟨output', server', ha', hclock, hreplied⟩ := replied reply cost hlevel
    obtain ⟨rfl, rfl⟩ := Prod.mk.inj (ha'.symm.trans ha)
    have hnow : server'.now = s.server.now := congrArg (· / 1000) hclock
    have htimes : List.Pairwise (fun a b : Call => a.time ≤ b.time) (s.calls ++ [⟨s.server.now, cost, output'⟩]) := by
      refine List.pairwise_append.mpr ⟨h.times, List.pairwise_singleton _ _, fun a hcall b hb => ?_⟩
      obtain rfl := List.mem_singleton.mp hb
      exact h.past a hcall
    have hpast : ∀ call ∈ s.calls ++ [⟨s.server.now, cost, output'⟩], call.time ≤ server'.now := by
      intro call hcall
      rw [hnow]
      rcases List.mem_append.mp hcall with hold | hnew
      · exact h.past call hold
      · rw [List.mem_singleton.mp hnew]
    refine ⟨htimes, hpast, ⟨_, hnow.symm ▸ hreplied.kept⟩, ?_, fun hanswers => ?_⟩
    · rw [answers_append, inRange_append]
      by_cases hbefore : Answers bucket s.calls
      · obtain ⟨_, _, hsame, -, hideal⟩ := replied reply cost (h.tracks hbefore).level
        obtain ⟨rfl, rfl⟩ := Prod.mk.inj (hsame.symm.trans ha')
        exact and_congr h.answers_iff hideal.answer_iff
      · exact iff_of_false (fun hall => hbefore hall.1) fun hall => hbefore (h.answers_iff.mpr hall.1)
    · rw [answers_append] at hanswers
      obtain ⟨_, _, hsame, -, hideal⟩ := replied reply cost (h.tracks hanswers.1).level
      obtain ⟨rfl, rfl⟩ := Prod.mk.inj (hsame.symm.trans ha')
      exact (h.tracks hanswers.1).acquire hclock hideal hanswers.2

/-! ### What the answers say -/

theorem outcome_eq_none_iff {level : ℚ} {cost : ℕ} (hlevel : level ≤ bucket.capacity) :
    bucket.outcome level cost = .denied none ↔ bucket.capacity < cost := by
  constructor
  · intro he
    unfold TokenBucket.outcome at he
    split_ifs at he with hcost hlarge
    · exact hlarge
    · cases he
  · exact fun hlarge => outcome_of_gt hlevel (Nat.cast_lt.mpr hlarge)

theorem admitted_outcome {level : ℚ} {cost : ℕ} :
    admitted (.ok (bucket.outcome level cost)) = true ↔ (cost : ℚ) ≤ level := by
  unfold TokenBucket.outcome
  split_ifs with hcost hlarge <;> simp [admitted, hcost]

/-- The time until there are enough tokens is the least number of milliseconds that refills them. -/
theorem le_refilled_iff_wait_le {level : ℚ} {cost : ℕ} (hle : (cost : ℚ) ≤ bucket.capacity) (n : ℕ) :
    (cost : ℚ) ≤ refilled (bucket.capacity : ℚ) bucket.perMilli level n ↔
      ⌈(cost - level) / bucket.perMilli⌉.toNat ≤ n := by
  rw [le_refilled_iff hle, Int.toNat_le, Int.ceil_le, Int.cast_natCast, div_le_iff₀' (perMilli_pos bucket)]
  exact sub_le_iff_le_add'.symm

theorem outcome_eq_wait {level : ℚ} {cost r : ℕ} (h : bucket.outcome level cost = .denied (some r)) :
    (cost : ℚ) ≤ bucket.capacity ∧ ¬ (cost : ℚ) ≤ level ∧ r = ⌈(cost - level) / bucket.perMilli⌉.toNat := by
  unfold TokenBucket.outcome at h
  split_ifs at h with hcost hlarge
  · cases h
  · exact ⟨by exact_mod_cast not_lt.mp hlarge, hcost, (Option.some.inj (Admission.denied.inj h)).symm⟩

theorem Answers.of_append {later : List Call} (h : Answers bucket (calls ++ later)) : Answers bucket calls := by
  induction later using List.reverseRecOn with
  | nil => rwa [List.append_nil] at h
  | append_singleton later call ih =>
    rw [← List.append_assoc, answers_append] at h
    exact ih h.1

theorem Answers.output {before after : List Call} (h : Answers bucket (before ++ call :: after)) :
    call.output = .ok (bucket.outcome (bucket.levelAfter before call.time) call.cost) := by
  rw [← List.singleton_append, ← List.append_assoc] at h
  exact (answers_append.mp h.of_append).2

/-- What is denied does not count. -/
theorem Answers.after_eq {later : List Call} (h : Answers bucket (calls ++ later))
    (hdenied : ∀ call ∈ later, admitted call.output = false) : bucket.after (calls ++ later) = bucket.after calls := by
  induction later using List.reverseRecOn with
  | nil => rw [List.append_nil]
  | append_singleton later call ih =>
    rw [← List.append_assoc] at h ⊢
    obtain ⟨hbefore, houtput⟩ := answers_append.mp h
    have hsame := ih hbefore fun other ho => hdenied other (List.mem_append_left _ ho)
    have hcall := hdenied call (by simp)
    rw [houtput, ← Bool.not_eq_true, admitted_outcome] at hcall
    rw [after_append, ← hsame]
    exact if_neg hcall

theorem Answers.ideal (h : Answers bucket calls) (htimes : calls.Pairwise fun a b => a.time ≤ b.time) :
    Ideal bucket calls where
  answers := h
  none_iff call hcall := by
    obtain ⟨before, after, rfl⟩ := List.append_of_mem hcall
    rw [h.output, Except.ok.injEq, outcome_eq_none_iff (levelAfter_le _ _)]
  exact before a between b after r hsplit ha hdenied hcost := by
    subst hsplit
    have hwait := Except.ok.inj (h.output.symm.trans ha)
    obtain ⟨hle, hlevel, rfl⟩ := outcome_eq_wait hwait
    have hle' : a.time ≤ b.time := by
      have hab := (List.pairwise_cons.mp (List.pairwise_append.mp htimes).2.1).1 b (by simp)
      exact hab
    have hsplit : before ++ a :: (between ++ b :: after) = (before ++ (a :: between)) ++ b :: after := by simp
    rw [hsplit] at h
    have hsame : bucket.after (before ++ (a :: between)) = bucket.after before := by
      refine h.of_append.after_eq ?_
      refine List.forall_mem_cons.mpr ⟨?_, hdenied⟩
      rw [ha]
      rfl
    have hb := h.output
    rw [TokenBucket.levelAfter, hsame, ← TokenBucket.levelAfter, levelAfter_later bucket before hle', hcost] at hb
    have hgap : ((b.time : ℚ) - a.time) = ((b.time - a.time : ℕ) : ℚ) := (Nat.cast_sub hle').symm
    rw [hb, admitted_outcome, hgap, le_refilled_iff_wait_le hle]
    omega

end Runs

/-! ### The result -/

end Wakuwaku.Entity.Redis.Collection
