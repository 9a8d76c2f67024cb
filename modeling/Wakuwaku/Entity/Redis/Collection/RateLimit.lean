import Wakuwaku.Steps
import Wakuwaku.Bucket
import Wakuwaku.Entity.Redis.Collection.TokenBucketLimiter
import Mathlib.Data.List.TakeWhile

/-! # What a rate limiter allows

Clients acquire from one bucket while time passes and its key expires. The requests that are allowed
are requests that an ideal bucket serves too, whose level is never below the stored one
(`Simulates`): the key expires only when the ideal bucket is full. So they obey the bound of a token
bucket, by the clock of the script, which counts whole milliseconds (`allowed_le`); by the
microsecond the bound fails (`allowed_gt`). -/

namespace Wakuwaku.Entity.Redis.Collection

open Wakuwaku.Redis Wakuwaku.Entity.Redis

/-! ### Runs -/

/-- The server, and the requests it allowed with their times in microseconds. -/
structure Limited where
  server : Server
  allowed : List (ℕ × ℕ)

inductive Turn where
  | pass (clock : ℕ)
  | acquire (cost : ℕ)

/-- Time passes, or a client acquires. -/
inductive LimitStep (nums : NumberText) (bucket : TokenBucket) (name : Bytes) : Limited → Turn → Limited → Prop
  | pass {s clock} (h : s.server.clock ≤ clock) :
    LimitStep nums bucket name s (.pass clock) ⟨s.server.advance clock, s.allowed⟩
  | acquire {s cost result server} (h : bucket.acquire nums name cost s.server = (result, server)) :
    LimitStep nums bucket name s (.acquire cost)
      ⟨server, if admitted result then s.allowed ++ [(s.server.clock, cost)] else s.allowed⟩

/-- The total cost of the requests allowed from one time to another, both included. -/
def spent (allowed : List (ℕ × ℕ)) (t₁ t₂ : ℕ) : ℕ :=
  ((allowed.filter fun e => t₁ ≤ e.1 ∧ e.1 ≤ t₂).map Prod.snd).sum

/-- The requests by the clock of the script. -/
def byMillis (allowed : List (ℕ × ℕ)) : List (ℚ × ℚ) :=
  allowed.map fun e => (((e.1 / 1000 : ℕ) : ℚ), (e.2 : ℚ))

theorem spent_cons (e : ℕ × ℕ) (rest : List (ℕ × ℕ)) (t₁ t₂ : ℕ) :
    spent (e :: rest) t₁ t₂ = (if t₁ ≤ e.1 ∧ e.1 ≤ t₂ then e.2 else 0) + spent rest t₁ t₂ := by
  unfold spent
  by_cases h : t₁ ≤ e.1 ∧ e.1 ≤ t₂
  · rw [List.filter_cons_of_pos (by simpa using h), if_pos h, List.map_cons, List.sum_cons]
  · rw [List.filter_cons_of_neg (by simpa using h), if_neg h, Nat.zero_add]

theorem spent_le_total (allowed : List (ℕ × ℕ)) (t₁ t₂ : ℕ) :
    (spent allowed t₁ t₂ : ℚ) ≤ total (byMillis allowed) ((t₁ / 1000 : ℕ) : ℚ) ((t₂ / 1000 : ℕ) : ℚ) := by
  induction allowed with
  | nil => exact le_refl _
  | cons e rest ih =>
    have hcost : (0 : ℚ) ≤ e.2 := Nat.cast_nonneg _
    show _ ≤ total ((((e.1 / 1000 : ℕ) : ℚ), (e.2 : ℚ)) :: byMillis rest) _ _
    rw [spent_cons, total_cons]
    by_cases hin : t₁ ≤ e.1 ∧ e.1 ≤ t₂
    · have hmillis : ((t₁ / 1000 : ℕ) : ℚ) ≤ ((e.1 / 1000 : ℕ) : ℚ) ∧
          ((e.1 / 1000 : ℕ) : ℚ) ≤ ((t₂ / 1000 : ℕ) : ℚ) :=
        ⟨Nat.cast_le.mpr (Nat.div_le_div_right hin.1), Nat.cast_le.mpr (Nat.div_le_div_right hin.2)⟩
      rw [if_pos hin, if_pos hmillis, Nat.cast_add]
      linarith
    · rw [if_neg hin, Nat.zero_add]
      split_ifs
      · linarith
      · linarith

/-! ### The ideal bucket -/

variable {nums : NumberText} {bucket : TokenBucket} {name : Bytes} {s s' : Limited}

/-- An ideal bucket has given what was allowed, holds as much as is stored at least, and is full when
the key expires. -/
def Simulates (nums : NumberText) (bucket : TokenBucket) (name : Bytes) (s : Limited) : Prop :=
  ∃ ideal level, Spends (bucket.capacity : ℚ) bucket.perMilli (byMillis s.allowed) s.server.now ideal ∧
    Level nums bucket (s.server.db (bucket.key name)) s.server.now level ∧ level ≤ ideal ∧
    ∀ deadline, deadlineOf (s.server.db (bucket.key name)) = some deadline →
      (bucket.capacity : ℚ) ≤ ideal + bucket.perMilli * (deadline - s.server.now)

/-- A level later. -/
theorem Level.refill {stored : Option Stored} {now now' : ℕ} {level : ℚ} (h : Level nums bucket stored now level)
    (hnow : now ≤ now') :
    Level nums bucket stored now' (refilled (bucket.capacity : ℚ) bucket.perMilli level (now' - now)) := by
  have hrate := (perMilli_pos bucket).le
  have helapsed : (0 : ℚ) ≤ now' - now := sub_nonneg.mpr (Nat.cast_le.mpr hnow)
  rcases h with ⟨hnone, rfl⟩ | ⟨fields, expires, tokens, ts, hsome, hf, ht, htokens, hle, hts, rfl⟩
  · exact Or.inl ⟨hnone, refilled_eq_capacity (by have := mul_nonneg hrate helapsed; linarith)⟩
  · refine Or.inr ⟨fields, expires, tokens, ts, hsome, hf, ht, htokens, hle, hts.trans hnow, ?_⟩
    have hcompose : refilled (bucket.capacity : ℚ) bucket.perMilli
        (refilled bucket.capacity bucket.perMilli tokens (now - ts)) (now' - now) = _ :=
      refilled_refilled hrate helapsed
    unfold refilled at hcompose ⊢
    rw [mul_comm ((now : ℚ) - ts), hcompose]
    congr 2
    ring

/-- **Time passes.** The ideal bucket is refilled; if the key expires, it is full. -/
theorem Simulates.pass {clock : ℕ} (h : Simulates nums bucket name s) (hclock : s.server.clock ≤ clock) :
    Simulates nums bucket name ⟨s.server.advance clock, s.allowed⟩ := by
  obtain ⟨ideal, level, hspends, hlevel, hle, hfull⟩ := h
  have hrate := perMilli_pos bucket
  have hnow : s.server.now ≤ clock / 1000 := Nat.div_le_div_right hclock
  have hcast : (s.server.now : ℚ) ≤ ((clock / 1000 : ℕ) : ℚ) := Nat.cast_le.mpr hnow
  have hwait := hspends.wait hcast
  rcases s.server.db_advance (bucket.key name) clock with ⟨hsame, hlive⟩ | ⟨hgone, hwhy⟩
  · have hlevel' := hlevel.refill hnow
    refine ⟨_, _, hwait, ?_, min_le_min_left _ (add_le_add_left hle _), fun deadline hd => ?_⟩
    · show Level nums bucket ((s.server.advance clock).db (bucket.key name)) (clock / 1000) _
      rw [hsame]
      exact hlevel'
    · have hd' : deadlineOf (s.server.db (bucket.key name)) = some deadline := hsame ▸ hd
      have hafter : ((clock / 1000 : ℕ) : ℚ) ≤ deadline := Nat.cast_le.mpr (hlive deadline hd')
      have hbefore := hfull deadline hd'
      rw [Server.now_advance]
      rcases min_choice (bucket.capacity : ℚ)
          (ideal + bucket.perMilli * (((clock / 1000 : ℕ) : ℚ) - s.server.now)) with hmin | hmin
      · rw [hmin]
        have := mul_nonneg hrate.le (sub_nonneg.mpr hafter)
        linarith
      · rw [hmin]
        have hsplit : bucket.perMilli * ((deadline : ℚ) - s.server.now) =
            bucket.perMilli * (((clock / 1000 : ℕ) : ℚ) - s.server.now) +
              bucket.perMilli * (deadline - ((clock / 1000 : ℕ) : ℚ)) := by ring
        linarith
  · refine ⟨_, bucket.capacity, hwait, Or.inl ⟨hgone, rfl⟩, le_min (le_refl _) ?_, fun deadline hd => ?_⟩
    · have hrefill := mul_nonneg hrate.le (sub_nonneg.mpr hcast)
      rcases hwhy with hnone | ⟨deadline, hd, hlt⟩
      · rcases hlevel with ⟨-, rfl⟩ | ⟨fields, expires, _, _, hsome, -⟩
        · linarith
        · rw [hnone] at hsome
          cases hsome
      · have hbefore := hfull deadline hd
        have hpast : (deadline : ℚ) ≤ ((clock / 1000 : ℕ) : ℚ) := Nat.cast_le.mpr hlt.le
        have hmono : bucket.perMilli * ((deadline : ℚ) - s.server.now) ≤
            bucket.perMilli * (((clock / 1000 : ℕ) : ℚ) - s.server.now) :=
          mul_le_mul_of_nonneg_left (by linarith) hrate.le
        linarith
    · have hnone : deadlineOf ((s.server.advance clock).db (bucket.key name)) = none := by rw [hgone]; rfl
      rw [hnone] at hd
      cases hd

/-- **A request is served by the ideal bucket if it is allowed.** -/
theorem Simulates.acquire {cost : ℕ} {result : Except Error Admission} {server : Server}
    (h : Simulates nums bucket name s) (ha : bucket.acquire nums name cost s.server = (result, server)) :
    Simulates nums bucket name
      ⟨server, if admitted result then s.allowed ++ [(s.server.clock, cost)] else s.allowed⟩ := by
  obtain ⟨ideal, level, hspends, hlevel, hle, hfull⟩ := h
  obtain ⟨hacquired, hclock⟩ := acquired cost hlevel
  rw [ha] at hacquired hclock
  have hnow : server.now = s.server.now := congrArg (· / 1000) hclock
  cases hacquired with
  | refused hresult =>
    simp only [hresult, Bool.false_eq_true, if_false]
    exact ⟨ideal, level, hspends, hlevel, hle, hfull⟩
  | @allowed _ deadline hresult hcost hlevel' hdeadline hfull' =>
    simp only [hresult, if_true]
    refine ⟨ideal - cost, level - cost, ?_, ?_, by linarith, fun d hd => ?_⟩
    · have htake := hspends.take (Nat.cast_nonneg cost) (hcost.trans hle)
      show Spends _ _ (byMillis (s.allowed ++ [(s.server.clock, cost)])) (server.now : ℚ) _
      rw [hnow]
      unfold byMillis at htake ⊢
      rw [List.map_append]
      exact htake
    · rw [hnow]
      exact hlevel'
    · obtain rfl := Option.some.inj (hdeadline.symm.trans hd)
      rw [hnow]
      linarith
  | @denied _ left hresult hleft hlevel' hdeadline =>
    simp only [hresult, Bool.false_eq_true, if_false]
    refine ⟨ideal, left, ?_, ?_, hleft.trans hle, fun d hd => ?_⟩
    · rw [hnow]
      exact hspends
    · rw [hnow]
      exact hlevel'
    · rw [hnow]
      rcases hdeadline d hd with hold | hnew
      · exact hfull d hold
      · linarith

theorem simulates_empty {server : Server} (h : server.db (bucket.key name) = none) :
    Simulates nums bucket name ⟨server, []⟩ := by
  refine ⟨_, bucket.capacity, .full _, Or.inl ⟨h, rfl⟩, le_refl _, fun deadline hd => ?_⟩
  have hnone : deadlineOf (server.db (bucket.key name)) = none := by rw [h]; rfl
  rw [hnone] at hd
  cases hd

/-- **What one step preserves.** -/
theorem Simulates.step {turn : Turn} (h : Simulates nums bucket name s)
    (hs : LimitStep nums bucket name s turn s') : Simulates nums bucket name s' := by
  cases hs with
  | pass hclock => exact h.pass hclock
  | acquire ha => exact h.acquire ha

/-- **A rate limiter allows what a token bucket gives.** In every state of a run from an absent key,
what is stored are tokens between 0 and the capacity, and from one time to another requests of at
most the capacity and what is refilled in the whole milliseconds in between are allowed. -/
theorem allowed_le (nums : NumberText) (bucket : TokenBucket) (name : Bytes) {server : Server}
    {turns : List Turn} {s : Limited} (habsent : server.db (bucket.key name) = none)
    (run : Steps (LimitStep nums bucket name) ⟨server, []⟩ turns s) :
    (∀ stored, s.server.db (bucket.key name) = some stored → ∃ fields expires, ∃ tokens : ℚ,
      stored = ⟨.hash fields, expires⟩ ∧ fields tokensField = some (nums.text tokens) ∧
        0 ≤ tokens ∧ tokens ≤ bucket.capacity) ∧
    ∀ t₁ t₂, t₁ ≤ t₂ → (spent s.allowed t₁ t₂ : ℚ) ≤ bucket.capacity + bucket.rate.tokens *
      ((((t₂ / 1000 : ℕ) : ℚ) - ((t₁ / 1000 : ℕ) : ℚ)) * 1000) / bucket.rate.periodMicros := by
  obtain ⟨ideal, level, hspends, hlevel, -⟩ : Simulates nums bucket name s :=
    Steps.invariant (p := fun _ s => Simulates nums bucket name s) (simulates_empty habsent)
      (fun _ h hs => h.step hs) run
  refine ⟨fun stored hstored => ?_, fun t₁ t₂ hle => ?_⟩
  · rcases hlevel with ⟨hnone, -⟩ | ⟨fields, expires, tokens, ts, hsome, hf, -, htokens, hcap, -⟩
    · rw [hnone] at hstored
      cases hstored
    · rw [hsome] at hstored
      cases hstored
      exact ⟨fields, expires, tokens, rfl, hf, htokens, hcap⟩
  · have hmillis : ((t₁ / 1000 : ℕ) : ℚ) ≤ ((t₂ / 1000 : ℕ) : ℚ) := Nat.cast_le.mpr (Nat.div_le_div_right hle)
    refine (spent_le_total _ _ _).trans
      ((hspends.total_le (Nat.cast_nonneg _) (perMilli_pos bucket).le hmillis).trans (le_of_eq ?_))
    unfold TokenBucket.perMilli
    ring

/-! ### One request every millisecond -/

/-- Numbers as fractions, if they are not whole. -/
def fractionText (q : ℚ) : Bytes :=
  if q.den = 1 then decimal q.num.toNat else decimal q.num.toNat ++ 47 :: decimal q.den

def readFraction (bytes : Bytes) : Option ℚ := do
  let num ← parseDigits (bytes.takeWhile isDigitByte)
  match bytes.dropWhile isDigitByte with
  | [] => return num
  | _ :: den => return num / (← parseDigits den)

theorem readFraction_fractionText {q : ℚ} (hq : 0 ≤ q) : readFraction (fractionText q) = some q := by
  have hdigits : ∀ n, ∀ b ∈ decimal n, isDigitByte b = true := fun _ _ => isDigitByte_of_mem_decimal
  have hnum : ((q.num.toNat : ℕ) : ℚ) = q.num := by
    rw [← Int.cast_natCast, Int.toNat_of_nonneg (Rat.num_nonneg.mpr hq)]
  unfold fractionText readFraction
  by_cases hden : q.den = 1
  · rw [if_pos hden, List.takeWhile_eq_self_iff.mpr (hdigits _), List.dropWhile_eq_nil_iff.mpr (hdigits _),
      parseDigits_decimal]
    refine congrArg some (hnum.trans ?_)
    exact Rat.coe_int_num_of_den_eq_one hden
  · rw [if_neg hden, List.takeWhile_append_of_pos (hdigits _), List.dropWhile_append_of_pos (hdigits _),
      List.takeWhile_cons_of_neg (by decide), List.dropWhile_cons_of_neg (by decide), List.append_nil,
      parseDigits_decimal]
    simp only [Option.bind_eq_bind, Option.bind_some, parseDigits_decimal]
    refine congrArg some ?_
    rw [hnum]
    exact Rat.num_div_den q

def exactText : NumberText := ⟨fractionText, readFraction, fun _ => readFraction_fractionText⟩

/-- Buckets of one token that is refilled every millisecond. -/
def oneEach : TokenBucket := ⟨"login", 1, ⟨1, 1000000, by decide⟩⟩

/-- Requests in the last microsecond of a millisecond and the first of the next. -/
def oneEachTurns : List Turn := [.pass 999, .acquire 1, .pass 1000, .acquire 1]

section Extend

variable {start : Limited} {turns : List Turn}

theorem then_pass (run : Steps (LimitStep nums bucket name) start turns s) {clock : ℕ}
    (h : s.server.clock ≤ clock) : Steps (LimitStep nums bucket name) start (turns ++ [.pass clock])
      ⟨s.server.advance clock, s.allowed⟩ := run.snoc (.pass h)

theorem then_acquire (run : Steps (LimitStep nums bucket name) start turns s) (cost : ℕ) :
    Steps (LimitStep nums bucket name) start (turns ++ [.acquire cost])
      ⟨(bucket.acquire nums name cost s.server).2, if admitted (bucket.acquire nums name cost s.server).1
        then s.allowed ++ [(s.server.clock, cost)] else s.allowed⟩ := run.snoc (.acquire rfl)

end Extend

theorem oneEach_run : ∃ s, Steps (LimitStep exactText oneEach []) ⟨⟨0, fun _ => none⟩, []⟩ oneEachTurns s ∧
    s.allowed = [(999, 1), (1000, 1)] := by
  have h1 : Steps (LimitStep exactText oneEach []) ⟨⟨0, fun _ => none⟩, []⟩ [.pass 999] _ :=
    then_pass .nil (by decide)
  refine ⟨_, then_acquire (then_pass (then_acquire h1 1) ?_) 1, ?_⟩
  · decide +kernel
  · decide +kernel

/-- By the microsecond more is allowed. -/
theorem allowed_gt : ∃ s, Steps (LimitStep exactText oneEach []) ⟨⟨0, fun _ => none⟩, []⟩ oneEachTurns s ∧
    ¬ (spent s.allowed 999 1000 : ℚ) ≤
      oneEach.capacity + oneEach.rate.tokens * (1000 - 999) / oneEach.rate.periodMicros := by
  obtain ⟨s, run, hallowed⟩ := oneEach_run
  refine ⟨s, run, ?_⟩
  rw [hallowed]
  decide +kernel

theorem allowed_le_oneEach : ∃ s, Steps (LimitStep exactText oneEach []) ⟨⟨0, fun _ => none⟩, []⟩ oneEachTurns s ∧
    spent s.allowed 999 1000 = 2 ∧ (spent s.allowed 999 1000 : ℚ) ≤ oneEach.capacity + oneEach.rate.tokens *
      ((((1000 / 1000 : ℕ) : ℚ) - ((999 / 1000 : ℕ) : ℚ)) * 1000) / oneEach.rate.periodMicros := by
  obtain ⟨s, run, hallowed⟩ := oneEach_run
  obtain ⟨-, h⟩ := allowed_le exactText oneEach [] rfl run
  refine ⟨s, run, ?_, h 999 1000 (by decide)⟩
  rw [hallowed]
  decide

end Wakuwaku.Entity.Redis.Collection
