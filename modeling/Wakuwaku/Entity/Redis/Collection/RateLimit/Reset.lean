import Wakuwaku.Entity.Redis.Collection.RateLimit

/-! # A rate limiter that is reset

A reset deletes the bucket, so what comes after it is a run from an absent key. What such a run allows obeys
the bound of the bucket, and so each reset in a window of time adds the capacity to what is allowed in
it (`allowed_le_of_resets`). -/

namespace Wakuwaku.Entity.Redis.Collection

open Wakuwaku.Redis Wakuwaku.Entity.Redis

/-! ### Runs -/

/-- The server, the requests it allowed with their times in microseconds, and the times of the resets. -/
structure Metered extends Limited where
  resets : List ℕ

inductive MeterTurn where
  | limit (turn : Turn)
  | reset

/-- Time passes, a client acquires, or one resets the bucket. -/
inductive MeterStep (nums : NumberText) (bucket : TokenBucket) (name : Bytes) : Metered → MeterTurn → Metered → Prop
  | limit {s : Metered} {turn : Turn} {limited : Limited} (h : LimitStep nums bucket name s.toLimited turn limited) :
    MeterStep nums bucket name s (.limit turn) ⟨limited, s.resets⟩
  | reset {s : Metered} {used : Bool} {server : Server} (h : bucket.reset name s.server = (.ok used, server)) :
    MeterStep nums bucket name s .reset ⟨⟨server, s.allowed⟩, s.resets ++ [s.server.clock]⟩

/-- How many resets there were from one time to another, both included. -/
def resetsIn (resets : List ℕ) (t₁ t₂ : ℕ) : ℕ := resets.countP fun t => t₁ ≤ t ∧ t ≤ t₂

/-- What is refilled from one time to another, in whole milliseconds. -/
def TokenBucket.refills (bucket : TokenBucket) (t₁ t₂ : ℕ) : ℚ :=
  bucket.rate.tokens * ((((t₂ / 1000 : ℕ) : ℚ) - ((t₁ / 1000 : ℕ) : ℚ)) * 1000) / bucket.rate.periodMicros

/-- What is allowed from one time to another is at most the capacity, once and for each reset, and what is
refilled. -/
def Bounded (bucket : TokenBucket) (allowed : List (ℕ × ℕ)) (resets : List ℕ) : Prop :=
  ∀ t₁ t₂, t₁ ≤ t₂ →
    (spent allowed t₁ t₂ : ℚ) ≤ (resetsIn resets t₁ t₂ + 1) * bucket.capacity + bucket.refills t₁ t₂

/-! ### Windows -/

variable {nums : NumberText} {bucket : TokenBucket} {name : Bytes} {s s' : Metered} {t₁ t₂ t : ℕ}
  {allowed later : List (ℕ × ℕ)} {resets : List ℕ}

theorem spent_append (allowed later : List (ℕ × ℕ)) (t₁ t₂ : ℕ) :
    spent (allowed ++ later) t₁ t₂ = spent allowed t₁ t₂ + spent later t₁ t₂ := by
  unfold spent
  rw [List.filter_append, List.map_append, List.sum_append]

/-- Nothing was allowed where no time of a request is. -/
theorem spent_of_out (h : ∀ e ∈ allowed, e.1 < t₁ ∨ t₂ < e.1) : spent allowed t₁ t₂ = 0 := by
  unfold spent
  rw [List.filter_eq_nil_iff.mpr]
  · rfl
  · intro e he
    have := h e he
    simp only [decide_eq_true_eq]
    omega

theorem spent_of_le (h : ∀ e ∈ allowed, e.1 ≤ t) (ht : t ≤ t₂) : spent allowed t₁ t₂ = spent allowed t₁ t := by
  unfold spent
  congr 2
  refine List.filter_congr fun e he => decide_eq_decide.mpr ?_
  have := h e he
  omega

theorem spent_of_ge (h : ∀ e ∈ allowed, t ≤ e.1) (ht : t₁ ≤ t) : spent allowed t₁ t₂ = spent allowed t t₂ := by
  unfold spent
  congr 2
  refine List.filter_congr fun e he => decide_eq_decide.mpr ?_
  have := h e he
  omega

theorem resetsIn_concat (resets : List ℕ) (t t₁ t₂ : ℕ) :
    resetsIn (resets ++ [t]) t₁ t₂ = resetsIn resets t₁ t₂ + if t₁ ≤ t ∧ t ≤ t₂ then 1 else 0 := by
  unfold resetsIn
  rw [List.countP_append, List.countP_singleton]
  simp only [decide_eq_true_eq]

theorem resetsIn_mono (h : t ≤ t₂) : resetsIn resets t₁ t ≤ resetsIn resets t₁ t₂ := by
  unfold resetsIn
  refine List.countP_mono_left fun e _ he => ?_
  simp only [decide_eq_true_eq] at he ⊢
  omega

theorem refills_add (bucket : TokenBucket) (t₁ t t₂ : ℕ) :
    bucket.refills t₁ t + bucket.refills t t₂ = bucket.refills t₁ t₂ := by
  unfold TokenBucket.refills
  ring

/-- What an ideal bucket covers is bounded. -/
theorem Simulates.bounded {limited : Limited} (h : Simulates nums bucket name limited) (resets : List ℕ) :
    Bounded bucket limited.allowed resets := by
  obtain ⟨ideal, level, hspends, -⟩ := h
  intro t₁ t₂ hle
  have hmillis : ((t₁ / 1000 : ℕ) : ℚ) ≤ ((t₂ / 1000 : ℕ) : ℚ) := Nat.cast_le.mpr (Nat.div_le_div_right hle)
  have hwindow := hspends.total_le (Nat.cast_nonneg _) (perMilli_pos bucket).le hmillis
  have hrefill : bucket.perMilli * (((t₂ / 1000 : ℕ) : ℚ) - ((t₁ / 1000 : ℕ) : ℚ)) = bucket.refills t₁ t₂ := by
    unfold TokenBucket.perMilli TokenBucket.refills
    ring
  have hresets : (0 : ℚ) ≤ resetsIn resets t₁ t₂ * bucket.capacity := by positivity
  have hspent := spent_le_total limited.allowed t₁ t₂
  rw [hrefill] at hwindow
  linarith

/-- **A reset adds the capacity to a window.** What was allowed before it and what is allowed after it are
bounded each. -/
theorem Bounded.append (h : Bounded bucket allowed resets) (hlater : Bounded bucket later [])
    (hbefore : ∀ e ∈ allowed, e.1 ≤ t) (hafter : ∀ e ∈ later, t ≤ e.1) :
    Bounded bucket (allowed ++ later) (resets ++ [t]) := by
  intro t₁ t₂ hle
  rw [spent_append, Nat.cast_add, resetsIn_concat]
  by_cases hlow : t₁ ≤ t
  · by_cases hhigh : t ≤ t₂
    · -- the window is split at the reset
      have h₁ := h t₁ t hlow
      have h₂ := hlater t t₂ hhigh
      have hmono : (resetsIn resets t₁ t : ℚ) * bucket.capacity ≤ resetsIn resets t₁ t₂ * bucket.capacity :=
        mul_le_mul_of_nonneg_right (Nat.cast_le.mpr (resetsIn_mono hhigh)) (Nat.cast_nonneg _)
      have hnone : resetsIn [] t t₂ = 0 := rfl
      rw [spent_of_le hbefore hhigh, spent_of_ge hafter hlow, if_pos ⟨hlow, hhigh⟩, ← refills_add bucket t₁ t t₂]
      rw [hnone] at h₂
      push_cast at h₂ ⊢
      linarith
    · have hout : spent later t₁ t₂ = 0 := by
        refine spent_of_out fun e he => ?_
        have := hafter e he
        omega
      have h₁ := h t₁ t₂ hle
      rw [hout, if_neg (by omega)]
      push_cast
      linarith
  · have hout : spent allowed t₁ t₂ = 0 := by
      refine spent_of_out fun e he => ?_
      have := hbefore e he
      omega
    have h₂ := hlater t₁ t₂ hle
    have hnone : resetsIn [] t₁ t₂ = 0 := rfl
    have hresets : (0 : ℚ) ≤ resetsIn resets t₁ t₂ * bucket.capacity := by positivity
    rw [hout, if_neg (by omega)]
    rw [hnone] at h₂
    push_cast at h₂ ⊢
    linarith

/-! ### Runs in parts -/

/-- What was allowed since the last reset is a run of its own, and what was allowed before is bounded. -/
def Parts (nums : NumberText) (bucket : TokenBucket) (name : Bytes) (s : Metered) : Prop :=
  ∃ earlier current, s.allowed = earlier ++ current ∧ Simulates nums bucket name ⟨s.server, current⟩ ∧
    (∀ e ∈ s.allowed, e.1 ≤ s.server.clock) ∧ ((earlier = [] ∧ s.resets = []) ∨
      ∃ resets t, s.resets = resets ++ [t] ∧ Bounded bucket earlier resets ∧ t ≤ s.server.clock ∧
        (∀ e ∈ earlier, e.1 ≤ t) ∧ ∀ e ∈ current, t ≤ e.1)

theorem Parts.bounded (h : Parts nums bucket name s) : Bounded bucket s.allowed s.resets := by
  obtain ⟨earlier, current, hallowed, hsim, -, ⟨rfl, hr⟩ | ⟨resets, t, hr, hbound, -, hbefore, hafter⟩⟩ := h
  · rw [hallowed, hr]
    exact hsim.bounded []
  · rw [hallowed, hr]
    exact hbound.append (hsim.bounded []) hbefore hafter

/-- What one step of the limiter does to the requests. -/
theorem LimitStep.cases_allowed {limited limited' : Limited} {turn : Turn}
    (h : LimitStep nums bucket name limited turn limited') (hclock : ∃ level,
      Level nums bucket (limited.server.db (bucket.key name)) limited.server.now level) :
    ∃ more, limited'.allowed = limited.allowed ++ more ∧ (∀ e ∈ more, e.1 = limited.server.clock) ∧
      limited.server.clock ≤ limited'.server.clock ∧
      ∀ earlier, LimitStep nums bucket name ⟨limited.server, earlier⟩ turn ⟨limited'.server, earlier ++ more⟩ := by
  cases h with
  | pass hle =>
    refine ⟨[], (List.append_nil _).symm, by simp, hle, fun earlier => ?_⟩
    rw [List.append_nil]
    exact .pass hle
  | @acquire cost result server ha =>
    obtain ⟨level, hlevel⟩ := hclock
    obtain ⟨-, hkept⟩ := acquired cost hlevel
    rw [ha] at hkept
    refine ⟨if admitted result then [(limited.server.clock, cost)] else [], ?_, ?_, hkept.ge, fun earlier => ?_⟩
    · split <;> simp
    · split <;> simp
    · have hstep := LimitStep.acquire (s := ⟨limited.server, earlier⟩) ha
      cases hadmitted : admitted result with
      | true =>
        rw [hadmitted] at hstep
        exact hstep
      | false =>
        rw [hadmitted] at hstep
        simpa using hstep

/-- What one step preserves. -/
theorem Parts.step {turn : MeterTurn} (h : Parts nums bucket name s) (hs : MeterStep nums bucket name s turn s') :
    Parts nums bucket name s' := by
  have hbound := h.bounded
  obtain ⟨earlier, current, hallowed, hsim, htimes, hparts⟩ := h
  cases hs with
  | @limit turn limited hstep =>
    have hlevel := hsim
    obtain ⟨-, level, -, hlevel, -⟩ := hlevel
    obtain ⟨more, hmore, hnow, hclock, hlift⟩ := hstep.cases_allowed ⟨level, hlevel⟩
    refine ⟨earlier, current ++ more, ?_, hsim.step (hlift current), ?_, ?_⟩
    · show limited.allowed = _
      rw [hmore, hallowed, List.append_assoc]
    · intro e he
      replace he : e ∈ limited.allowed := he
      rw [hmore] at he
      rcases List.mem_append.mp he with he | he
      · exact (htimes e he).trans hclock
      · exact (hnow e he).le.trans hclock
    · rcases hparts with ⟨rfl, hr⟩ | ⟨resets, t, hr, hb, ht, hbefore, hafter⟩
      · exact .inl ⟨rfl, hr⟩
      · refine .inr ⟨resets, t, hr, hb, ht.trans hclock, hbefore, fun e he => ?_⟩
        rcases List.mem_append.mp he with he | he
        · exact hafter e he
        · exact ht.trans (hnow e he).ge
  | @reset used server hreset =>
    have hserver : server = s.server.put (bucket.key name) none := by
      have happly : bucket.reset name s.server = _ := Command.bind_of_ok del_apply
      rw [hreset] at happly
      exact (Prod.mk.inj happly).2
    subst hserver
    refine ⟨s.allowed, [], (List.append_nil _).symm, simulates_empty (Server.db_put_self _ _ _), htimes,
      .inr ⟨s.resets, s.server.clock, rfl, hbound, le_refl _, htimes, by simp⟩⟩

/-- **A rate limiter that is reset allows a capacity more for each reset.** In every state of a run from an
absent key, requests of at most the capacity, once and for each reset in between, and what is refilled in the
whole milliseconds in between are allowed from one time to another. -/
theorem allowed_le_of_resets (nums : NumberText) (bucket : TokenBucket) (name : Bytes) {server : Server}
    {turns : List MeterTurn} (habsent : server.db (bucket.key name) = none)
    (run : Steps (MeterStep nums bucket name) ⟨⟨server, []⟩, []⟩ turns s) (hle : t₁ ≤ t₂) :
    (spent s.allowed t₁ t₂ : ℚ) ≤ (resetsIn s.resets t₁ t₂ + 1) * bucket.capacity + bucket.refills t₁ t₂ := by
  have hparts : Parts nums bucket name s := Steps.invariant (p := fun _ s => Parts nums bucket name s)
    ⟨[], [], rfl, simulates_empty habsent, by simp, .inl ⟨rfl, rfl⟩⟩ (fun _ h hs => h.step hs) run
  exact hparts.bounded t₁ t₂ hle

/-! ### A reset between two requests -/

section Extend

variable {start : Metered} {turns : List MeterTurn}

theorem then_meter_acquire (run : Steps (MeterStep nums bucket name) start turns s) (cost : ℕ) :
    Steps (MeterStep nums bucket name) start (turns ++ [.limit (.acquire cost)])
      ⟨⟨(bucket.acquire nums name cost s.server).2, if admitted (bucket.acquire nums name cost s.server).1
        then s.allowed ++ [(s.server.clock, cost)] else s.allowed⟩, s.resets⟩ :=
  run.snoc (.limit (.acquire rfl))

theorem then_reset (run : Steps (MeterStep nums bucket name) start turns s) :
    Steps (MeterStep nums bucket name) start (turns ++ [.reset])
      ⟨⟨s.server.put (bucket.key name) none, s.allowed⟩, s.resets ++ [s.server.clock]⟩ :=
  run.snoc (.reset (Command.bind_of_ok del_apply))

end Extend

/-- A bucket of one token that is taken, reset and taken again in one microsecond. -/
theorem allowed_le_of_resets_oneEach : ∃ s, Steps (MeterStep exactText oneEach []) ⟨⟨⟨0, fun _ => none⟩, []⟩, []⟩
      [.limit (.acquire 1), .reset, .limit (.acquire 1)] s ∧ spent s.allowed 0 0 = 2 ∧
    (spent s.allowed 0 0 : ℚ) ≤ (resetsIn s.resets 0 0 + 1) * oneEach.capacity + oneEach.refills 0 0 := by
  have run := then_meter_acquire (then_reset (then_meter_acquire
    (Steps.nil : Steps (MeterStep exactText oneEach []) ⟨⟨⟨0, fun _ => none⟩, []⟩, []⟩ _ _) 1)) 1
  refine ⟨_, run, ?_, allowed_le_of_resets exactText oneEach [] rfl run (le_refl 0)⟩
  decide +kernel

end Wakuwaku.Entity.Redis.Collection
