import Mathlib.Data.List.Basic
import Mathlib.Algebra.Order.Floor.Div
import Mathlib.Order.Bounds.Basic

/-! # Jobs that run on an interval

Instants and durations are in nanoseconds; the greatest instant of the monotonic clock is `limit`. -/

namespace Wakuwaku.Services.CronJob

/-- The input of one run. -/
structure CronTick where
  /-- Number of earlier runs of the job: it wraps. -/
  run : ℕ
  firedAt : ℕ
  deriving DecidableEq, Repr

/-- How the runs of a job are spaced. -/
inductive CronJobInterval where
  | afterFinish (pause : ℕ)
  | atLeast (period : ℕ)
  | afterStart (period : ℕ)
  deriving DecidableEq, Repr

def CronJobInterval.duration : CronJobInterval → ℕ
  | .afterFinish d => d
  | .atLeast d => d
  | .afterStart d => d

/-- What the registration checks at compile time. -/
def assertInterval (interval : CronJobInterval) : Bool := interval.duration != 0

/-! ### Instants -/

/-- The greatest `Duration`. -/
def durationMax : ℕ := 2 ^ 64 * 10 ^ 9 - 1

/-- The greatest `Instant` on Unix: seconds are signed 64-bit numbers. -/
def unixLimit : ℕ := 2 ^ 63 * 10 ^ 9 - 1

/-- `Instant::checked_add`. -/
def checkedAdd (limit instant duration : ℕ) : Option ℕ :=
  if instant + duration ≤ limit then some (instant + duration) else none

/-- `instant + duration`, or `instant` when that overflows. -/
def later (limit instant duration : ℕ) : ℕ := (checkedAdd limit instant duration).getD instant

def u128CheckedMul (a b : ℕ) : Option ℕ := if a * b < 2 ^ 128 then some (a * b) else none

def u64TryFrom (n : ℕ) : Option ℕ := if n < 2 ^ 64 then some n else none

/-- The number of periods from `previous` to the tick after it. -/
def periodsTo (previous now period : ℕ) : ℕ := max ((now - previous) ⌈/⌉ period) 1

def nextTick (limit previous now period : ℕ) : ℕ :=
  let periods := periodsTo previous now period
  ((u128CheckedMul period periods).bind fun nanos =>
    (u64TryFrom nanos).bind fun nanos => checkedAdd limit previous nanos).getD
      ((checkedAdd limit now period).getD now)

/-! ### Runs -/

/-- What the surroundings decide of a run: how long after its target the sleep returns, how long the job
takes, and the wall clock at its start. -/
structure Wake where
  delay : ℕ
  duration : ℕ
  firedAt : ℕ
  deriving DecidableEq, Repr

/-- A run of the job. -/
structure Ran where
  tick : CronTick
  /-- The target of the sleep before it. -/
  scheduled : ℕ
  started : ℕ
  finished : ℕ
  deriving DecidableEq, Repr

/-- The run that a wake-up starts: the sleep returns at once when its target has passed. -/
def ranAt (clock scheduled run : ℕ) (wake : Wake) : Ran where
  tick := ⟨run, wake.firedAt⟩
  scheduled := scheduled
  started := max clock scheduled + wake.delay
  finished := max clock scheduled + wake.delay + wake.duration

/-- `run_serially` until it is stopped, from the moment `clock` with the next start scheduled. -/
def runSerially (nextStart : ℕ → ℕ → ℕ) (clock scheduled run : ℕ) : List Wake → List Ran
  | [] => []
  | wake :: wakes =>
    let ran := ranAt clock scheduled run wake
    ran :: runSerially nextStart ran.finished (nextStart ran.started ran.finished) ((run + 1) % 2 ^ 64) wakes

/-- `run_overlapping` until it is stopped: the loop goes on while the runs it spawned do. -/
def runOverlapping (limit period clock scheduled run : ℕ) : List Wake → List Ran
  | [] => []
  | wake :: wakes =>
    let ran := ranAt clock scheduled run wake
    ran :: runOverlapping limit period ran.started (nextTick limit scheduled ran.started period)
      ((run + 1) % 2 ^ 64) wakes

/-- The runs of a job whose runtime starts at `start`. -/
def runJob (limit : ℕ) (interval : CronJobInterval) (start : ℕ) (wakes : List Wake) : List Ran :=
  match interval with
  | .afterFinish pause => runSerially (fun _started finished => later limit finished pause) start start 0 wakes
  | .atLeast period => runSerially (fun started _finished => later limit started period) start start 0 wakes
  | .afterStart period => runOverlapping limit period start start 0 wakes

/-! ### The next grid point -/

section NextTick

variable {limit previous now period : ℕ}

theorem later_eq {instant duration : ℕ} (h : instant + duration ≤ limit) :
    later limit instant duration = instant + duration := by
  simp [later, checkedAdd, h]

theorem later_eq_self {instant duration : ℕ} (h : ¬ instant + duration ≤ limit) :
    later limit instant duration = instant := by
  simp [later, checkedAdd, h]

theorem periodsTo_pos : 0 < periodsTo previous now period := Nat.lt_of_lt_of_le Nat.zero_lt_one (le_max_right _ _)

theorem le_periodsTo (hd : 0 < period) : now ≤ previous + periodsTo previous now period * period := by
  have h : (now - previous) ⌈/⌉ period ≤ periodsTo previous now period := le_max_left _ _
  rw [ceilDiv_le_iff_le_mul hd] at h
  rw [Nat.mul_comm]
  omega

theorem periodsTo_le {k : ℕ} (hd : 0 < period) (hk : 0 < k) (h : now ≤ previous + k * period) :
    periodsTo previous now period ≤ k := by
  refine max_le ((ceilDiv_le_iff_le_mul hd).mpr ?_) hk
  rw [Nat.mul_comm]
  omega

/-- The tick after `previous` can be told apart and reached: none of the fallbacks is taken. -/
def Reached (limit previous now period : ℕ) : Prop :=
  periodsTo previous now period * period < 2 ^ 64 ∧
    previous + periodsTo previous now period * period ≤ limit

instance : Decidable (Reached limit previous now period) := inferInstanceAs (Decidable (_ ∧ _))

theorem nextTick_eq (h : Reached limit previous now period) :
    nextTick limit previous now period = previous + periodsTo previous now period * period := by
  obtain ⟨h64, hlimit⟩ := h
  have h128 : periodsTo previous now period * period < 2 ^ 128 := h64.trans (by decide)
  rw [Nat.mul_comm] at h64 h128 hlimit
  simp only [nextTick, u128CheckedMul, u64TryFrom, checkedAdd, if_pos h128, if_pos h64, if_pos hlimit,
    Option.bind_some, Option.getD_some, Nat.mul_comm]

theorem nextTick_eq_later (h : ¬ Reached limit previous now period) :
    nextTick limit previous now period = later limit now period := by
  have hnone : ((u128CheckedMul period (periodsTo previous now period)).bind fun nanos =>
      (u64TryFrom nanos).bind fun nanos => checkedAdd limit previous nanos) = none := by
    simp only [Option.bind_eq_none_iff, u128CheckedMul, u64TryFrom, checkedAdd, Option.ite_none_right_eq_some,
      Option.some.injEq, ite_eq_right_iff, reduceCtorEq, imp_false]
    rintro _ ⟨-, rfl⟩ _ ⟨h64, rfl⟩ hlimit
    exact h (by simpa [Reached, Nat.mul_comm] using And.intro h64 hlimit)
  simp only [nextTick, hnone, Option.getD_none, later]

theorem le_later {instant duration : ℕ} : instant ≤ later limit instant duration := by
  by_cases h : instant + duration ≤ limit
  · simp [later_eq h]
  · exact (later_eq_self h).ge

theorem le_nextTick (h : previous ≤ now) : previous ≤ nextTick limit previous now period := by
  by_cases hreached : Reached limit previous now period
  · simp [nextTick_eq hreached]
  · rw [nextTick_eq_later hreached]
    exact h.trans le_later

/-- The grid points after `previous` that are not before `now`, on the grid of `start`. -/
def gridFrom (start period previous now : ℕ) : Set ℕ :=
  {p | (∃ k, p = start + k * period) ∧ previous < p ∧ now ≤ p}

/-- The first of them. -/
theorem isLeast_gridFrom {start k : ℕ} (hd : 0 < period) (hprevious : previous = start + k * period) :
    IsLeast (gridFrom start period previous now) (previous + periodsTo previous now period * period) := by
  refine ⟨⟨⟨k + periodsTo previous now period, by rw [hprevious, Nat.add_mul]; omega⟩, ?_, le_periodsTo hd⟩, ?_⟩
  · exact Nat.lt_add_of_pos_right (Nat.mul_pos periodsTo_pos hd)
  · rintro p ⟨⟨k', rfl⟩, hlt, hle⟩
    have hk : k < k' := by
      rw [hprevious] at hlt
      exact Nat.lt_of_mul_lt_mul_right (a := period) (by omega)
    have hsplit : start + k' * period = previous + (k' - k) * period := by
      rw [hprevious, Nat.sub_mul]
      have := Nat.mul_le_mul_right period hk.le
      omega
    rw [hsplit] at hle ⊢
    exact Nat.add_le_add_left (Nat.mul_le_mul_right period (periodsTo_le hd (by omega) hle)) _

/-- One period is enough from the moment of the fallback. -/
theorem periodsTo_mul_le (hd : 0 < period) (h : previous ≤ now) :
    previous + periodsTo previous now period * period ≤ now + period := by
  obtain hle | hlt := le_or_gt now (previous + 1 * period)
  · have := Nat.mul_le_mul_right period (periodsTo_le hd Nat.one_pos hle)
    omega
  · obtain ⟨k, hk⟩ : ∃ k, periodsTo previous now period = k + 1 :=
      Nat.exists_eq_add_one.mpr periodsTo_pos
    by_contra hover
    have hk' : now ≤ previous + k * period := by rw [hk, Nat.add_mul] at hover; omega
    have hpos : 0 < k := by
      rcases Nat.eq_zero_or_pos k with rfl | hpos
      · omega
      · exact hpos
    have := periodsTo_le hd hpos hk'
    omega

end NextTick

end Wakuwaku.Services.CronJob
