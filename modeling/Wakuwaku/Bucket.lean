import Mathlib.Algebra.Order.Field.Basic
import Mathlib.Algebra.BigOperators.Group.List.Basic
import Mathlib.Tactic.Linarith
import Mathlib.Tactic.Ring

/-! # Token buckets

A bucket starts full, is refilled at a rate up to its capacity and gives what it holds. In any window
of time it gives at most its capacity and what is refilled in that time (`Spends.total_le`). A gauge
follows the level from request to request, and what it does not give leaves it as it was. -/

namespace Wakuwaku

variable {K : Type} [Field K] [LinearOrder K]

/-- What was given from one time to another, both included, of a list of times and amounts. -/
def total (given : List (K × K)) (a b : K) : K :=
  ((given.filter fun e => a ≤ e.1 ∧ e.1 ≤ b).map Prod.snd).sum

/-- What a bucket gave until a time, and the level it has then. -/
inductive Spends (capacity rate : K) : List (K × K) → K → K → Prop
  | full (t : K) : Spends capacity rate [] t capacity
  | wait {given t level t'} (h : Spends capacity rate given t level) (ht : t ≤ t') :
    Spends capacity rate given t' (min capacity (level + rate * (t' - t)))
  | take {given t level cost} (h : Spends capacity rate given t level) (hpos : 0 ≤ cost)
    (hcost : cost ≤ level) : Spends capacity rate (given ++ [(t, cost)]) t (level - cost)

theorem total_nil (a b : K) : total [] a b = 0 := rfl

theorem total_cons (t cost : K) (given : List (K × K)) (a b : K) :
    total ((t, cost) :: given) a b = (if a ≤ t ∧ t ≤ b then cost else 0) + total given a b := by
  unfold total
  by_cases h : a ≤ t ∧ t ≤ b
  · rw [List.filter_cons_of_pos (by simpa using h), if_pos h, List.map_cons, List.sum_cons]
  · rw [List.filter_cons_of_neg (by simpa using h), if_neg h, zero_add]

theorem total_concat (given : List (K × K)) (t cost a b : K) :
    total (given ++ [(t, cost)]) a b = total given a b + if a ≤ t ∧ t ≤ b then cost else 0 := by
  induction given with
  | nil => rw [List.nil_append, total_cons, total_nil, add_comm]
  | cons e rest ih => rw [List.cons_append, total_cons, total_cons, ih, add_assoc]

/-- Nothing is given after the last time. -/
theorem total_of_le {given : List (K × K)} {t b : K} (h : ∀ e ∈ given, e.1 ≤ t) (a : K) (hb : t ≤ b) :
    total given a b = total given a t := by
  unfold total
  congr 2
  refine List.filter_congr fun e he => decide_eq_decide.mpr ?_
  exact and_congr_right fun _ => ⟨fun _ => h e he, fun _ => (h e he).trans hb⟩

theorem total_of_lt {given : List (K × K)} {t a : K} (h : ∀ e ∈ given, e.1 ≤ t) (b : K) (ha : t < a) :
    total given a b = 0 := by
  unfold total
  rw [List.filter_eq_nil_iff.mpr]
  · rfl
  · intro e he
    have := h e he
    simp only [decide_eq_true_eq, not_and]
    intro hae
    exact absurd (hae.trans this) (not_le.mpr ha)

namespace Spends

variable {capacity rate t level : K} {given : List (K × K)}

theorem times_le (h : Spends capacity rate given t level) : ∀ e ∈ given, e.1 ≤ t := by
  induction h with
  | full => simp
  | wait h ht ih => exact fun e he => (ih e he).trans ht
  | take h hpos _ ih =>
    intro e he
    rcases List.mem_append.mp he with he | he
    · exact ih e he
    · rw [List.mem_singleton.mp he]

variable [IsStrictOrderedRing K]

/-- What was given since a time, and the level, are at most the capacity and what was refilled. -/
theorem total_add_level_le (h : Spends capacity rate given t level) (hrate : 0 ≤ rate) {a : K} (ha : a ≤ t) :
    total given a t + level ≤ capacity + rate * (t - a) := by
  induction h with
  | full t =>
    have := mul_nonneg hrate (sub_nonneg.mpr ha)
    rw [total_nil]
    linarith
  | @wait given t level t' h ht ih =>
    by_cases hat : a ≤ t
    · have hlevel := min_le_right capacity (level + rate * (t' - t))
      have hsum := ih hat
      rw [total_of_le h.times_le a ht]
      have hsplit : rate * (t' - a) = rate * (t - a) + rate * (t' - t) := by ring
      linarith
    · have hlevel := min_le_left capacity (level + rate * (t' - t))
      have := mul_nonneg hrate (sub_nonneg.mpr ha)
      rw [total_of_lt h.times_le t' (not_le.mp hat)]
      linarith
  | @take given t level cost h hpos hcost ih =>
    have hsum := ih ha
    rw [total_concat, if_pos ⟨ha, le_refl t⟩]
    linarith

/-- **In any window a bucket gives at most its capacity and what is refilled in that time.** -/
theorem total_le (h : Spends capacity rate given t level) (hcapacity : 0 ≤ capacity) (hrate : 0 ≤ rate)
    {a b : K} (hab : a ≤ b) : total given a b ≤ capacity + rate * (b - a) := by
  have hwindow := mul_nonneg hrate (sub_nonneg.mpr hab)
  induction h with
  | full =>
    rw [total_nil]
    linarith
  | wait h ht ih => exact ih
  | @take given t level cost h hpos hcost ih =>
    rw [total_concat]
    by_cases ht : a ≤ t ∧ t ≤ b
    · obtain ⟨hat, htb⟩ := ht
      have hsum := h.total_add_level_le hrate hat
      have hmono : rate * (t - a) ≤ rate * (b - a) := mul_le_mul_of_nonneg_left (by linarith) hrate
      rw [if_pos ⟨hat, htb⟩, total_of_le h.times_le a htb]
      linarith
    · rw [if_neg ht, add_zero]
      exact ih

end Spends

/-! ### Levels -/

/-- The level after some time in which nothing is taken. -/
def refilled (capacity rate level elapsed : K) : K := min capacity (level + rate * elapsed)

section Refilled

variable {capacity rate level elapsed : K}

theorem refilled_le : refilled capacity rate level elapsed ≤ capacity := min_le_left _ _

theorem refilled_zero (hle : level ≤ capacity) : refilled capacity rate level 0 = level := by
  rw [refilled, mul_zero, add_zero, min_eq_right hle]

theorem refilled_eq_capacity (h : capacity ≤ level + rate * elapsed) :
    refilled capacity rate level elapsed = capacity := min_eq_left h

/-- A level below the capacity is reached iff enough is refilled. -/
theorem le_refilled_iff {amount : K} (hle : amount ≤ capacity) :
    amount ≤ refilled capacity rate level elapsed ↔ amount ≤ level + rate * elapsed := by
  rw [refilled, le_min_iff, and_iff_right hle]

variable [IsStrictOrderedRing K]

/-- The refills of consecutive times add up, also when the first one reaches the capacity. -/
theorem refilled_refilled (hrate : 0 ≤ rate) {a b : K} (hb : 0 ≤ b) :
    refilled capacity rate (refilled capacity rate level a) b = refilled capacity rate level (a + b) := by
  have hrefill := mul_nonneg hrate hb
  have hsum : level + rate * (a + b) = level + rate * a + rate * b := by ring
  rcases le_total capacity (level + rate * a) with hfull | hless
  · rw [refilled_eq_capacity hfull, refilled_eq_capacity (by linarith), refilled_eq_capacity (by linarith)]
  · rw [refilled, refilled, min_eq_right hless, ← hsum]
    rfl

end Refilled

/-! ### Requests -/

/-- The level of a bucket at a time. -/
structure Gauge (K : Type) where
  level : K
  time : K

namespace Gauge

section Take

variable (capacity rate : K)

/-- The level at a later time. -/
def levelAt (gauge : Gauge K) (t : K) : K := refilled capacity rate gauge.level (t - gauge.time)

/-- After a request, of an amount at a time: a bucket that holds less is unchanged. -/
def take (gauge : Gauge K) (request : K × K) : Gauge K :=
  if request.2 ≤ gauge.levelAt capacity rate request.1 then
    ⟨gauge.levelAt capacity rate request.1 - request.2, request.1⟩
  else gauge

/-- The levels that requests find. -/
def found (gauge : Gauge K) : List (K × K) → List K
  | [] => []
  | request :: rest => gauge.levelAt capacity rate request.1 :: found (gauge.take capacity rate request) rest

end Take

variable {capacity rate : K} {gauge : Gauge K} {requests : List (K × K)} {request : K × K} {t : K}

@[simp] theorem length_found : (gauge.found capacity rate requests).length = requests.length := by
  induction requests generalizing gauge with
  | nil => rfl
  | cons request rest ih => simp [found, ih]

theorem found_append (later : List (K × K)) : gauge.found capacity rate (requests ++ later) =
    gauge.found capacity rate requests ++
      (requests.foldl (take capacity rate) gauge).found capacity rate later := by
  induction requests generalizing gauge with
  | nil => rfl
  | cons request rest ih => simp [found, ih]

variable [IsStrictOrderedRing K]

/-- The level right after a request. -/
theorem levelAt_take (hpos : 0 ≤ request.2) :
    (gauge.take capacity rate request).levelAt capacity rate request.1 =
      if request.2 ≤ gauge.levelAt capacity rate request.1 then
        gauge.levelAt capacity rate request.1 - request.2
      else gauge.levelAt capacity rate request.1 := by
  unfold Gauge.take
  by_cases hle : request.2 ≤ gauge.levelAt capacity rate request.1
  · have hfull : gauge.levelAt capacity rate request.1 ≤ capacity := refilled_le
    rw [if_pos hle, if_pos hle]
    show refilled capacity rate (gauge.levelAt capacity rate request.1 - request.2) (request.1 - request.1) = _
    rw [sub_self, refilled_zero (by linarith)]
  · rw [if_neg hle, if_neg hle]

/-- The level of later on. -/
theorem refilled_levelAt (hrate : 0 ≤ rate) {t' : K} (ht : t ≤ t') :
    refilled capacity rate (gauge.levelAt capacity rate t) (t' - t) = gauge.levelAt capacity rate t' := by
  rw [levelAt, refilled_refilled hrate (sub_nonneg.mpr ht), levelAt]
  congr 1
  ring

end Gauge

end Wakuwaku
