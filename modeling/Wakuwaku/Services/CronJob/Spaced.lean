import Mathlib.Data.List.Chain
import Mathlib.Data.Set.List
import Wakuwaku.Services.CronJob

/-! # The spacing of the runs of a job

What follows what in the runs of a job (`chain_runSerially`, `chain_runOverlapping`), and when that is the
spacing the interval stands for (`spaced_iff`): when the next start of a run that another one follows is an
instant that can be reached. -/

namespace Wakuwaku.Services.CronJob

variable {limit start clock scheduled run period : ℕ} {nextStart : ℕ → ℕ → ℕ} {wakes : List Wake}

/-! ### Consecutive entries of a list -/

section Chain

variable {α : Type} {R S : α → α → Prop} {P : α → Prop}

/-- A relation that holds between neighbours when the earlier one has a property. -/
theorem isChain_iff_dropLast {l : List α} (hS : l.IsChain S)
    (h : ∀ a ∈ l, ∀ b ∈ l, S a b → (R a b ↔ P a)) : l.IsChain R ↔ ∀ a ∈ l.dropLast, P a := by
  induction l with
  | nil => simp
  | cons a l ih =>
    cases l with
    | nil => simp
    | cons b l =>
      rw [List.isChain_cons_cons] at hS
      rw [List.isChain_cons_cons, List.dropLast_cons_cons, List.forall_mem_cons]
      refine and_congr (h a (by simp) b (by simp) hS.1) (ih hS.2 fun a ha b hb => ?_)
      exact h a (List.mem_cons_of_mem _ ha) b (List.mem_cons_of_mem _ hb)

/-- What a chain carries from its first entry to all of them. -/
theorem forall_mem_of_isChain {l : List α} (hS : l.IsChain S) (hhead : ∀ a ∈ l.head?, P a)
    (h : ∀ a b, S a b → P a → P b) : ∀ a ∈ l, P a := by
  induction l with
  | nil => simp
  | cons a l ih =>
    rw [List.isChain_cons] at hS
    have ha : P a := hhead a rfl
    exact List.forall_mem_cons.mpr ⟨ha, ih hS.2 fun b hb => h a b (hS.1 b hb) ha⟩

end Chain

/-! ### What follows what -/

/-- Neighbouring runs of `run_serially`. -/
structure Follows (nextStart : ℕ → ℕ → ℕ) (a b : Ran) : Prop where
  scheduled_eq : b.scheduled = nextStart a.started a.finished
  scheduled_le : b.scheduled ≤ b.started
  finished_le : a.finished ≤ b.started

theorem Follows.of_ranAt {a : Ran} {run : ℕ} {wake : Wake} :
    Follows nextStart a (ranAt a.finished (nextStart a.started a.finished) run wake) where
  scheduled_eq := rfl
  scheduled_le := (le_max_right _ _).trans (Nat.le_add_right _ _)
  finished_le := (le_max_left _ _).trans (Nat.le_add_right _ _)

theorem chain_runSerially : (runSerially nextStart clock scheduled run wakes).IsChain (Follows nextStart) := by
  induction wakes generalizing clock scheduled run with
  | nil => exact .nil
  | cons wake wakes ih =>
    refine List.isChain_cons.mpr ⟨fun b hb => ?_, ih⟩
    cases wakes with
    | nil => cases hb
    | cons wake' wakes =>
      cases hb
      exact Follows.of_ranAt

/-- Neighbouring runs of `run_overlapping`. -/
structure Ticks (limit period : ℕ) (a b : Ran) : Prop where
  scheduled_eq : b.scheduled = nextTick limit a.scheduled a.started period
  scheduled_le : b.scheduled ≤ b.started

theorem Ticks.of_ranAt {a : Ran} {run : ℕ} {wake : Wake} :
    Ticks limit period a (ranAt a.started (nextTick limit a.scheduled a.started period) run wake) where
  scheduled_eq := rfl
  scheduled_le := (le_max_right _ _).trans (Nat.le_add_right _ _)

theorem chain_runOverlapping :
    (runOverlapping limit period clock scheduled run wakes).IsChain (Ticks limit period) := by
  induction wakes generalizing clock scheduled run with
  | nil => exact .nil
  | cons wake wakes ih =>
    refine List.isChain_cons.mpr ⟨fun b hb => ?_, ih⟩
    cases wakes with
    | nil => cases hb
    | cons wake' wakes =>
      cases hb
      exact Ticks.of_ranAt

theorem head_runOverlapping {ran : Ran}
    (h : ran ∈ (runOverlapping limit period clock scheduled run wakes).head?) :
    ran.scheduled = scheduled ∧ scheduled ≤ ran.started := by
  cases wakes with
  | nil => cases h
  | cons wake wakes =>
    cases h
    exact ⟨rfl, (le_max_right _ _).trans (Nat.le_add_right _ _)⟩

/-- No run starts before its target, and no target lies before the first one. -/
theorem scheduled_runOverlapping :
    ∀ ran ∈ runOverlapping limit period clock scheduled run wakes,
      scheduled ≤ ran.scheduled ∧ ran.scheduled ≤ ran.started := by
  refine forall_mem_of_isChain chain_runOverlapping (fun ran h => ?_) fun a b hab ⟨hle, hstarted⟩ => ?_
  · obtain ⟨he, hle⟩ := head_runOverlapping h
    exact ⟨he.ge, he ▸ hle⟩
  · refine ⟨hle.trans ?_, hab.scheduled_le⟩
    rw [hab.scheduled_eq]
    exact le_nextTick hstarted

/-! ### The spacing -/

/-- The schedule of overlapping runs: each run is scheduled on the grid of `start`, at most one for a point. -/
structure OnGrid (limit start period : ℕ) (rans : List Ran) : Prop where
  grid : ∃ ks : List ℕ, ks.Pairwise (· < ·) ∧ rans.map Ran.scheduled = ks.map fun k => start + k * period
  notBefore : ∀ ran ∈ rans, ran.scheduled ≤ ran.started
  /-- A grid point is skipped only when it lay before the moment the previous run was started. -/
  skipped : rans.IsChain fun a b => ∀ k, a.scheduled < start + k * period → start + k * period < b.scheduled →
    start + k * period < a.started
  next : rans.IsChain fun a b => IsLeast (gridFrom start period a.scheduled a.started) b.scheduled
  tick : ∀ ran ∈ rans, ∀ p ≤ limit, p < start + 2 ^ 64 →
    IsLeast (gridFrom start period ran.scheduled ran.started) p →
    nextTick limit ran.scheduled ran.started period = p

/-- The spacing that the interval of a job stands for. -/
def Spaced (limit : ℕ) (interval : CronJobInterval) (start : ℕ) (rans : List Ran) : Prop :=
  match interval with
  | .afterFinish pause => rans.IsChain fun a b => a.finished + pause ≤ b.started
  | .atLeast period => rans.IsChain fun a b => a.started + period ≤ b.started ∧ a.finished ≤ b.started
  | .afterStart period => OnGrid limit start period rans

/-- The next start after a run is an instant of the clock, and less than `2 ^ 64` nanoseconds after the grid
point of that run. -/
def Due (limit : ℕ) (interval : CronJobInterval) (ran : Ran) : Prop :=
  match interval with
  | .afterFinish pause => ran.finished + pause ≤ limit
  | .atLeast period => ran.started + period ≤ limit
  | .afterStart period => Reached limit ran.scheduled ran.started period

instance : (interval : CronJobInterval) → (ran : Ran) → Decidable (Due limit interval ran)
  | .afterFinish pause, ran => inferInstanceAs (Decidable (ran.finished + pause ≤ limit))
  | .atLeast period, ran => inferInstanceAs (Decidable (ran.started + period ≤ limit))
  | .afterStart period, ran => inferInstanceAs (Decidable (Reached limit ran.scheduled ran.started period))

/-! ### Runs on the grid -/

/-- `b` is scheduled at the first point that is left after `a`. -/
def OnTime (period : ℕ) (a b : Ran) : Prop :=
  b.scheduled = a.scheduled + periodsTo a.scheduled a.started period * period

section Grid

variable {rans : List Ran} {a b : Ran}

theorem OnTime.lt (hd : 0 < period) (h : OnTime period a b) : a.scheduled < b.scheduled := by
  rw [h]
  exact Nat.lt_add_of_pos_right (Nat.mul_pos periodsTo_pos hd)

theorem OnTime.grid (h : OnTime period a b) (ha : ∃ k, a.scheduled = start + k * period) :
    ∃ k, b.scheduled = start + k * period := by
  obtain ⟨k, hk⟩ := ha
  exact ⟨k + periodsTo a.scheduled a.started period, by rw [h, Nat.add_mul]; omega⟩

/-- Runs of which each is on time for the one before. -/
theorem OnGrid.of_onTime (hd : 0 < period) (h : rans.IsChain (OnTime period))
    (hhead : ∀ ran ∈ rans.head?, ran.scheduled = start) (hle : ∀ ran ∈ rans, ran.scheduled ≤ ran.started)
    (hstart : ∀ ran ∈ rans, start ≤ ran.scheduled) : OnGrid limit start period rans := by
  have hgrid : ∀ ran ∈ rans, ∃ k, ran.scheduled = start + k * period :=
    forall_mem_of_isChain h (fun ran hran => ⟨0, by simp [hhead ran hran]⟩) fun a b hab => hab.grid
  have hnext : rans.IsChain fun a b => IsLeast (gridFrom start period a.scheduled a.started) b.scheduled := by
    refine h.imp_of_mem_imp fun a b ha _ hab => ?_
    obtain ⟨k, hk⟩ := hgrid a ha
    rw [hab]
    exact isLeast_gridFrom hd hk
  refine ⟨?_, hle, ?_, hnext, ?_⟩
  · obtain ⟨ks, hks⟩ : rans.map Ran.scheduled ∈ Set.range (List.map fun k => start + k * period) := by
      rw [Set.range_list_map]
      intro p hp
      obtain ⟨ran, hran, rfl⟩ := List.mem_map.mp hp
      exact (hgrid ran hran).imp fun _ => Eq.symm
    refine ⟨ks, ?_, hks.symm⟩
    have hlt : (ks.map fun k => start + k * period).Pairwise (· < ·) := by
      rw [hks, ← List.isChain_iff_pairwise, List.isChain_map]
      exact h.imp fun a b hab => hab.lt hd
    rw [List.pairwise_map] at hlt
    exact hlt.imp fun hab => Nat.lt_of_mul_lt_mul_right (a := period) (by omega)
  · refine hnext.imp fun a b hab k hafter hbefore => ?_
    by_contra hstarted
    have := hab.2 ⟨⟨k, rfl⟩, hafter, not_lt.mp hstarted⟩
    omega
  · intro ran hran p hlimit hp hleast
    obtain ⟨k, hk⟩ := hgrid ran hran
    have he := hleast.unique (isLeast_gridFrom hd hk)
    have := hstart ran hran
    rw [nextTick_eq ⟨by omega, he ▸ hlimit⟩, he]

theorem OnGrid.onTime (hd : 0 < period) (h : OnGrid limit start period rans) : rans.IsChain (OnTime period) := by
  obtain ⟨ks, -, hks⟩ := h.grid
  refine h.next.imp_of_mem_imp fun a b ha _ hab => ?_
  have hmem : a.scheduled ∈ ks.map fun k => start + k * period := hks ▸ List.mem_map_of_mem ha
  obtain ⟨k, -, hk⟩ := List.mem_map.mp hmem
  exact hab.unique (isLeast_gridFrom hd hk.symm)

/-- A run that another one follows in time is due iff that one is on time. -/
theorem Ticks.onTime_iff (h : Ticks limit period a b) (hstart : start ≤ a.scheduled) (hb : b.started ≤ limit)
    (htotal : b.started < start + 2 ^ 64) :
    OnTime period a b ↔ Reached limit a.scheduled a.started period := by
  have hle := h.scheduled_le
  constructor
  · intro he
    rw [OnTime] at he
    exact ⟨by omega, by omega⟩
  · intro hreached
    rw [OnTime, h.scheduled_eq, nextTick_eq hreached]

end Grid

/-! ### The result -/

theorem Follows.afterFinish_iff {a b : Ran} {pause : ℕ}
    (h : Follows (fun _started finished => later limit finished pause) a b) (hb : b.started ≤ limit) :
    a.finished + pause ≤ b.started ↔ a.finished + pause ≤ limit := by
  refine ⟨fun hle => hle.trans hb, fun hle => ?_⟩
  rw [← later_eq hle, ← h.scheduled_eq]
  exact h.scheduled_le

theorem Follows.atLeast_iff {a b : Ran} (h : Follows (fun started _finished => later limit started period) a b)
    (hb : b.started ≤ limit) :
    a.started + period ≤ b.started ∧ a.finished ≤ b.started ↔ a.started + period ≤ limit := by
  refine ⟨fun hle => hle.1.trans hb, fun hle => ⟨?_, h.finished_le⟩⟩
  rw [← later_eq hle, ← h.scheduled_eq]
  exact h.scheduled_le

theorem onGrid_iff (hd : 0 < period)
    (hclock : ∀ ran ∈ runOverlapping limit period start start run wakes,
      ran.started ≤ limit ∧ ran.started < start + 2 ^ 64) :
    OnGrid limit start period (runOverlapping limit period start start run wakes) ↔
      ∀ ran ∈ (runOverlapping limit period start start run wakes).dropLast,
        Reached limit ran.scheduled ran.started period := by
  have hrans : ∀ ran ∈ runOverlapping limit period start start run wakes,
      start ≤ ran.scheduled ∧ ran.scheduled ≤ ran.started := scheduled_runOverlapping
  rw [← isChain_iff_dropLast chain_runOverlapping fun a ha b hb hab =>
    hab.onTime_iff (hrans a ha).1 (hclock b hb).1 (hclock b hb).2]
  exact ⟨fun h => h.onTime hd, fun h => .of_onTime hd h (fun ran hran => (head_runOverlapping hran).1)
    (fun ran hran => (hrans ran hran).2) fun ran hran => (hrans ran hran).1⟩

/-- The runs of a job are spaced as its interval says iff, after each run that another one follows, the next
start is an instant that can be reached. -/
theorem spaced_iff (limit start : ℕ) (interval : CronJobInterval) (wakes : List Wake)
    (hinterval : assertInterval interval = true)
    (hclock : ∀ ran ∈ runJob limit interval start wakes, ran.started ≤ limit ∧ ran.started < start + 2 ^ 64) :
    Spaced limit interval start (runJob limit interval start wakes) ↔
      ∀ ran ∈ (runJob limit interval start wakes).dropLast, Due limit interval ran := by
  cases interval with
  | afterFinish pause =>
    exact isChain_iff_dropLast chain_runSerially fun a _ b hb hab => hab.afterFinish_iff (hclock b hb).1
  | atLeast period =>
    exact isChain_iff_dropLast chain_runSerially fun a _ b hb hab => hab.atLeast_iff (hclock b hb).1
  | afterStart period =>
    have hd : 0 < period := Nat.pos_of_ne_zero (by simpa [assertInterval, CronJobInterval.duration] using hinterval)
    exact onGrid_iff hd hclock

/-- An hourly job. -/
def hourly : CronJobInterval := .afterStart 3600000000000

/-- Wake-ups that come late, the second one past the next grid point. -/
def lateWakes : List Wake := [⟨3, 20, 0⟩, ⟨5000000000000, 10, 60⟩, ⟨0, 0, 120⟩]

theorem spaced_iff_hourly :
    Spaced unixLimit hourly 7 (runJob unixLimit hourly 7 lateWakes) ↔
      ∀ ran ∈ (runJob unixLimit hourly 7 lateWakes).dropLast, Due unixLimit hourly ran :=
  spaced_iff unixLimit 7 hourly lateWakes (by decide) (by decide)

/-- A job whose runs are to be the longest duration apart runs again at once. -/
theorem not_spaced_max :
    assertInterval (.atLeast durationMax) = true ∧
      (∀ ran ∈ runJob unixLimit (.atLeast durationMax) 0 [⟨0, 0, 0⟩, ⟨0, 0, 0⟩],
        ran.finished ≤ unixLimit ∧ ran.finished < 2 ^ 64) ∧
      ¬ Spaced unixLimit (.atLeast durationMax) 0 (runJob unixLimit (.atLeast durationMax) 0 [⟨0, 0, 0⟩, ⟨0, 0, 0⟩]) :=
  ⟨by decide, by decide, fun h => absurd (List.isChain_cons_cons.mp h).1.1 (by decide)⟩

/-! ### Durations that cannot fail -/

theorem Ticks.reached {a b : Ran} (h : Ticks limit period a b) (hd : 0 < period) (hstart : start ≤ a.scheduled)
    (ha : a.scheduled ≤ a.started) (hlt : a.started < start + 2 ^ 64) (htotal : b.started < start + 2 ^ 64)
    (hle : start + 2 ^ 64 + period ≤ limit) : Reached limit a.scheduled a.started period := by
  by_contra hreached
  have hlater : b.scheduled = a.started + period := by
    rw [h.scheduled_eq, nextTick_eq_later hreached, later_eq (by omega)]
  have hpoint : a.scheduled + periodsTo a.scheduled a.started period * period ≤ b.started :=
    (periodsTo_mul_le hd ha).trans (hlater ▸ h.scheduled_le)
  exact hreached ⟨by omega, by omega⟩

/-- A duration that can be added to every instant of the run never leads past the clock. -/
theorem due_of_le (interval : CronJobInterval) (hinterval : assertInterval interval = true)
    (hclock : ∀ ran ∈ runJob limit interval start wakes,
      ran.started < start + 2 ^ 64 ∧ ran.finished < start + 2 ^ 64)
    (hle : start + 2 ^ 64 + interval.duration ≤ limit) :
    ∀ ran ∈ (runJob limit interval start wakes).dropLast, Due limit interval ran := by
  cases interval with
  | afterFinish pause =>
    intro ran hran
    have hfinished := (hclock ran (List.mem_of_mem_dropLast hran)).2
    exact (Nat.add_le_add_right hfinished.le pause).trans hle
  | atLeast period =>
    intro ran hran
    have hstarted := (hclock ran (List.mem_of_mem_dropLast hran)).1
    exact (Nat.add_le_add_right hstarted.le period).trans hle
  | afterStart period =>
    have hd : 0 < period := Nat.pos_of_ne_zero (by simpa [assertInterval, CronJobInterval.duration] using hinterval)
    have hrans : ∀ ran ∈ runOverlapping limit period start start 0 wakes,
        start ≤ ran.scheduled ∧ ran.scheduled ≤ ran.started := scheduled_runOverlapping
    refine (isChain_iff_dropLast (R := fun a _ => Reached limit a.scheduled a.started period) chain_runOverlapping
      fun _ _ _ _ _ => Iff.rfl).mp (List.IsChain.imp_of_mem_imp (fun a b ha hb hab => ?_) chain_runOverlapping)
    exact hab.reached hd (hrans a ha).1 (hrans a ha).2 (hclock a ha).1 (hclock b hb).1 hle

end Wakuwaku.Services.CronJob
