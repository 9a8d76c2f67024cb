import Wakuwaku.Iggy.Partition.Order
import Wakuwaku.Iggy.Consumer.Encode

/-! # The work of a key

The runs of a key in plan order are its work (`workOf`). Executing the key starts the work stage by
stage up to the first stage in which a run fails: whatever the runs return, the report says which part
of the work ran and how it ended (`Ran`, `key_ran`). -/

namespace Wakuwaku.Iggy.Consumer

open Wakuwaku.Iggy.Events Wakuwaku.Iggy.Partition

/-- One run of a key, with its segment and its stage there. -/
structure Work where
  segment : ℕ
  stage : Stage
  run : Run
  deriving DecidableEq, Repr

/-- The stage of `w` is processed before the stage of `w'`. -/
def Work.Before (w w' : Work) : Prop :=
  w.segment < w'.segment ∨ w.segment = w'.segment ∧ w.stage.kind.toNat < w'.stage.kind.toNat

instance (w w' : Work) : Decidable (w.Before w') := by unfold Work.Before; infer_instance

/-- The runs of a segment, in plan order. -/
def workAt (plan : Plan UInt64) (segment : Segment) (index : ℕ) : List Work :=
  (stagesOf plan segment).map fun a => ⟨index, a.1, a.2⟩

/-- The runs of consecutive segments, in plan order. -/
def workFrom (plan : Plan UInt64) : List Segment → ℕ → List Work
  | [], _ => []
  | segment :: rest, index => workAt plan segment index ++ workFrom plan rest (index + 1)

/-- The runs of a key, in plan order. -/
def workOf (plan : Plan UInt64) (key : KeyPlan UInt64) : List Work :=
  workFrom plan (plan.segmentsOf key) 0

/-- A run that was started, with its result if it ended. -/
structure Started (P : Type) where
  work : Work
  result : Option (RunResult P)

/-- Start a run, and get any result. -/
def start {P : Type} (index : ℕ) (stage : Stage) (run : Run) : Async (Started P) (RunResult P) :=
  Async.call fun result => ⟨⟨index, stage, run⟩, result⟩

variable {P : Type}

namespace Execution

variable {plan : Plan UInt64}

/-! ### The work of a segment and of a key -/

theorem stage_injective_stagesOf (segment : Segment) :
    ((stagesOf plan segment).map Prod.fst).Nodup := by
  have hbody : ∀ body : List Run, ((body.mapIdx fun i run => (Stage.body i, run)).map Prod.fst) =
      (List.range body.length).map Stage.body := by
    intro body
    refine List.ext_getElem (by simp) fun i h1 h2 => by simp
  have hinj : Function.Injective Stage.body := fun i j h => by simpa using h
  unfold stagesOf
  rw [List.map_append, List.map_append, hbody]
  cases plan.head segment <;> cases plan.tail segment <;>
    simp [List.nodup_append, List.nodup_range.map hinj]

theorem segment_workAt {segment : Segment} {index : ℕ} {w : Work} (hw : w ∈ workAt plan segment index) :
    w.segment = index := by
  obtain ⟨a, -, rfl⟩ := List.mem_map.mp hw
  rfl

theorem segment_workFrom : ∀ {segments : List Segment} {index : ℕ} {w : Work},
    w ∈ workFrom plan segments index → index ≤ w.segment ∧ w.segment < index + segments.length
  | segment :: rest, index, w, hw => by
    rcases List.mem_append.mp hw with hw | hw
    · rw [segment_workAt hw, List.length_cons]
      omega
    · have := segment_workFrom hw
      rw [List.length_cons]
      omega

/-- A run is known by its segment and its stage. -/
theorem nodup_workFrom : ∀ (segments : List Segment) (index : ℕ),
    ((workFrom plan segments index).map fun w => (w.segment, w.stage)).Nodup
  | [], _ => List.nodup_nil
  | segment :: rest, index => by
    rw [workFrom, List.map_append, List.nodup_append]
    refine ⟨?_, nodup_workFrom rest (index + 1), ?_⟩
    · rw [workAt, List.map_map]
      have h : ((stagesOf plan segment).map Prod.fst).Nodup := stage_injective_stagesOf segment
      have h' := h.map (f := fun stage => (index, stage)) fun a b hab => by simpa using hab
      rwa [List.map_map] at h'
    · intro a ha b hb hab
      obtain ⟨w, hw, rfl⟩ := List.mem_map.mp ha
      obtain ⟨w', hw', rfl⟩ := List.mem_map.mp hb
      have h1 := segment_workAt hw
      have h2 := (segment_workFrom hw').1
      simp only [Prod.mk.injEq] at hab
      omega

/-! ### Settling results -/

/-- Account for the results of some runs. -/
def settleAll (plan : Plan UInt64) (outcome : StageOutcome P)
    (results : List ((Stage × Run) × RunResult P)) : StageOutcome P :=
  results.foldl (fun outcome e => outcome.settle plan e.1.1 e.1.2 e.2) outcome

/-- The records a run completes. -/
def completedBy (plan : Plan UInt64) (run : Run) : RunResult P → List ℕ
  | .done => plan.records run
  | .failed _ _ => []

/-- The failed run, if it failed. -/
def failedBy (plan : Plan UInt64) (stage : Stage) (run : Run) : RunResult P → Option (FailedRun P)
  | .done => none
  | .failed _ remainder => some ⟨stage, plan.records run, remainder⟩

theorem failedBy_eq_some {stage : Stage} {run : Run} {r : RunResult P} {x : FailedRun P} :
    failedBy plan stage run r = some x ↔ ∃ error remainder, r = .failed error remainder ∧
      x = ⟨stage, plan.records run, remainder⟩ := by
  cases r with
  | done => simp [failedBy]
  | failed error remainder =>
    simp only [failedBy, Option.some.injEq, RunResult.failed.injEq]
    constructor
    · rintro rfl; exact ⟨error, remainder, ⟨rfl, rfl⟩, rfl⟩
    · rintro ⟨_, _, ⟨rfl, rfl⟩, rfl⟩; rfl

theorem settleAll_append (outcome : StageOutcome P) (l l' : List ((Stage × Run) × RunResult P)) :
    settleAll plan outcome (l ++ l') = settleAll plan (settleAll plan outcome l) l' :=
  List.foldl_append

theorem settleAll_completed : ∀ (l : List ((Stage × Run) × RunResult P)) (outcome : StageOutcome P),
    (settleAll plan outcome l).completed =
      outcome.completed ++ l.flatMap fun e => completedBy plan e.1.2 e.2
  | [], outcome => by simp [settleAll]
  | ⟨⟨stage, run⟩, .done⟩ :: l, outcome => by
    show (settleAll plan _ l).completed = _
    rw [settleAll_completed l]
    simp [StageOutcome.settle, completedBy]
  | ⟨⟨stage, run⟩, .failed error remainder⟩ :: l, outcome => by
    show (settleAll plan _ l).completed = _
    rw [settleAll_completed l]
    simp [StageOutcome.settle, completedBy]

theorem settleAll_failedRuns : ∀ (l : List ((Stage × Run) × RunResult P)) (outcome : StageOutcome P),
    (settleAll plan outcome l).failedRuns =
      outcome.failedRuns ++ l.filterMap fun e => failedBy plan e.1.1 e.1.2 e.2
  | [], outcome => by simp [settleAll]
  | ⟨⟨stage, run⟩, .done⟩ :: l, outcome => by
    show (settleAll plan _ l).failedRuns = _
    rw [settleAll_failedRuns l]
    simp [StageOutcome.settle, failedBy]
  | ⟨⟨stage, run⟩, .failed error remainder⟩ :: l, outcome => by
    show (settleAll plan _ l).failedRuns = _
    rw [settleAll_failedRuns l]
    simp [StageOutcome.settle, failedBy]

theorem settleAll_error : ∀ (l : List ((Stage × Run) × RunResult P)) (outcome : StageOutcome P),
    (settleAll plan outcome l).error = none ↔ outcome.error = none ∧ ∀ e ∈ l, e.2 = .done
  | [], outcome => by simp [settleAll]
  | ⟨⟨stage, run⟩, .done⟩ :: l, outcome => by
    show (settleAll plan _ l).error = none ↔ _
    rw [settleAll_error l]
    simp [StageOutcome.settle]
  | ⟨⟨stage, run⟩, .failed error remainder⟩ :: l, outcome => by
    show (settleAll plan _ l).error = none ↔ _
    rw [settleAll_error l]
    cases h : outcome.error <;> simp [StageOutcome.settle, h]

/-! ### One stage -/

/-- The event of a run with a result. -/
def event (index : ℕ) (e : (Stage × Run) × RunResult P) : Started P :=
  ⟨⟨index, e.1.1, e.1.2⟩, some e.2⟩

/-- Some runs were started in `t`, unless the key failed before, and `after` accounts for them. -/
def Settled (plan : Plan UInt64) (index : ℕ) (stages : List (Stage × Run)) (t : List (Started P))
    (before after : StageOutcome P) : Prop :=
  ∃ results, results.map Prod.fst = (if before.error = none then stages else []) ∧
    t.Perm (results.map (event index)) ∧ after = settleAll plan before results

theorem Settled.skipped {index : ℕ} {stages : List (Stage × Run)} {t : List (Started P)}
    {before after : StageOutcome P} {error : String} (he : before.error = some error)
    (h : (pure before : Async (Started P) (StageOutcome P)) t (some after)) :
    Settled plan index stages t before after := by
  obtain ⟨rfl, rfl⟩ := Async.pure_iff.mp h
  exact ⟨[], by simp [he], .nil, rfl⟩

theorem settled_single {index : ℕ} {stage : Stage} {run : Option Run} {before after : StageOutcome P}
    {t : List (Started P)}
    (h : executeSingle (start index) plan stage run before t (some after)) :
    Settled plan index (run.toList.map (stage, ·)) t before after := by
  cases he : before.error with
  | some error =>
    rw [executeSingle_failed he] at h
    exact .skipped he h
  | none =>
    cases run with
    | none =>
      rw [executeSingle_none] at h
      obtain ⟨rfl, rfl⟩ := Async.pure_iff.mp h
      exact ⟨[], by simp, .nil, rfl⟩
    | some run =>
      rw [executeSingle_some he] at h
      obtain ⟨result, u, v, hu, hv, rfl⟩ := Async.bind_iff.mp h
      obtain rfl := Async.call_iff.mp hu
      obtain ⟨rfl, rfl⟩ := Async.pure_iff.mp hv
      exact ⟨[((stage, run), result)], by simp [he], by simp [event], rfl⟩

theorem joinAll_start {index : ℕ} : ∀ {body : List (Stage × Run)} {t : List (Started P)}
    {results : List (RunResult P)},
    Async.joinAll (body.map fun a => start index a.1 a.2) t (some results) →
      results.length = body.length ∧ t.Perm ((body.zip results).map (event index))
  | [], t, results, h => by
    obtain ⟨rfl, rfl⟩ := Async.joinAll_nil_iff.mp h
    exact ⟨rfl, .nil⟩
  | a :: body, t, results, h => by
    obtain ⟨u, v, r, rs, hu, hv, ht, rfl⟩ := Async.joinAll_cons_iff.mp h
    obtain rfl := Async.call_iff.mp hu
    obtain ⟨hlen, hperm⟩ := joinAll_start hv
    exact ⟨by simp [hlen], ht.perm.trans (hperm.cons _)⟩

theorem settled_body {index : ℕ} {body : List Run} {before after : StageOutcome P}
    {t : List (Started P)} (h : executeBody (start index) plan body before t (some after)) :
    Settled plan index (body.mapIdx fun i run => (Stage.body i, run)) t before after := by
  cases he : before.error with
  | some error =>
    rw [executeBody_failed he] at h
    exact .skipped he h
  | none =>
    rw [executeBody_ok he] at h
    obtain ⟨results, u, v, hu, hv, rfl⟩ := Async.bind_iff.mp h
    obtain ⟨rfl, rfl⟩ := Async.pure_iff.mp hv
    set stages := body.mapIdx fun i run => (Stage.body i, run) with hstages
    have hmap : (body.mapIdx fun i run => start (P := P) index (Stage.body i) run) =
        stages.map fun a => start index a.1 a.2 := by
      exact List.ext_getElem (by simp [hstages]) fun i h1 h2 => by simp [hstages]
    rw [hmap] at hu
    obtain ⟨hlen, hperm⟩ := joinAll_start hu
    refine ⟨stages.zip results, ?_, by simpa using hperm, ?_⟩
    · rw [if_pos he]
      exact List.map_fst_zip (by omega)
    · -- the index of a run in the zipped lists is its stage
      have hzip : stages.zip results = ((body.zip results).zipIdx).map fun e =>
          ((Stage.body e.2, e.1.1), e.1.2) := by
        refine List.ext_getElem (by simp [hstages]) fun i h1 h2 => ?_
        simp [hstages]
      rw [settleAll, hzip, List.foldl_map]

/-! ### One segment -/

theorem Settled.done {index : ℕ} {stages : List (Stage × Run)} {t : List (Started P)}
    {before after : StageOutcome P} (h : Settled plan index stages t before after)
    (ha : after.error = none) : ∃ results, results.map Prod.fst = stages ∧
      (∀ e ∈ results, e.2 = .done) ∧ t.Perm (results.map (event index)) ∧
        after = settleAll plan before results := by
  obtain ⟨results, hstages, ht, rfl⟩ := h
  obtain ⟨hb, hdone⟩ := (settleAll_error _ _).mp ha
  rw [if_pos hb] at hstages
  exact ⟨results, hstages, hdone, ht, rfl⟩

theorem Settled.failed {index : ℕ} {stages : List (Stage × Run)} {t : List (Started P)}
    {before after : StageOutcome P} {error : String} (h : Settled plan index stages t before after)
    (hb : before.error = some error) : t = [] ∧ after = before := by
  obtain ⟨results, hstages, ht, rfl⟩ := h
  rw [hb, if_neg (by simp), List.map_eq_nil_iff] at hstages
  subst hstages
  exact ⟨List.perm_nil.mp ht, rfl⟩

/-- The part of a segment that was started: everything if no run failed, else everything up to the
stage with the failed runs. -/
structure SegmentRan (plan : Plan UInt64) (segment : Segment)
    (results : List ((Stage × Run) × RunResult P)) (failed : Prop) : Prop where
  all : ¬ failed → results.map Prod.fst = stagesOf plan segment ∧ ∀ e ∈ results, e.2 = .done
  upTo : failed → ∃ kind : StageKind, results.map Prod.fst =
      (stagesOf plan segment).filter (·.1.kind.toNat ≤ kind.toNat) ∧
    (∀ e ∈ results, e.2 ≠ .done → e.1.1.kind = kind) ∧ ∃ e ∈ results, e.2 ≠ .done

section Kinds

variable {segment : Segment} {a : Stage × Run}

theorem kind_head (ha : a ∈ (plan.head segment).toList.map (Stage.head, ·)) : a.1.kind = .head := by
  obtain ⟨run, -, rfl⟩ := List.mem_map.mp ha
  rfl

theorem kind_body (ha : a ∈ (plan.body segment).mapIdx fun i run => (Stage.body i, run)) :
    a.1.kind = .body := by
  obtain ⟨i, hi, rfl⟩ := List.mem_mapIdx.mp ha
  rfl

theorem kind_tail (ha : a ∈ (plan.tail segment).toList.map (Stage.tail, ·)) : a.1.kind = .tail := by
  obtain ⟨run, -, rfl⟩ := List.mem_map.mp ha
  rfl

theorem filter_stagesOf (segment : Segment) (kind : StageKind) :
    (stagesOf plan segment).filter (·.1.kind.toNat ≤ kind.toNat) =
      (plan.head segment).toList.map (Stage.head, ·) ++
        (if kind = .head then [] else
          (plan.body segment).mapIdx (fun i run => (Stage.body i, run))) ++
        (if kind = .tail then (plan.tail segment).toList.map (Stage.tail, ·) else []) := by
  have hkeep : ∀ {l : List (Stage × Run)} {k : StageKind}, (∀ a ∈ l, a.1.kind = k) →
      l.filter (·.1.kind.toNat ≤ kind.toNat) = if k.toNat ≤ kind.toNat then l else [] := by
    intro l k hl
    split_ifs with hk
    · exact List.filter_eq_self.mpr fun a ha => by simpa [hl a ha] using hk
    · exact List.filter_eq_nil_iff.mpr fun a ha => by simpa [hl a ha] using hk
  rw [stagesOf, List.filter_append, List.filter_append, hkeep fun a => kind_head,
    hkeep fun a => kind_body, hkeep fun a => kind_tail]
  cases kind <;> simp [StageKind.toNat]

end Kinds

/-- If a stage of one kind fails after everything in `done` completed, the failed runs are of that
kind and there is one. -/
theorem failed_stage {done results : List ((Stage × Run) × RunResult P)} {kind : StageKind}
    {stages : List (Stage × Run)} {before : StageOutcome P} {error : String}
    (hdone : ∀ e ∈ done, e.2 = .done) (hb : before.error = none) (hs : results.map Prod.fst = stages)
    (hkind : ∀ a ∈ stages, a.1.kind = kind) (he : (settleAll plan before results).error = some error) :
    (∀ e ∈ done ++ results, e.2 ≠ .done → e.1.1.kind = kind) ∧ ∃ e ∈ done ++ results, e.2 ≠ .done := by
  constructor
  · intro e hm hne
    rcases List.mem_append.mp hm with hm | hm
    · exact absurd (hdone e hm) hne
    · exact hkind e.1 (hs ▸ List.mem_map_of_mem hm)
  · by_contra hall
    push Not at hall
    rw [(settleAll_error _ _).mpr ⟨hb, fun e hm => hall e (List.mem_append_right _ hm)⟩] at he
    cases he

theorem segment_ran {index : ℕ} {segment : Segment} {completed : List ℕ} {t : List (Started P)}
    {outcome : StageOutcome P}
    (h : executeSegment (start index) plan segment completed t (some outcome)) :
    ∃ results, t.Perm (results.map (event index)) ∧
      outcome = settleAll plan ⟨none, [], completed⟩ results ∧
        SegmentRan plan segment results (outcome.error ≠ none) := by
  obtain ⟨o₁, u, v', hu, hv', rfl⟩ := Async.bind_iff.mp h
  obtain ⟨o₂, v, x, hv, hx, rfl⟩ := Async.bind_iff.mp hv'
  have h1 := settled_single hu
  have h2 := settled_body hv
  have h3 := settled_single hx
  cases he₁ : o₁.error with
  | some error =>
    obtain ⟨rfl, rfl⟩ := h2.failed he₁
    obtain ⟨rfl, rfl⟩ := h3.failed he₁
    obtain ⟨results, hs, ht, rfl⟩ := h1
    rw [if_pos rfl] at hs
    have hnone : ∀ e ∈ ([] : List ((Stage × Run) × RunResult P)), e.2 = .done := by simp
    have hf := failed_stage hnone rfl hs (fun a => kind_head) he₁
    exact ⟨results, by simpa using ht, rfl, fun hn => absurd he₁ (by simp [not_not.mp hn]), fun _ =>
      ⟨.head, by rw [hs, filter_stagesOf]; simp, hf⟩⟩
  | none =>
    obtain ⟨r₁, hs₁, hd₁, ht₁, rfl⟩ := h1.done he₁
    cases he₂ : o₂.error with
    | some error =>
      obtain ⟨rfl, rfl⟩ := h3.failed he₂
      obtain ⟨results, hs, ht, rfl⟩ := h2
      rw [if_pos he₁] at hs
      have hf := failed_stage hd₁ he₁ hs (fun a => kind_body) he₂
      exact ⟨r₁ ++ results, by simpa using ht₁.append ht, (settleAll_append _ _ _).symm,
        fun hn => absurd he₂ (by simp [not_not.mp hn]), fun _ =>
          ⟨.body, by rw [List.map_append, hs₁, hs, filter_stagesOf]; simp, hf⟩⟩
    | none =>
      obtain ⟨r₂, hs₂, hd₂, ht₂, rfl⟩ := h2.done he₂
      obtain ⟨r₃, hs₃, ht₃, rfl⟩ := h3
      rw [if_pos he₂] at hs₃
      have hall : (r₁ ++ r₂ ++ r₃).map Prod.fst = stagesOf plan segment := by
        rw [List.map_append, List.map_append, hs₁, hs₂, hs₃, stagesOf]
      have hd : ∀ e ∈ r₁ ++ r₂, e.2 = .done := fun e he =>
        (List.mem_append.mp he).elim (hd₁ e) (hd₂ e)
      refine ⟨r₁ ++ r₂ ++ r₃, ?_, ?_, fun hn => ⟨hall, ?_⟩, fun hne => ?_⟩
      · simpa using ht₁.append (ht₂.append ht₃)
      · rw [settleAll_append, settleAll_append]
      · have hd₃ := ((settleAll_error _ _).mp (not_not.mp hn)).2
        exact fun e he => (List.mem_append.mp he).elim (hd e) (hd₃ e)
      · obtain ⟨error, he₃⟩ := Option.ne_none_iff_exists'.mp hne
        exact ⟨.tail, by rw [hall, filter_stagesOf, stagesOf]; simp,
          failed_stage hd he₂ hs₃ (fun a => kind_tail) he₃⟩

/-! ### The whole key -/

/-- **The part of the work that was started**: everything if no run failed, else everything up to the
stage with the failed runs. -/
structure Ran (plan : Plan UInt64) (work : List Work) (results : List (Work × RunResult P))
    (failure : Option (KeyFailure P)) : Prop where
  all : failure = none → results.map Prod.fst = work ∧ ∀ e ∈ results, e.2 = .done
  upTo : ∀ f, failure = some f → ∃ kind : StageKind, results.map Prod.fst =
      work.filter (fun w => w.segment < f.segment ∨
        w.segment = f.segment ∧ w.stage.kind.toNat ≤ kind.toNat) ∧
    (∀ e ∈ results, e.2 ≠ .done → e.1.segment = f.segment ∧ e.1.stage.kind = kind) ∧
    f.failedRuns = results.filterMap (fun e => failedBy plan e.1.stage e.1.run e.2) ∧
    ∃ e ∈ results, e.2 ≠ .done

/-- The results of a segment, as results of its work. -/
def toWork (index : ℕ) (e : (Stage × Run) × RunResult P) : Work × RunResult P :=
  (⟨index, e.1.1, e.1.2⟩, e.2)

theorem map_toWork {segment : Segment} {index : ℕ} {results : List ((Stage × Run) × RunResult P)}
    {p : Stage × Run → Bool} (h : results.map Prod.fst = (stagesOf plan segment).filter p) :
    (results.map (toWork index)).map Prod.fst =
      (workAt plan segment index).filter fun w => p (w.stage, w.run) := by
  have hw : (results.map (toWork index)).map Prod.fst =
      (results.map Prod.fst).map fun a => (⟨index, a.1, a.2⟩ : Work) := by
    rw [List.map_map, List.map_map]; rfl
  rw [hw, h, workAt, List.filter_map]
  rfl

/-- A segment with a failed run ends the key. -/
theorem ran_of_failed {segment : Segment} {rest : List Segment} {index : ℕ} {failed : Prop}
    {results : List ((Stage × Run) × RunResult P)} {failure : KeyFailure P}
    (hran : SegmentRan plan segment results failed) (hfailed : failed) (hindex : failure.segment = index)
    (hruns : failure.failedRuns = (results.map (toWork index)).filterMap
      fun e => failedBy plan e.1.stage e.1.run e.2) :
    Ran plan (workFrom plan (segment :: rest) index) (results.map (toWork index)) (some failure) := by
  obtain ⟨kind, hs, hkind, e, hm, hne⟩ := hran.upTo hfailed
  refine ⟨fun hn => (by cases hn), fun f hf => ⟨kind, ?_, ?_, ?_, toWork index e, List.mem_map_of_mem hm,
    hne⟩⟩
  all_goals obtain rfl := Option.some.inj hf
  · rw [map_toWork hs, workFrom, List.filter_append, hindex]
    have h1 : (workAt plan segment index).filter (fun w => w.segment < index ∨
        w.segment = index ∧ w.stage.kind.toNat ≤ kind.toNat) =
          (workAt plan segment index).filter fun w => w.stage.kind.toNat ≤ kind.toNat := by
      refine List.filter_congr fun w hw => ?_
      simp [segment_workAt hw]
    have h2 : (workFrom plan rest (index + 1)).filter (fun w => w.segment < index ∨
        w.segment = index ∧ w.stage.kind.toNat ≤ kind.toNat) = [] := by
      refine List.filter_eq_nil_iff.mpr fun w hw => ?_
      have hlt := (segment_workFrom hw).1
      simp only [decide_eq_true_eq]
      omega
    simp only [h1, h2, List.append_nil]
  · intro e' he' hne'
    obtain ⟨r, hr, rfl⟩ := List.mem_map.mp he'
    exact ⟨hindex.symm, hkind r hr hne'⟩
  · exact hruns

/-- A segment without a failed run is followed by the others. -/
theorem ran_of_done {segment : Segment} {rest : List Segment} {index : ℕ}
    {results results' : List (Work × RunResult P)} {failure : Option (KeyFailure P)}
    (hs : results.map Prod.fst = workAt plan segment index) (hd : ∀ e ∈ results, e.2 = .done)
    (hran : Ran plan (workFrom plan rest (index + 1)) results' failure) :
    Ran plan (workFrom plan (segment :: rest) index) (results ++ results') failure := by
  refine ⟨fun hn => ?_, fun f hf => ?_⟩
  · obtain ⟨h1, h2⟩ := hran.all hn
    exact ⟨by rw [List.map_append, hs, h1, workFrom], fun e hm =>
      (List.mem_append.mp hm).elim (hd e) (h2 e)⟩
  · obtain ⟨kind, h1, h2, h3, e, hm, hne⟩ := hran.upTo f hf
    have hlt : index < f.segment := by
      have hw : e.1 ∈ results'.map Prod.fst := List.mem_map_of_mem hm
      rw [h1] at hw
      rw [← (h2 e hm hne).1]
      exact (segment_workFrom (List.mem_filter.mp hw).1).1
    refine ⟨kind, ?_, ?_, ?_, e, List.mem_append_right _ hm, hne⟩
    · have hkeep : (workAt plan segment index).filter (fun w => w.segment < f.segment ∨
          w.segment = f.segment ∧ w.stage.kind.toNat ≤ kind.toNat) = workAt plan segment index := by
        refine List.filter_eq_self.mpr fun w hw => ?_
        simp [segment_workAt hw, hlt]
      rw [List.map_append, hs, h1, workFrom, List.filter_append, hkeep]
    · intro e' he' hne'
      rcases List.mem_append.mp he' with he' | he'
      · exact absurd (hd e' he') hne'
      · exact h2 e' he' hne'
    · have hnone : results.filterMap (fun e => failedBy plan e.1.stage e.1.run e.2) = [] := by
        refine List.filterMap_eq_nil_iff.mpr fun e' he' => ?_
        rw [hd e' he']
        rfl
      rw [h3, List.filterMap_append, hnone, List.nil_append]

theorem key_ran : ∀ {segments : List Segment} {index : ℕ} {completed : List ℕ} {t : List (Started P)}
    {report : KeyReport P}, executeSegments start plan segments index completed t (some report) →
      ∃ results : List (Work × RunResult P), t.Perm (results.map fun e => ⟨e.1, some e.2⟩) ∧
        report.completed = completed ++ results.flatMap (fun e => completedBy plan e.1.run e.2) ∧
          Ran plan (workFrom plan segments index) results report.failure
  | [], index, completed, t, report, h => by
    obtain ⟨rfl, rfl⟩ := Async.pure_iff.mp h
    exact ⟨[], .nil, by simp, fun _ => ⟨rfl, by simp⟩, fun f hf => by cases hf⟩
  | segment :: rest, index, completed, t, report, h => by
    obtain ⟨outcome, u, v, hu, hv, rfl⟩ := Async.bind_iff.mp h
    obtain ⟨results, ht, ho, hran⟩ := segment_ran hu
    have hcomp : outcome.completed = completed ++
        (results.map (toWork index)).flatMap (fun e => completedBy plan e.1.run e.2) := by
      rw [ho, settleAll_completed, List.flatMap_map]
      rfl
    have hevent : (results.map (toWork index)).map (fun e => (⟨e.1, some e.2⟩ : Started P)) =
        results.map (event index) := by
      rw [List.map_map]
      rfl
    cases he : outcome.error with
    | some error =>
      rw [he] at hv
      obtain ⟨rfl, rfl⟩ := Async.pure_iff.mp hv
      refine ⟨results.map (toWork index), by simpa [hevent] using ht, hcomp,
        ran_of_failed hran (by simp [he]) rfl ?_⟩
      simp only [ho, settleAll_failedRuns, List.filterMap_map, List.nil_append]
      rfl
    | none =>
      rw [he] at hv
      obtain ⟨results', ht', hcomp', hran'⟩ := key_ran hv
      obtain ⟨hs, hd⟩ := hran.all (by simp [he])
      have hs' : (results.map (toWork index)).map Prod.fst = workAt plan segment index := by
        rw [List.map_map, workAt, ← hs, List.map_map]
        rfl
      have hd' : ∀ e ∈ results.map (toWork index), e.2 = .done := by
        intro e hm
        obtain ⟨r, hr, rfl⟩ := List.mem_map.mp hm
        exact hd r hr
      refine ⟨results.map (toWork index) ++ results', ?_, ?_, ran_of_done hs' hd' hran'⟩
      · rw [List.map_append, hevent]
        exact ht.append ht'
      · rw [hcomp', hcomp, List.flatMap_append, List.append_assoc]

/-! ### The runs of the handlers -/

section Simulation

variable {ε α β : Type}

/-- The events of one run in a trace whose events have their run. -/
def eventsOf (u : List (Work × ε)) (w : Work) : List ε := (u.filter (·.1 = w)).map Prod.snd

/-- A trace is made up of what the runs in `s` did. -/
structure Parts (run1 : ℕ → Stage → Run → Async ε (RunResult P)) (u : List (Work × ε))
    (s : List (Started P)) : Prop where
  started : ∀ e ∈ u, e.1 ∈ s.map (·.work)
  run : ∀ e ∈ s, run1 e.work.segment e.work.stage e.work.run (eventsOf u e.work) e.result

/-- Whatever `m` does is made up of what some of the runs did, and `m'` returns the same if it only gets
the results of these runs. -/
def Splits (run1 : ℕ → Stage → Run → Async ε (RunResult P)) (works : List Work) (m : Async ε α)
    (m' : Async (Started P) α) : Prop :=
  ∀ t o, m t o → ∃ u s, u.map Prod.snd = t ∧ Parts run1 u s ∧ (s.map (·.work)).Sublist works ∧
    ∀ a, o = some a → m' s (some a)

variable {run1 : ℕ → Stage → Run → Async ε (RunResult P)} {works works' : List Work}

theorem eventsOf_sublist (u : List (Work × ε)) (w : Work) : (eventsOf u w).Sublist (u.map Prod.snd) :=
  List.filter_sublist.map _

theorem eventsOf_interleave {u v t : List (Work × ε)} (h : Interleave u v t) {w : Work}
    (hw : w ∉ v.map Prod.fst) : eventsOf t w = eventsOf u w := by
  induction h with
  | nil => rfl
  | @left e u v t h ih =>
    unfold eventsOf at *
    rw [List.filter_cons, List.filter_cons]
    split_ifs <;> simp [ih hw]
  | @right e u v t h ih =>
    rw [List.map_cons, List.mem_cons, not_or] at hw
    have hne : ¬ e.1 = w := fun he => hw.1 he.symm
    unfold eventsOf at *
    rw [List.filter_cons_of_neg (by simpa using hne), ih hw.2]

theorem Parts.interleave {u v t : List (Work × ε)} {s s' : List (Started P)} (h : Parts run1 u s)
    (h' : Parts run1 v s') (ht : Interleave u v t)
    (hd : ∀ e ∈ s, ∀ e' ∈ s', e.work ≠ e'.work) : Parts run1 t (s ++ s') where
  started e he := by
    rw [List.map_append, List.mem_append]
    exact (ht.mem_iff.mp he).imp (h.started e) (h'.started e)
  run e he := by
    have hnot : ∀ {u : List (Work × ε)} {s : List (Started P)} {w : Work}, Parts run1 u s →
        (∀ e ∈ s, e.work ≠ w) → w ∉ u.map Prod.fst := by
      rintro u s w hp hs hw
      obtain ⟨e, he, rfl⟩ := List.mem_map.mp hw
      obtain ⟨e', he', heq⟩ := List.mem_map.mp (hp.started e he)
      exact hs e' he' heq
    rcases List.mem_append.mp he with he | he
    · rw [eventsOf_interleave ht (hnot h' fun e' he' => (hd e he e' he').symm)]
      exact h.run e he
    · rw [eventsOf_interleave ht.swap (hnot h fun e' he' => hd e' he' e he)]
      exact h'.run e he

theorem splits_pure (a : α) : Splits run1 [] (pure a) (pure a) := by
  rintro t o ⟨rfl, ho⟩
  exact ⟨[], [], rfl, ⟨by simp, by simp⟩, List.Sublist.refl _, fun b hb => Async.pure_iff.mpr ⟨rfl, ho b hb⟩⟩

theorem Splits.mono {m : Async ε α} {m' : Async (Started P) α} (h : Splits run1 works m m')
    (hs : works.Sublist works') : Splits run1 works' m m' := by
  intro t o ht
  obtain ⟨u, s, hu, hp, hw, ho⟩ := h t o ht
  exact ⟨u, s, hu, hp, hw.trans hs, ho⟩

theorem ne_of_nodup (hnd : (works ++ works').Nodup) {s s' : List (Started P)}
    (hs : (s.map (·.work)).Sublist works) (hs' : (s'.map (·.work)).Sublist works') :
    ∀ e ∈ s, ∀ e' ∈ s', e.work ≠ e'.work := fun _ he _ he' =>
  (List.nodup_append.mp hnd).2.2 _ (hs.subset (List.mem_map_of_mem he)) _
    (hs'.subset (List.mem_map_of_mem he'))

theorem Splits.bind {m : Async ε α} {m' : Async (Started P) α} {f : α → Async ε β}
    {f' : α → Async (Started P) β} (hnd : (works ++ works').Nodup) (hm : Splits run1 works m m')
    (hf : ∀ a, Splits run1 works' (f a) (f' a)) : Splits run1 (works ++ works') (m >>= f) (m' >>= f') := by
  rintro t o (⟨hn, rfl⟩ | ⟨a, t₁, t₂, h₁, h₂, rfl⟩)
  · obtain ⟨u, s, hu, hp, hw, -⟩ := hm _ _ hn
    exact ⟨u, s, hu, hp, hw.trans (List.sublist_append_left _ _), by simp⟩
  · obtain ⟨u, s, rfl, hp, hw, ho⟩ := hm _ _ h₁
    obtain ⟨v, s', rfl, hp', hw', ho'⟩ := hf a _ _ h₂
    refine ⟨u ++ v, s ++ s', List.map_append, hp.interleave hp' (.append u v) (ne_of_nodup hnd hw hw'), ?_, ?_⟩
    · rw [List.map_append]
      exact hw.append hw'
    · exact fun b hb => Async.bind_iff.mpr ⟨a, s, s', ho a rfl, ho' b hb, rfl⟩

/-- Results that are put together. -/
theorem Splits.map {m : Async ε α} {m' : Async (Started P) α} (hnd : works.Nodup)
    (h : Splits run1 works m m') (f : α → β) :
    Splits run1 works (do let a ← m; return f a) (do let a ← m'; return f a) := by
  have hnd' : (works ++ []).Nodup := by simpa using hnd
  have h' := h.bind hnd' fun a => splits_pure (f a)
  rwa [List.append_nil] at h'

theorem splits_run (index : ℕ) (stage : Stage) (run : Run) :
    Splits run1 [⟨index, stage, run⟩] (run1 index stage run) (start index stage run) := by
  intro t o ht
  refine ⟨t.map (⟨index, stage, run⟩, ·), [⟨⟨index, stage, run⟩, o⟩], by simp [Function.comp_def], ⟨?_, ?_⟩,
    List.Sublist.refl _, ?_⟩
  · simp
  · have hall : eventsOf (t.map ((⟨index, stage, run⟩ : Work), ·)) ⟨index, stage, run⟩ = t := by
      simp [eventsOf, List.filter_map, Function.comp_def]
    intro e he
    obtain rfl := List.mem_singleton.mp he
    rwa [hall]
  · rintro a rfl
    exact Async.call_iff.mpr rfl

/-- Interleaved traces, with the runs of their events. -/
theorem exists_interleave {u v : List (Work × ε)} {t : List ε}
    (h : Interleave (u.map Prod.snd) (v.map Prod.snd) t) : ∃ w, w.map Prod.snd = t ∧ Interleave u v w := by
  generalize hu : u.map Prod.snd = u', hv : v.map Prod.snd = v' at h
  induction h generalizing u v with
  | nil =>
    rw [List.map_eq_nil_iff.mp hu, List.map_eq_nil_iff.mp hv]
    exact ⟨[], rfl, .nil⟩
  | left h ih =>
    obtain ⟨e, u, rfl, rfl, rfl⟩ := List.map_eq_cons_iff.mp hu
    obtain ⟨w, rfl, hw⟩ := ih rfl hv
    exact ⟨e :: w, rfl, .left hw⟩
  | right h ih =>
    obtain ⟨e, v, rfl, rfl, rfl⟩ := List.map_eq_cons_iff.mp hv
    obtain ⟨w, rfl, hw⟩ := ih hu rfl
    exact ⟨e :: w, rfl, .right hw⟩

theorem splits_joinAll (index : ℕ) : ∀ {stages : List (Stage × Run)},
    (stages.map fun a => (⟨index, a.1, a.2⟩ : Work)).Nodup →
      Splits run1 (stages.map fun a => ⟨index, a.1, a.2⟩)
        (Async.joinAll (stages.map fun a => run1 index a.1 a.2))
        (Async.joinAll (stages.map fun a => start index a.1 a.2))
  | [], _ => splits_pure []
  | a :: stages, hnd => by
    rintro t o ⟨t₁, t₂, r, rs, h₁, h₂, ht, rfl⟩
    obtain ⟨u, s, rfl, hp, hw, ho⟩ := splits_run index a.1 a.2 _ _ h₁
    obtain ⟨v, s', rfl, hp', hw', ho'⟩ := splits_joinAll index (List.nodup_cons.mp hnd).2 _ _ h₂
    obtain ⟨w, rfl, hi⟩ := exists_interleave ht
    refine ⟨w, s ++ s', rfl, hp.interleave hp' hi (ne_of_nodup hnd hw hw'), ?_, ?_⟩
    · rw [List.map_append]
      exact hw.append hw'
    · intro l hl
      cases r with
      | none => cases hl
      | some r =>
        cases rs with
        | none => cases hl
        | some rs =>
          cases hl
          exact Async.joinAll_cons_iff.mpr ⟨s, s', r, rs, ho r rfl, ho' rs rfl, .append s s', rfl⟩

theorem splits_single (index : ℕ) (stage : Stage) (run : Option Run) (before : StageOutcome P) :
    Splits run1 (run.toList.map fun run => ⟨index, stage, run⟩)
      (executeSingle (run1 index) plan stage run before) (executeSingle (start index) plan stage run before) := by
  cases he : before.error with
  | some error =>
    rw [executeSingle_failed he, executeSingle_failed he]
    exact (splits_pure before).mono (List.nil_sublist _)
  | none =>
    cases run with
    | none =>
      rw [executeSingle_none, executeSingle_none]
      exact (splits_pure before).mono (List.nil_sublist _)
    | some run =>
      rw [executeSingle_some he, executeSingle_some he]
      exact (splits_run index stage run).map (List.nodup_singleton _) _

theorem splits_body (index : ℕ) (body : List Run) (before : StageOutcome P) :
    Splits run1 ((body.mapIdx fun i run => (Stage.body i, run)).map fun a => ⟨index, a.1, a.2⟩)
      (executeBody (run1 index) plan body before) (executeBody (start index) plan body before) := by
  have hmap : ∀ {ε : Type} (run1 : Stage → Run → Async ε (RunResult P)),
      (body.mapIdx fun i run => run1 (.body i) run) =
        (body.mapIdx fun i run => (Stage.body i, run)).map fun a => run1 a.1 a.2 :=
    fun _ => List.ext_getElem (by simp) fun i h1 h2 => by simp
  have hnd : ((body.mapIdx fun i run => (Stage.body i, run)).map
      fun a => (⟨index, a.1, a.2⟩ : Work)).Nodup := by
    refine List.nodup_iff_injective_get.mpr fun i j hij => ?_
    exact Fin.ext (by simpa using And.left (by simpa using hij))
  cases he : before.error with
  | some error =>
    rw [executeBody_failed he, executeBody_failed he]
    exact (splits_pure before).mono (List.nil_sublist _)
  | none =>
    rw [executeBody_ok he, executeBody_ok he, hmap, hmap]
    exact (splits_joinAll index hnd).map hnd _

theorem splits_segment (index : ℕ) (segment : Segment) (completed : List ℕ) :
    Splits run1 (workAt plan segment index) (executeSegment (run1 index) plan segment completed)
      (executeSegment (start index) plan segment completed) := by
  have hwork : workAt plan segment index =
      (plan.head segment).toList.map (fun run => ⟨index, .head, run⟩) ++
        (((plan.body segment).mapIdx fun i run => (Stage.body i, run)).map fun a => ⟨index, a.1, a.2⟩) ++
          (plan.tail segment).toList.map fun run => ⟨index, .tail, run⟩ := by
    simp only [workAt, stagesOf, List.map_append, List.map_map]
    rfl
  have hnd : (workAt plan segment index).Nodup := by
    have h := @nodup_workFrom plan [segment] index
    rw [workFrom, workFrom, List.append_nil] at h
    exact h.of_map _
  rw [hwork, List.append_assoc] at hnd ⊢
  exact (splits_single index .head _ _).bind hnd fun o => (splits_body index _ o).bind
    (List.nodup_append.mp hnd).2.1 fun o' => splits_single index .tail _ o'

/-- **The execution of a key is made up of what its runs did**, each at most once, and its report
follows from their results. -/
theorem splits_segments : ∀ (segments : List Segment) (index : ℕ) (completed : List ℕ),
    Splits run1 (workFrom plan segments index) (executeSegments run1 plan segments index completed)
      (executeSegments start plan segments index completed)
  | [], _, completed => splits_pure (⟨completed, none⟩ : KeyReport P)
  | segment :: rest, index, completed => by
    have hnd := (@nodup_workFrom plan (segment :: rest) index).of_map _
    refine (splits_segment index segment completed).bind hnd fun outcome => ?_
    cases outcome.error with
    | some error => exact (splits_pure _).mono (List.nil_sublist _)
    | none => exact splits_segments rest (index + 1) outcome.completed

end Simulation

end Execution

/-- What the report of a key says follows from the results of its runs, each of which made some of the
calls. -/
theorem executeKey_start {O : Type} {handlers : HandlerList P O} {plan : Plan UInt64}
    {key : KeyPlan UInt64} {records : List (ParsedRecord P)} {t : List (Call O)} {report : KeyReport P}
    (h : executeKey handlers plan key records t (some report)) :
    ∃ s, executeKeyWith start plan key s (some report) ∧
      ∀ e ∈ s, ∃ r u, e.result = some r ∧ u.Sublist t ∧
        runOne handlers plan records e.work.run u (some r) := by
  obtain ⟨u, s, rfl, hparts, -, ho⟩ := Execution.splits_segments _ 0 [] t _ h
  have hs := ho report rfl
  obtain ⟨results, hperm, -⟩ := Execution.key_ran hs
  refine ⟨s, hs, fun e he => ?_⟩
  obtain ⟨⟨w, r⟩, -, rfl⟩ := List.mem_map.mp (hperm.mem_iff.mp he)
  exact ⟨r, _, rfl, Execution.eventsOf_sublist u w, hparts.run _ he⟩

end Wakuwaku.Iggy.Consumer
