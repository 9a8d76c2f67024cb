import Wakuwaku.Iggy.Partition.Plan
import Wakuwaku.Iggy.Consumer.Handler

/-! # Executing the plan of one key

The segments of a key run one after another, and in a segment the head run, then the body runs side
by side, then the tail run. Execution stops after the first stage with a failed run. The loop does
not depend on how a run is handled, so it takes that as an argument. -/

namespace Wakuwaku.Iggy.Consumer

open Wakuwaku.Iggy.Events Wakuwaku.Iggy.Partition

/-- A polled message whose headers parsed. -/
structure ParsedRecord (P : Type) where
  /-- Offset in the partition it was polled from. -/
  offset : ℕ
  headers : EventHeaders
  payload : P
  deriving DecidableEq, Repr

/-- What the planner needs of the records. -/
def planRecords {P : Type} (records : List (ParsedRecord P)) : List (PlanRecord UInt64) :=
  records.map fun record =>
    ⟨record.headers.key, record.headers.tag, record.headers.properties.atomicLevel⟩

/-- Position of a run inside its segment; a body run has its index among the body runs. -/
inductive Stage where
  | head
  | body (index : ℕ)
  | tail
  deriving DecidableEq, Repr

/-- A run that failed with a retryable error. -/
structure FailedRun (P : Type) where
  stage : Stage
  /-- Indices of the run's records. -/
  records : List ℕ
  /-- The failed chunk and every chunk after it, serialized. -/
  remainder : List P
  deriving DecidableEq, Repr

/-- Where and why a key stopped. -/
structure KeyFailure (P : Type) where
  /-- Index into the key's segments. -/
  segment : ℕ
  /-- Error of the first failed run. -/
  error : String
  /-- Every failed run, all in the same stage of `segment`. -/
  failedRuns : List (FailedRun P)
  deriving DecidableEq, Repr

structure KeyReport (P : Type) where
  /-- Indices of the records of every completed run. -/
  completed : List ℕ
  failure : Option (KeyFailure P)
  deriving DecidableEq, Repr

/-- Results of one segment, and the records completed so far. -/
structure StageOutcome (P : Type) where
  error : Option String
  failedRuns : List (FailedRun P)
  completed : List ℕ
  deriving DecidableEq, Repr

variable {P O ε : Type}

/-- The records of a run as its handler gets them. -/
def runRecords (plan : Plan UInt64) (records : List (ParsedRecord P)) (run : Run) :
    List (RunRecord P) :=
  (plan.records run).filterMap fun i => records[i]?.map fun record =>
    ⟨record.payload, record.headers.properties.associativity⟩

/-- Handle one run of a plan. -/
def runOne (handlers : HandlerList P O) (plan : Plan UInt64) (records : List (ParsedRecord P))
    (run : Run) : Async (Call O) (RunResult P) :=
  handlers.handleRun run.tag (runRecords plan records run)

/-- Account for the result of one run. -/
def StageOutcome.settle (plan : Plan UInt64) (stage : Stage) (run : Run) (outcome : StageOutcome P) :
    RunResult P → StageOutcome P
  | .done => { outcome with completed := outcome.completed ++ plan.records run }
  | .failed error remainder =>
    { outcome with
      error := if outcome.error.isNone then some error else outcome.error
      failedRuns := outcome.failedRuns ++ [⟨stage, plan.records run, remainder⟩] }

section Execute

variable (run1 : Stage → Run → Async ε (RunResult P)) (plan : Plan UInt64)

/-- A stage with at most one run, skipped after a failure. -/
def executeSingle (stage : Stage) (run : Option Run) (outcome : StageOutcome P) :
    Async ε (StageOutcome P) :=
  match outcome.error, run with
  | none, some run => do
    let result ← run1 stage run
    return outcome.settle plan stage run result
  | _, _ => return outcome

/-- The body stage, skipped after a failure. -/
def executeBody (body : List Run) (outcome : StageOutcome P) : Async ε (StageOutcome P) :=
  match outcome.error with
  | none => do
    let results ← Async.joinAll (body.mapIdx fun i run => run1 (.body i) run)
    return ((body.zip results).zipIdx).foldl
      (fun outcome entry => outcome.settle plan (.body entry.2) entry.1.1 entry.1.2) outcome
  | some _ => return outcome

variable {run1 plan}

@[simp] theorem executeSingle_none (stage : Stage) (outcome : StageOutcome P) :
    executeSingle run1 plan stage none outcome = pure outcome := by
  unfold executeSingle
  cases outcome.error <;> rfl

theorem executeSingle_some {stage : Stage} {run : Run} {outcome : StageOutcome P}
    (h : outcome.error = none) : executeSingle run1 plan stage (some run) outcome = do
      let result ← run1 stage run
      return outcome.settle plan stage run result := by
  simp only [executeSingle, h]

theorem executeSingle_failed {stage : Stage} {run : Option Run} {outcome : StageOutcome P}
    {error : String} (h : outcome.error = some error) :
    executeSingle run1 plan stage run outcome = pure outcome := by
  simp only [executeSingle, h]

theorem executeBody_ok {body : List Run} {outcome : StageOutcome P} (h : outcome.error = none) :
    executeBody run1 plan body outcome = do
      let results ← Async.joinAll (body.mapIdx fun i run => run1 (.body i) run)
      return ((body.zip results).zipIdx).foldl
        (fun outcome entry => outcome.settle plan (.body entry.2) entry.1.1 entry.1.2) outcome := by
  simp only [executeBody, h]

theorem executeBody_failed {body : List Run} {outcome : StageOutcome P} {error : String}
    (h : outcome.error = some error) : executeBody run1 plan body outcome = pure outcome := by
  simp only [executeBody, h]

variable (run1 plan)

/-- The stages of one segment. -/
def executeSegment (segment : Segment) (completed : List ℕ) : Async ε (StageOutcome P) := do
  let outcome ← executeSingle run1 plan .head (plan.head segment) ⟨none, [], completed⟩
  let outcome ← executeBody run1 plan (plan.body segment) outcome
  executeSingle run1 plan .tail (plan.tail segment) outcome

end Execute

/-- The segments of a key from `index` on. -/
def executeSegments (run1 : ℕ → Stage → Run → Async ε (RunResult P)) (plan : Plan UInt64) :
    List Segment → ℕ → List ℕ → Async ε (KeyReport P)
  | [], _, completed => return ⟨completed, none⟩
  | segment :: rest, index, completed => do
    let outcome ← executeSegment (run1 index) plan segment completed
    match outcome.error with
    | some error => return ⟨outcome.completed, some ⟨index, error, outcome.failedRuns⟩⟩
    | none => executeSegments run1 plan rest (index + 1) outcome.completed

/-- Execute every segment of `key` in order with `run1`, stopping after the first stage with a failed
run. -/
def executeKeyWith (run1 : ℕ → Stage → Run → Async ε (RunResult P)) (plan : Plan UInt64)
    (key : KeyPlan UInt64) : Async ε (KeyReport P) :=
  executeSegments run1 plan (plan.segmentsOf key) 0 []

/-- Execute every segment of `key` in order, stopping after the first stage with a failed run. -/
def executeKey (handlers : HandlerList P O) (plan : Plan UInt64) (key : KeyPlan UInt64)
    (records : List (ParsedRecord P)) : Async (Call O) (KeyReport P) :=
  executeKeyWith (fun _ _ run => runOne handlers plan records run) plan key

/-! ### A key of one body run -/

section One

variable {run1 : ℕ → Stage → Run → Async ε (RunResult P)} {plan : Plan UInt64} {key : KeyPlan UInt64}
  {t : List ε} (segment : Segment) (run : Run) (hsegments : plan.segmentsOf key = [segment])
  (hhead : plan.head segment = none) (hbody : plan.body segment = [run])
include hsegments hhead hbody

theorem executeKeyWith_done (htail : plan.tail segment = none)
    (h : run1 0 (.body 0) run t (some .done)) :
    executeKeyWith run1 plan key t (some ⟨plan.records run, none⟩) := by
  have hrun : executeBody (run1 0) plan [run] ⟨none, [], []⟩ t (some ⟨none, [], plan.records run⟩) := by
    rw [executeBody_ok rfl]
    refine Async.bind_iff.mpr ⟨[.done], t, [], ?_, Async.pure_iff.mpr ⟨rfl, rfl⟩, (List.append_nil t).symm⟩
    exact Async.joinAll_cons_iff.mpr ⟨t, [], .done, [], h, Async.joinAll_nil_iff.mpr ⟨rfl, rfl⟩,
      .nil_right t, rfl⟩
  rw [executeKeyWith, hsegments, executeSegments, executeSegment, hhead, hbody, htail, executeSingle_none]
  simp only [executeSingle_none]
  refine Async.bind_iff.mpr ⟨⟨none, [], plan.records run⟩, t, [], ?_, Async.pure_iff.mpr ⟨rfl, rfl⟩,
    (List.append_nil t).symm⟩
  refine Async.bind_iff.mpr ⟨⟨none, [], []⟩, [], t, Async.pure_iff.mpr ⟨rfl, rfl⟩, ?_, rfl⟩
  exact Async.bind_iff.mpr ⟨_, t, [], hrun, Async.pure_iff.mpr ⟨rfl, rfl⟩, (List.append_nil t).symm⟩

theorem executeKeyWith_failed {error : String} {remainder : List P}
    (h : run1 0 (.body 0) run t (some (.failed error remainder))) : executeKeyWith run1 plan key t
      (some ⟨[], some ⟨0, error, [⟨.body 0, plan.records run, remainder⟩]⟩⟩) := by
  have hrun : executeBody (run1 0) plan [run] ⟨none, [], []⟩ t
      (some ⟨some error, [⟨.body 0, plan.records run, remainder⟩], []⟩) := by
    rw [executeBody_ok rfl]
    refine Async.bind_iff.mpr ⟨[.failed error remainder], t, [], ?_, Async.pure_iff.mpr ⟨rfl, rfl⟩,
      (List.append_nil t).symm⟩
    exact Async.joinAll_cons_iff.mpr ⟨t, [], .failed error remainder, [], h,
      Async.joinAll_nil_iff.mpr ⟨rfl, rfl⟩, .nil_right t, rfl⟩
  rw [executeKeyWith, hsegments, executeSegments, executeSegment, hhead, hbody, executeSingle_none]
  refine Async.bind_iff.mpr ⟨⟨some error, [⟨.body 0, plan.records run, remainder⟩], []⟩, t, [], ?_,
    Async.pure_iff.mpr ⟨rfl, rfl⟩, (List.append_nil t).symm⟩
  refine Async.bind_iff.mpr ⟨⟨none, [], []⟩, [], t, Async.pure_iff.mpr ⟨rfl, rfl⟩, ?_, rfl⟩
  refine Async.bind_iff.mpr ⟨_, t, [], hrun, ?_, (List.append_nil t).symm⟩
  rw [executeSingle_failed rfl]
  exact Async.pure_iff.mpr ⟨rfl, rfl⟩

/-- The run is cut off. -/
theorem executeKeyWith_cut (h : run1 0 (.body 0) run t none) : executeKeyWith run1 plan key t none := by
  have hrun : executeBody (run1 0) plan [run] ⟨none, [], []⟩ t none := by
    rw [executeBody_ok rfl]
    exact Or.inl ⟨⟨t, [], none, some [], h, Async.joinAll_nil_iff.mpr ⟨rfl, rfl⟩, .nil_right t, rfl⟩, rfl⟩
  rw [executeKeyWith, hsegments, executeSegments, executeSegment, hhead, hbody, executeSingle_none]
  refine Or.inl ⟨Or.inr ⟨⟨none, [], []⟩, [], t, Async.pure_iff.mpr ⟨rfl, rfl⟩, ?_, rfl⟩, rfl⟩
  exact Or.inl ⟨hrun, rfl⟩

end One

end Wakuwaku.Iggy.Consumer
