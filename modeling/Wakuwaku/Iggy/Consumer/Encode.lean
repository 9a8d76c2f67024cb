import Wakuwaku.Iggy.Consumer.Execute

/-! # Encoding the unfinished work of a key as retry records

Runs are written already reduced. A head run starts with `Acquire`, a tail run ends with `Release`,
and everything else is `Relaxed`, so that planning the entries again keeps the orderings of the plan
they come from. -/

namespace Wakuwaku.Iggy.Consumer

open Wakuwaku.Iggy.Events Wakuwaku.Iggy.Partition

inductive StageKind where
  | head
  | body
  | tail
  deriving DecidableEq, Repr

/-- The order of the kinds. -/
def StageKind.toNat : StageKind → ℕ
  | .head => 0
  | .body => 1
  | .tail => 2

theorem StageKind.toNat_inj {k k' : StageKind} : k.toNat = k'.toNat ↔ k = k' := by
  cases k <;> cases k' <;> simp [StageKind.toNat]

/-- `StageKind::from`. -/
def Stage.kind : Stage → StageKind
  | .head => .head
  | .body _ => .body
  | .tail => .tail

/-- Orderings of the `len` entries written for one run in a stage. -/
def stageOrderings (kind : StageKind) (len : ℕ) : List EventAtomicOrdering :=
  (List.range len).map fun i =>
    if kind = .head ∧ i = 0 then .acquire
    else if kind = .tail ∧ i + 1 = len then .release
    else .relaxed

structure RetryEntry (P : Type) where
  headers : EventHeaders
  payload : P
  deriving DecidableEq, Repr

variable {P O : Type}

/-- The runs of a segment with their stages, in plan order. -/
def stagesOf (plan : Plan UInt64) (segment : Segment) : List (Stage × Run) :=
  (plan.head segment).toList.map (Stage.head, ·) ++
    (plan.body segment).mapIdx (fun i run => (Stage.body i, run)) ++
      (plan.tail segment).toList.map (Stage.tail, ·)

/-- The entries written for one run. -/
def pushRun (handlers : HandlerList P O) (key : UInt64) (kind : StageKind) (run : Run)
    (payloads : List P) : List (RetryEntry P) :=
  match handlers.associativity run.tag with
  | none => []
  | some associativity => (payloads.zip (stageOrderings kind payloads.length)).map fun entry =>
      ⟨⟨run.tag, key, ⟨entry.2, associativity⟩⟩, entry.1⟩

/-- The reduced payloads of a run that was not started. -/
def reduce (handlers : HandlerList P O) (plan : Plan UInt64) (records : List (ParsedRecord P))
    (run : Run) : List P :=
  handlers.reduceRun run.tag (runRecords plan records run)

/-- `Vec::swap_remove`: take out an element and put the last one in its place. -/
def swapRemove {α : Type} (l : List α) (i : ℕ) : List α :=
  match l.getLast? with
  | none => []
  | some last => (l.set i last).dropLast

/-- What to do with one run of the failed segment: nothing, write its remainder, or reduce it. The
failed runs that are left come back. -/
def failedPayloads (handlers : HandlerList P O) (plan : Plan UInt64) (records : List (ParsedRecord P))
    (failedKind : StageKind) (stage : Stage) (run : Run) (failed : List (FailedRun P)) :
    Option (List P) × List (FailedRun P) :=
  if stage.kind.toNat < failedKind.toNat then (none, failed)
  else if stage.kind = failedKind then
    match failed.findIdx? (·.stage = stage) with
    | some position => ((failed[position]?).map (·.remainder), swapRemove failed position)
    | none => (none, failed)
  else (some (reduce handlers plan records run), failed)

/-- The entries of some runs of the failed segment. -/
def encodeFailed (handlers : HandlerList P O) (plan : Plan UInt64) (records : List (ParsedRecord P))
    (key : UInt64) (failedKind : StageKind) :
    List (Stage × Run) → List (FailedRun P) → List (RetryEntry P)
  | [], _ => []
  | (stage, run) :: rest, failed =>
    let (payloads, left) := failedPayloads handlers plan records failedKind stage run failed
    (match payloads with
      | none => []
      | some payloads => pushRun handlers key stage.kind run payloads) ++
        encodeFailed handlers plan records key failedKind rest left

/-- The entries of a segment of which nothing was started. -/
def encodeSegment (handlers : HandlerList P O) (plan : Plan UInt64) (records : List (ParsedRecord P))
    (key : UInt64) (segment : Segment) : List (RetryEntry P) :=
  (stagesOf plan segment).flatMap fun entry =>
    pushRun handlers key entry.1.kind entry.2 (reduce handlers plan records entry.2)

/-- Encode the unfinished work of `key`: everything from the failed segment on, or every segment
when there is no failure. -/
def encodeKey (handlers : HandlerList P O) (plan : Plan UInt64) (key : KeyPlan UInt64)
    (records : List (ParsedRecord P)) (failure : Option (KeyFailure P)) : List (RetryEntry P) :=
  match failure with
  | none => (plan.segmentsOf key).flatMap (encodeSegment handlers plan records key.key)
  | some failure =>
    match (plan.segmentsOf key).drop failure.segment, failure.failedRuns.head? with
    | [], _ => []
    | segments, none => segments.flatMap (encodeSegment handlers plan records key.key)
    | segment :: segments, some first =>
      encodeFailed handlers plan records key.key first.stage.kind (stagesOf plan segment)
        failure.failedRuns ++ segments.flatMap (encodeSegment handlers plan records key.key)

end Wakuwaku.Iggy.Consumer
