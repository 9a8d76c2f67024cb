import Wakuwaku.Steps
import Wakuwaku.Iggy.Events.Headers
import Wakuwaku.Iggy.Consumer.Retry

/-! # The retry side of a partition task

A task reads its retry partition into the schedule (`drainPolled`, one round of `drain_retry`), and
runs one attempt for every due key (`runDue`). Nothing waits while a batch is added, or while the
outcomes of the attempts are written down, so these are the steps of the task (`RetryStep`). Offsets
are naturals; a partition has fewer than `u64::MAX` records. -/

namespace Wakuwaku.Iggy.Consumer

open Wakuwaku.Iggy.Events Wakuwaku.Iggy.Partition

/-! ### Reading the retry partition -/

/-- A message of a partition. -/
structure PolledMessage (I : IggyHeaders) (P : Type) where
  offset : ℕ
  message : I.IggyMessage
  payload : P

variable {I : IggyHeaders} {P O : Type}

/-- `record::parse`. -/
def parseRecord (polled : PolledMessage I P) :
    Except EventParseError (ParsedRecord P × Option RetryProperties) := do
  let (headers, retry) ← EventHeaders.parse I polled.message
  return (⟨polled.offset, headers, polled.payload⟩, retry)

/-- The record to add for a message; a message with bad headers or without retry header is dropped. -/
def retryRecord (polled : PolledMessage I P) : Option (PendingRecord P) :=
  match parseRecord polled with
  | .ok (record, some retry) => some ⟨record, retry.failedAtMs.toNat⟩
  | .ok (_, none) => none
  | .error _ => none

/-- Read position in one partition. -/
structure Cursor where
  /-- Offset of the next record to read, or `none` to start at the first retained record. -/
  next : Option ℕ
  deriving DecidableEq, Repr

def Cursor.nextOrZero (cursor : Cursor) : ℕ := cursor.next.getD 0

/-- What the loop of a task keeps of the retry partition. -/
structure RetryTask (P : Type) where
  state : RetryState P
  cursor : Cursor

/-- Add what a message holds. -/
def enqueuePolled (now nowMs : ℕ) (state : RetryState P) (polled : PolledMessage I P) : RetryState P :=
  match retryRecord polled with
  | some record => state.enqueue record now nowMs
  | none => state

/-- One round of `drain_retry`: add the polled messages, and read on after the last one. -/
def RetryTask.drainPolled (task : RetryTask P) (messages : List (PolledMessage I P)) (now nowMs : ℕ) :
    RetryTask P :=
  match messages.getLast? with
  | none => task
  | some last =>
    { state := messages.foldl (enqueuePolled now nowMs) task.state
      cursor := ⟨some (last.offset + 1)⟩ }

/-! ### Running the due keys -/

/-- Plan and execute the pending records of one retry key. -/
def attempt (handlers : HandlerList P O) (records : List (ParsedRecord P)) :
    Async (Call O) (KeyReport P) :=
  let plan := Plan.new (planRecords records)
  match plan.keys.head? with
  | some key => executeKey handlers plan key records
  | none => return { completed := [], failure := none }

/-- What an attempt on a key came to: the offsets of the records in completed and in failed runs, and
what happened to the key. -/
structure Outcome where
  key : UInt64
  resolved : List ℕ
  failed : List ℕ
  finish : Finish
  deriving DecidableEq, Repr

/-- The offsets of the records at some indices. -/
def offsetsOf (records : List (ParsedRecord P)) (indices : List ℕ) : List ℕ :=
  indices.filterMap fun i => (records[i]?).map (·.offset)

/-- Write down the outcome of one attempt. -/
def finishReport (state : RetryState P) (key : UInt64) (records : List (ParsedRecord P))
    (report : KeyReport P) (now : ℕ) : RetryState P × Outcome :=
  let resolved := offsetsOf records report.completed
  let failed := match report.failure with
    | some failure => offsetsOf records (failure.failedRuns.flatMap (·.records))
    | none => []
  let (state, finish) := state.finish key resolved failed now
  (state, ⟨key, resolved, failed, finish⟩)

def finishReports (now : ℕ) : List ((UInt64 × List (ParsedRecord P)) × KeyReport P) → RetryState P →
    RetryState P × List Outcome
  | [], state => (state, [])
  | ((key, records), report) :: rest, state =>
    let (state, outcome) := finishReport state key records report now
    let (state, outcomes) := finishReports now rest state
    (state, outcome :: outcomes)

/-- Run one attempt for every due retry key, the outcomes being written down at `now`. -/
def runDue (handlers : HandlerList P O) (state : RetryState P) (due : List UInt64) (now : ℕ) :
    Async (Call O) (RetryState P × List Outcome) :=
  if due = [] then return (state, [])
  else do
    let work := due.map fun key => (key, state.records key)
    let reports ← Async.joinAll (work.map fun entry => attempt handlers entry.2)
    return finishReports now (work.zip reports) state

/-! ### The steps of a task -/

/-- What a task did with the retry partition. -/
inductive RetryEvent (I : IggyHeaders) (P : Type) where
  | drained (messages : List (PolledMessage I P))
  | ran (outcomes : List Outcome)

/-- A poll returns messages from the cursor on, in the order of their offsets, and the due keys are
those of some moment, in any order. -/
inductive RetryStep (handlers : HandlerList P O) :
    RetryTask P → RetryEvent I P → RetryTask P → Prop where
  | drained {task messages} (now nowMs : ℕ) (hne : messages ≠ [])
      (hfrom : ∀ polled ∈ messages, task.cursor.nextOrZero ≤ polled.offset)
      (hsorted : messages.Pairwise fun polled polled' => polled.offset < polled'.offset) :
      RetryStep handlers task (.drained messages) (task.drainPolled messages now nowMs)
  | ran {task : RetryTask P} {due state outcomes} (started now : ℕ)
      (hdue : due.Perm (task.state.dueKeys started)) (t : List (Call O))
      (ht : runDue handlers task.state due now t (some (state, outcomes))) :
      RetryStep handlers task (.ran outcomes) { task with state }

namespace RetryEvent

/-- The offsets of the records read. -/
def read : RetryEvent I P → List ℕ
  | .drained messages => messages.map (·.offset)
  | .ran _ => []

/-- The offsets of the records dropped for their headers. -/
def rejected : RetryEvent I P → List ℕ
  | .drained messages => (messages.filter fun polled => (retryRecord polled).isNone).map (·.offset)
  | .ran _ => []

def outcomes : RetryEvent I P → List Outcome
  | .drained _ => []
  | .ran outcomes => outcomes

end RetryEvent

/-- The offsets of the records that a key loses in an attempt. -/
def Outcome.gone (outcome : Outcome) : List ℕ :=
  if outcome.finish.isGaveUp then outcome.resolved ++ outcome.failed else outcome.resolved

/-! ### What a batch adds -/

section Drain

variable {state : RetryState P} {messages : List (PolledMessage I P)} {now nowMs next : ℕ}

theorem offset_of_retryRecord {polled : PolledMessage I P} {record : PendingRecord P}
    (h : retryRecord polled = some record) : record.record.offset = polled.offset := by
  unfold retryRecord parseRecord at h
  generalize EventHeaders.parse I polled.message = parsed at h
  rcases parsed with error | ⟨headers, _ | retry⟩
  · cases h
  · cases h
  · cases h
    rfl

theorem enqueuePolled_eq (polled : PolledMessage I P) : enqueuePolled now nowMs state polled =
    (match retryRecord polled with
      | some record => state.enqueue record now nowMs
      | none => state) := rfl

theorem delays_foldl : ∀ (messages : List (PolledMessage I P)) (state : RetryState P),
    (messages.foldl (enqueuePolled now nowMs) state).delays = state.delays
  | [], _ => rfl
  | polled :: rest, state => by
    rw [List.foldl_cons, delays_foldl rest, enqueuePolled_eq]
    cases retryRecord polled <;> rfl

theorem valid_foldl {bound : ℕ} : ∀ {messages : List (PolledMessage I P)} {state : RetryState P}
    {next : ℕ}, state.Valid next → next ≤ bound →
      (∀ polled ∈ messages, next ≤ polled.offset ∧ polled.offset < bound) →
        (messages.Pairwise fun polled polled' => polled.offset < polled'.offset) →
          (messages.foldl (enqueuePolled now nowMs) state).Valid bound
  | [], _, _, h, hle, _, _ => h.mono hle
  | polled :: rest, state, next, h, hle, hfrom, hsorted => by
    obtain ⟨hfirst, hrest⟩ := List.pairwise_cons.mp hsorted
    obtain ⟨hnext, hbound⟩ := hfrom polled List.mem_cons_self
    rw [List.foldl_cons, enqueuePolled_eq]
    cases hrec : retryRecord polled with
    | none => exact valid_foldl h hle (fun p hp => hfrom p (List.mem_cons_of_mem _ hp)) hrest
    | some record =>
      have hoffset := offset_of_retryRecord hrec
      exact valid_foldl (h.enqueue record now nowMs (hoffset ▸ hnext)) (by omega)
        (fun p hp => ⟨hoffset ▸ hfirst p hp, (hfrom p (List.mem_cons_of_mem _ hp)).2⟩) hrest

theorem mem_pendingRecords_foldl {p : PendingRecord P} :
    ∀ {messages : List (PolledMessage I P)} {state : RetryState P},
      p ∈ (messages.foldl (enqueuePolled now nowMs) state).pendingRecords ↔
        p ∈ state.pendingRecords ∨ ∃ polled ∈ messages, retryRecord polled = some p
  | [], _ => by simp
  | polled :: rest, state => by
    rw [List.foldl_cons, mem_pendingRecords_foldl, enqueuePolled_eq]
    cases hrec : retryRecord polled with
    | none => simp [hrec]
    | some record =>
      simp only [RetryState.mem_pendingRecords_enqueue, List.mem_cons, exists_eq_or_imp, hrec,
        Option.some.injEq, or_assoc, @eq_comm _ record p]

/-- A batch without a record of a key leaves the key alone. -/
theorem lookup_foldl {key : UInt64} : ∀ {messages : List (PolledMessage I P)} {state : RetryState P},
    (∀ polled ∈ messages, ∀ record, retryRecord polled = some record → record.record.headers.key ≠ key) →
      (messages.foldl (enqueuePolled now nowMs) state).keys.lookup key = state.keys.lookup key
  | [], _, _ => rfl
  | polled :: rest, state, h => by
    rw [List.foldl_cons, lookup_foldl fun p hp => h p (List.mem_cons_of_mem _ hp), enqueuePolled_eq]
    cases hrec : retryRecord polled with
    | none => rfl
    | some record =>
      exact RetryState.lookup_enqueue_of_ne record now nowMs
        (h polled List.mem_cons_self record hrec).symm

end Drain

/-! ### What the outcomes take out -/

section Report

variable {state state' : RetryState P} {key : UInt64} {now next : ℕ}

theorem delays_finishReport (records : List (ParsedRecord P)) (report : KeyReport P) :
    (finishReport state key records report now).1.delays = state.delays :=
  RetryState.finish_delays now

theorem valid_finishReport (h : state.Valid next) (records : List (ParsedRecord P))
    (report : KeyReport P) : (finishReport state key records report now).1.Valid next :=
  h.finish _ _ _ _

/-- A key loses what its outcome says, and the others lose nothing. -/
theorem mem_queue_finishReport (records : List (ParsedRecord P)) (report : KeyReport P) (k : UInt64)
    (p : PendingRecord P) : p ∈ (finishReport state key records report now).1.queue k ↔
      p ∈ state.queue k ∧
        (key = k → p.record.offset ∉ (finishReport state key records report now).2.gone) := by
  unfold finishReport Outcome.gone
  by_cases hk : k = key
  · subst hk
    simp only [RetryState.queue_finish, List.mem_filter, decide_eq_true_eq, true_imp_iff]
    refine and_congr_right fun _ => ?_
    split_ifs with hg <;> simp [hg]
  · simp only [RetryState.queue_finish_of_ne hk, Ne.symm hk, false_imp_iff, and_true]

theorem finishReports_cons (records : List (ParsedRecord P)) (report : KeyReport P)
    (rest : List ((UInt64 × List (ParsedRecord P)) × KeyReport P)) :
    finishReports now (((key, records), report) :: rest) state =
      ((finishReports now rest (finishReport state key records report now).1).1,
        (finishReport state key records report now).2 ::
          (finishReports now rest (finishReport state key records report now).1).2) := rfl

theorem delays_finishReports : ∀ (work : List ((UInt64 × List (ParsedRecord P)) × KeyReport P))
    (state : RetryState P), (finishReports now work state).1.delays = state.delays
  | [], _ => rfl
  | _ :: rest, _ => (delays_finishReports rest _).trans (delays_finishReport _ _)

theorem valid_finishReports : ∀ (work : List ((UInt64 × List (ParsedRecord P)) × KeyReport P))
    {state : RetryState P}, state.Valid next → (finishReports now work state).1.Valid next
  | [], _, h => h
  | _ :: rest, _, h => valid_finishReports rest (valid_finishReport h _ _)

theorem mem_queue_finishReports {k : UInt64} {p : PendingRecord P} :
    ∀ (work : List ((UInt64 × List (ParsedRecord P)) × KeyReport P)) (state : RetryState P),
      p ∈ (finishReports now work state).1.queue k ↔ p ∈ state.queue k ∧
        ∀ outcome ∈ (finishReports now work state).2, outcome.key = k →
          p.record.offset ∉ outcome.gone
  | [], state => by simp [finishReports]
  | ((key, records), report) :: rest, state => by
    have ih := mem_queue_finishReports (p := p) (k := k) rest
      (finishReport state key records report now).1
    have hkey : (finishReport state key records report now).2.key = key := rfl
    simp only [finishReports_cons, List.forall_mem_cons, ih, mem_queue_finishReport, hkey, and_assoc]

/-- What a round of attempts came to is what their reports say. -/
theorem exists_reports {handlers : HandlerList P O} {due : List UInt64} {t : List (Call O)}
    {outcomes : List Outcome} (h : runDue handlers state due now t (some (state', outcomes))) :
    ∃ reports, Async.joinAll (due.map fun key => attempt handlers (state.records key)) t (some reports) ∧
      (state', outcomes) =
        finishReports now ((due.map fun key => (key, state.records key)).zip reports) state := by
  unfold runDue at h
  split_ifs at h with hdue
  · obtain ⟨rfl, hr⟩ := Async.pure_iff.mp h
    exact ⟨[], hdue ▸ Async.joinAll_nil_iff.mpr ⟨rfl, rfl⟩, by rw [hr, hdue]; rfl⟩
  · obtain ⟨reports, u, v, hu, hv, rfl⟩ := Async.bind_iff.mp h
    obtain ⟨rfl, hr⟩ := Async.pure_iff.mp hv
    rw [List.map_map] at hu
    exact ⟨reports, (List.append_nil u).symm ▸ hu, hr⟩

end Report

end Wakuwaku.Iggy.Consumer
