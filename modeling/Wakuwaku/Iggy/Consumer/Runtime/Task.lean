import Wakuwaku.World
import Wakuwaku.Iggy.Consumer.Encode
import Wakuwaku.Iggy.Consumer.Runtime.Offsets

/-! # The loop of a partition task

A task reads its retry partition to the end, runs the retry keys that are due, then polls one batch
of the main partition (`PartitionTask.run`). Keys of the batch that are quarantined are diverted to
retry unexecuted, and keys that fail are written to retry from where they failed. What the task asks
Iggy for, the calls of its handlers and what it logs are its events. Every moment is a clock reading;
the lists are in memory, so no count of theirs saturates. -/

namespace Wakuwaku.Iggy.Consumer

open Wakuwaku.Iggy.Events Wakuwaku.Iggy.Partition

/-! ### Configuration -/

/-- When the consumer stores its offsets, which decides what a crash costs. -/
inductive DeliveryMode where
  /-- At most once: offsets are stored right after polling. -/
  | noDoubleConsume
  /-- At least once: the main offset is stored after the batch, and the retry offset never passes a
  record that is still pending. -/
  | noEventLose
  deriving DecidableEq, Repr

/-- What `start` has checked, of one partition. -/
structure ConsumerConfig where
  mode : DeliveryMode
  retryDelays : List ℕ
  retryDelays_ne : retryDelays ≠ []
  pollCount : ℕ
  pollCount_ne : pollCount ≠ 0
  /-- Maximum number of records waiting in the retry partition. -/
  maxPendingRetry : ℕ

/-! ### Events -/

inductive Topic where
  | main
  | retry
  deriving DecidableEq, Repr

/-- What a task does, with the answers. A request without an answer was cut off. -/
inductive TaskEvent (I : IggyHeaders) (P O : Type) where
  | storedOffset (topic : Topic) (answer : Option (Except I.IggyError (Option ℕ)))
  | poll (topic : Topic) (cursor : Cursor) (count : ℕ)
    (answer : Option (Except I.IggyError (List (PolledMessage I P))))
  | store (topic : Topic) (offset : ℕ) (answer : Option (Except I.IggyError Unit))
  /-- A batch for the retry partition. -/
  | send (messages : List (I.IggyMessage × P)) (answer : Option (Except I.IggyError Unit))
  /-- A handler call for a key of a main batch. -/
  | execute (key : UInt64) (call : Call O)
  /-- A handler call of a retry attempt, for the run of the records at some offsets. -/
  | retry (run : List ℕ) (call : Call O)
  /-- What a round of retry attempts came to. -/
  | ran (outcomes : List Outcome)
  /-- Failed work that is dropped since the retry backlog is full. -/
  | backlogFull (failed : List (RetryEntry P))

/-- Shutdown was requested. -/
inductive Stopped where
  | stopped

variable {I : IggyHeaders} {P O ε α : Type}

/-- A task that shutdown ends. -/
abbrev Tasking (I : IggyHeaders) (P O α : Type) := ExceptT Stopped (Async (TaskEvent I P O)) α

/-- The output of `m`, unless shutdown is requested. -/
def unlessStopped (m : Async (TaskEvent I P O) α) : Tasking I P O α := Async.unlessDropped .stopped m

/-- `Instant::now` and `now_ms`. -/
def now : Async ε ℕ := Async.choose fun _ => True

/-- The future of a sleep. -/
def sleep : Async ε Unit := Async.choose fun _ => True

def log (event : TaskEvent I P O) : Async (TaskEvent I P O) Unit := Async.call fun _ => event

/-! ### Requests -/

def storedCursor (topic : Topic) : Async (TaskEvent I P O) Cursor := do
  let stored ← Async.untilOk (Async.call (.storedOffset topic))
  return ⟨stored.map (· + 1)⟩

def store (topic : Topic) (offset : ℕ) : Async (TaskEvent I P O) Unit :=
  Async.untilOk (Async.call (.store topic offset))

def poll (count : ℕ) (topic : Topic) (cursor : Cursor) :
    Async (TaskEvent I P O) (List (PolledMessage I P)) :=
  Async.untilOk (Async.call (.poll topic cursor count))

/-! ### Attempts -/

/-- `attempt`, with the offsets of the records of each run. -/
def attemptRuns (handlers : HandlerList P O) (records : List (ParsedRecord P)) :
    Async (List ℕ × Call O) (KeyReport P) :=
  let plan := Plan.new (planRecords records)
  match plan.keys.head? with
  | some key => executeKeyWith (fun _ _ run =>
      (runOne handlers plan records run).label (offsetsOf records (plan.records run), ·)) plan key
  | none => return { completed := [], failure := none }

/-- `runDue`, with the offsets of the records of each run. -/
def runDueRuns (handlers : HandlerList P O) (state : RetryState P) (due : List UInt64) (now : ℕ) :
    Async (List ℕ × Call O) (RetryState P × List Outcome) :=
  if due = [] then return (state, [])
  else do
    let work := due.map fun key => (key, state.records key)
    let reports ← Async.joinAll (work.map fun entry => attemptRuns handlers entry.2)
    return finishReports now (work.zip reports) state

/-- What a round of attempts came to is what some reports say. -/
theorem exists_work {handlers : HandlerList P O} {state state' : RetryState P} {due : List UInt64}
    {now : ℕ} {t : List (List ℕ × Call O)} {outcomes : List Outcome}
    (h : runDueRuns handlers state due now t (some (state', outcomes))) :
    ∃ work, (state', outcomes) = finishReports now work state := by
  unfold runDueRuns at h
  split_ifs at h with hdue
  · obtain ⟨-, hr⟩ := Async.pure_iff.mp h
    exact ⟨[], hr⟩
  · obtain ⟨reports, u, v, hu, hv, rfl⟩ := Async.bind_iff.mp h
    exact ⟨_, (Async.pure_iff.mp hv).2⟩

/-! ### The task -/

structure PartitionTask (I : IggyHeaders) (P O : Type) where
  handlers : HandlerList P O
  config : ConsumerConfig
  /-- `IggyMessage::builder().payload(payload).user_headers(headers).build()`. -/
  build : P → (String → Option I.HeaderValue) → Except I.IggyError I.IggyMessage

/-- The variables of the loop. -/
structure TaskState (P : Type) where
  main : Cursor
  retry : RetryTask P
  retryStored : Option ℕ

/-- The records of a main batch, without those with bad headers. -/
def parseMain (polled : List (PolledMessage I P)) : List (ParsedRecord P) :=
  polled.filterMap fun message => match parseRecord message with
    | .ok (record, _) => some record
    | .error _ => none

namespace PartitionTask

variable (task : PartitionTask I P O)

/-- Store an offset, in one of the modes. -/
def storeIn (mode : DeliveryMode) (topic : Topic) (offset : ℕ) : Async (TaskEvent I P O) Unit :=
  if task.config.mode = mode then store topic offset else return ()

/-- One round of `drain_retry`: it ends at the end of the partition. -/
def drainRound (retry : RetryTask P) : Tasking I P O (RetryTask P ⊕ RetryTask P) := do
  let polled ← unlessStopped (poll task.config.pollCount .retry retry.cursor)
  match polled.getLast? with
  | none => return .inr retry
  | some last => do
    let instant ← (now : Async (TaskEvent I P O) ℕ)
    let nowMs ← (now : Async (TaskEvent I P O) ℕ)
    task.storeIn .noDoubleConsume .retry last.offset
    return .inl (retry.drainPolled polled instant nowMs)

/-- Read the retry partition to its end. -/
def drainRetry (retry : RetryTask P) : Tasking I P O (RetryTask P) := Async.tryLoop task.drainRound retry

/-- Run one attempt for every due retry key, in any order of the keys. -/
def runDueKeys (state : RetryState P) : Async (TaskEvent I P O) (RetryState P) := do
  let started ← now
  let due ← Async.choose fun due => due.Perm (state.dueKeys started)
  let finished ← now
  let (state, outcomes) ← (runDueRuns task.handlers state due finished).label fun e => .retry e.1 e.2
  log (.ran outcomes)
  return state

/-- Store the offset of the retry partition, if it has moved. -/
def commitRetry (state : TaskState P) : Async (TaskEvent I P O) (TaskState P) :=
  if task.config.mode = .noEventLose then
    match state.retry.committable with
    | some offset =>
      if state.retryStored.all (· < offset) then do
        store .retry offset
        return { state with retryStored := some offset }
      else return state
    | none => return state
  else return state

/-- The entries of a main batch, key by key, and the failed work that is dropped. -/
def mainEntries (state : RetryState P) (plan : Plan UInt64) (records : List (ParsedRecord P)) :
    List (KeyPlan UInt64) → List (KeyReport P) → List (RetryEntry P) × List (RetryEntry P) →
      List (RetryEntry P) × List (RetryEntry P)
  | [], _, entries => entries
  | key :: keys, reports, (entries, dropped) =>
    if state.isQuarantined key.key then
      mainEntries state plan records keys reports
        (entries ++ encodeKey task.handlers plan key records none, dropped)
    else match reports with
      | [] => mainEntries state plan records keys [] (entries, dropped)
      | report :: reports =>
        match report.failure with
        | none => mainEntries state plan records keys reports (entries, dropped)
        | some failure =>
          let failed := encodeKey task.handlers plan key records (some failure)
          if task.config.maxPendingRetry < state.pendingLen + entries.length + failed.length then
            mainEntries state plan records keys reports (entries, dropped ++ failed)
          else mainEntries state plan records keys reports (entries ++ failed, dropped)

/-- The message of an entry, unless it can't be built. -/
def retryMessage (nowMs : UInt64) (entry : RetryEntry P) : Option (I.IggyMessage × P) :=
  let message := do
    let headers ← entry.headers.toMap I (some ⟨nowMs⟩)
    task.build entry.payload headers
  match message with
  | .ok message => some (message, entry.payload)
  | .error _ => none

/-- Write entries to the retry partition in one batch. -/
def sendRetry (entries : List (RetryEntry P)) : Async (TaskEvent I P O) Unit := do
  let nowMs ← Async.choose fun _ => True
  let messages := entries.filterMap (task.retryMessage nowMs)
  if messages.isEmpty then return ()
  else Async.untilOk (Async.call (.send messages))

/-- Execute or divert every key of a main batch, and write the failed and diverted work to the retry
partition. -/
def processMain (state : RetryState P) (polled : List (PolledMessage I P)) :
    Async (TaskEvent I P O) Unit := do
  let records := parseMain polled
  let plan := Plan.new (planRecords records)
  let reports ← Async.joinAll ((plan.keys.filter fun key => !state.isQuarantined key.key).map fun key =>
    (executeKey task.handlers plan key records).label (.execute key.key))
  let (entries, dropped) := task.mainEntries state plan records plan.keys reports ([], [])
  log (.backlogFull dropped)
  task.sendRetry entries

/-- One round of the loop. -/
def round (state : TaskState P) : Tasking I P O (TaskState P ⊕ Empty) := do
  let retry ← task.drainRetry state.retry
  let schedule ← task.runDueKeys retry.state
  let state ← task.commitRetry { state with retry := { retry with state := schedule } }
  let polled ← unlessStopped (poll task.config.pollCount .main state.main)
  match polled.getLast? with
  | none => do
    unlessStopped sleep
    return .inl state
  | some last => do
    task.storeIn .noDoubleConsume .main last.offset
    task.processMain state.retry.state polled
    task.storeIn .noEventLose .main last.offset
    return .inl { state with main := ⟨some (last.offset + 1)⟩ }

/-- Consume the partition until shutdown is requested. -/
def run : Tasking I P O Empty := do
  let main ← unlessStopped (storedCursor .main)
  let retry ← unlessStopped (storedCursor .retry)
  Async.tryLoop task.round ⟨main, ⟨.new task.config.retryDelays, retry⟩, none⟩

end PartitionTask

end Wakuwaku.Iggy.Consumer
