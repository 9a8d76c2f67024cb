import Wakuwaku.Iggy.Consumer.Runtime.History

/-! # Proof outlines of a partition task

An outline says what holds at each point of the task, and what is safe to leave when the task is cut off
or stopped. If the steps from point to point keep it (`Outline`), then a task that starts where it is
safe leaves what is safe, at every moment (`Outline.triple_run`). -/

namespace Wakuwaku.Iggy.Consumer

open Wakuwaku.Iggy.Events Wakuwaku.Iggy.Partition World

/-- A point of the task, with its variables there. -/
inductive Point (I : IggyHeaders) (P : Type) where
  /-- The main offset was read. -/
  | opened (main : Cursor)
  /-- The retry partition is about to be polled. -/
  | reading (main : Cursor) (retry : RetryTask P)
  | fetched (main : Cursor) (retry : RetryTask P) (batch : List (PolledMessage I P))
  /-- The offset of the batch was stored, if the mode says so. -/
  | noted (main : Cursor) (retry : RetryTask P) (batch : List (PolledMessage I P))
  /-- The retry partition was read to its end. -/
  | drained (main : Cursor) (retry : RetryTask P)
  /-- The due keys were attempted, and the outcomes are about to be logged. -/
  | attempted (main : Cursor) (retry : RetryTask P) (state : RetryState P) (outcomes : List Outcome)
  /-- The main partition was polled. -/
  | polled (main : Cursor) (retry : RetryTask P) (batch : List (PolledMessage I P))
  /-- The main offset was stored, if the mode says so. -/
  | claimed (main : Cursor) (retry : RetryTask P) (batch : List (PolledMessage I P))
  /-- The keys that are not quarantined were executed. -/
  | executed (main : Cursor) (retry : RetryTask P) (batch : List (PolledMessage I P))
    (reports : List (KeyReport P))
  /-- The entries are about to be written to the retry partition. -/
  | writing (main : Cursor) (retry : RetryTask P) (batch : List (PolledMessage I P))
    (entries : List (RetryEntry P))
  | written (main : Cursor) (retry : RetryTask P) (batch : List (PolledMessage I P))

variable {I : IggyHeaders} {P O : Type}

namespace PartitionTask

variable (task : PartitionTask I P O)

/-- The plan of a main batch. -/
def mainPlan (batch : List (PolledMessage I P)) : Plan UInt64 := Plan.new (planRecords (parseMain batch))

/-- The keys of a main batch that are not quarantined. -/
def directKeys (state : RetryState P) (batch : List (PolledMessage I P)) : List (KeyPlan UInt64) :=
  (mainPlan batch).keys.filter fun key => !state.isQuarantined key.key

/-- The execution of the keys of a main batch. -/
def executeMain (state : RetryState P) (batch : List (PolledMessage I P)) :
    Async (TaskEvent I P O) (List (KeyReport P)) :=
  Async.joinAll ((directKeys state batch).map fun key =>
    (executeKey task.handlers (mainPlan batch) key (parseMain batch)).label (.execute key.key))

/-- The entries of a main batch, and the failed work that is dropped. -/
def writeMain (state : RetryState P) (batch : List (PolledMessage I P)) (reports : List (KeyReport P)) :
    List (RetryEntry P) × List (RetryEntry P) :=
  task.mainEntries state (mainPlan batch) (parseMain batch) (mainPlan batch).keys reports ([], [])

theorem storeIn_of_eq {mode : DeliveryMode} (h : task.config.mode = mode) (topic : Topic) (offset : ℕ) :
    task.storeIn mode topic offset = store topic offset := if_pos h

theorem storeIn_of_ne {mode : DeliveryMode} (h : task.config.mode ≠ mode) (topic : Topic) (offset : ℕ) :
    task.storeIn mode topic offset = pure () := if_neg h

theorem processMain_eq (state : RetryState P) (batch : List (PolledMessage I P)) :
    task.processMain state batch = (do
      let reports ← task.executeMain state batch
      log (.backlogFull (task.writeMain state batch reports).2)
      task.sendRetry (task.writeMain state batch reports).1) := rfl

end PartitionTask

/-- What holds at each point of a task, kept by its steps. -/
structure Outline (task : PartitionTask I P O) (world : World (Moment I P O) (TaskEvent I P O)) where
  safe : Assertion world
  holds : Point I P → Assertion world
  safe_of : ∀ point s, holds point s → safe s
  openMain : Triple safe safe (storedCursor .main) fun main => holds (.opened main)
  openRetry : ∀ main, Triple safe (holds (.opened main)) (storedCursor .retry) fun cursor =>
    holds (.reading main ⟨.new task.config.retryDelays, cursor⟩)
  pollRetry : ∀ main retry, Triple safe (holds (.reading main retry))
    (poll task.config.pollCount .retry retry.cursor) fun batch => holds (.fetched main retry batch)
  ended : ∀ main retry s, holds (.fetched main retry []) s → holds (.drained main retry) s
  noteRetry : ∀ main retry batch last, batch.getLast? = some last →
    Triple safe (holds (.fetched main retry batch)) (task.storeIn .noDoubleConsume .retry last.offset)
      fun _ => holds (.noted main retry batch)
  enqueue : ∀ main retry batch now nowMs s, batch ≠ [] → holds (.noted main retry batch) s →
    holds (.reading main (retry.drainPolled batch now nowMs)) s
  attempt : ∀ main retry started due finished, due.Perm (retry.state.dueKeys started) →
    Triple safe (holds (.drained main retry))
      ((runDueRuns task.handlers retry.state due finished).label fun e => .retry e.1 e.2)
      fun r => holds (.attempted main retry r.1 r.2)
  logRan : ∀ main retry state outcomes, Triple safe (holds (.attempted main retry state outcomes))
    (log (.ran outcomes)) fun _ => holds (.drained main { retry with state })
  commit : ∀ main retry offset, task.config.mode = .noEventLose → retry.committable = some offset →
    Triple safe (holds (.drained main retry)) (store .retry offset) fun _ => holds (.drained main retry)
  pollMain : ∀ main retry, Triple safe (holds (.drained main retry)) (poll task.config.pollCount .main main)
    fun batch => holds (.polled main retry batch)
  idle : ∀ main retry s, holds (.polled main retry []) s → holds (.reading main retry) s
  claim : ∀ main retry batch last, batch.getLast? = some last →
    Triple safe (holds (.polled main retry batch)) (task.storeIn .noDoubleConsume .main last.offset)
      fun _ => holds (.claimed main retry batch)
  execute : ∀ main retry batch, Triple safe (holds (.claimed main retry batch))
    (task.executeMain retry.state batch) fun reports => holds (.executed main retry batch reports)
  logDropped : ∀ main retry batch reports, Triple safe (holds (.executed main retry batch reports))
    (log (.backlogFull (task.writeMain retry.state batch reports).2)) fun _ =>
      holds (.writing main retry batch (task.writeMain retry.state batch reports).1)
  send : ∀ main retry batch entries, Triple safe (holds (.writing main retry batch entries))
    (task.sendRetry entries) fun _ => holds (.written main retry batch)
  storeMain : ∀ main retry batch last, batch.getLast? = some last →
    Triple safe (holds (.written main retry batch)) (task.storeIn .noEventLose .main last.offset)
      fun _ => holds (.reading ⟨some (last.offset + 1)⟩ retry)

namespace Outline

variable {task : PartitionTask I P O} {world : World (Moment I P O) (TaskEvent I P O)}
  (outline : Outline task world)

/-- An assertion at a point, about the loop. -/
abbrev loop (state : TaskState P) : Assertion world := outline.holds (.reading state.main state.retry)

theorem triple_drainRetry (main : Cursor) (retry : RetryTask P) :
    Triple outline.safe (outline.holds (.reading main retry)) (task.drainRetry retry).run
      (outcome outline.safe fun retry => outline.holds (.drained main retry)) := by
  refine Triple.tryLoop (fun retry => outline.holds (.reading main retry))
    (fun retry => outline.holds (.drained main retry)) (fun _ h => h) (fun _ => outline.safe_of _)
    (fun _ => outline.safe_of _) (fun retry => ?_) retry
  refine Triple.tryBind (fun _ h => h) (Triple.unlessDropped (outline.pollRetry main retry)) fun batch => ?_
  cases hlast : batch.getLast? with
  | none =>
    obtain rfl := List.getLast?_eq_none_iff.mp hlast
    refine Triple.tryPure fun s hs => ?_
    have hdrained := outline.ended main retry s hs
    exact ⟨outline.safe_of _ s hdrained, hdrained⟩
  | some last =>
    have hne : batch ≠ [] := by
      rintro rfl
      cases hlast
    have hnow : Triple outline.safe (outline.holds (.fetched main retry batch)) now fun _ =>
        outline.holds (.fetched main retry batch) :=
      Triple.choose (outline.safe_of _) fun _ _ _ hs => hs
    refine Triple.tryBind (fun _ h => h) (Triple.lift (fun _ => outline.safe_of _) hnow) fun instant => ?_
    refine Triple.tryBind (fun _ h => h) (Triple.lift (fun _ => outline.safe_of _) hnow) fun nowMs => ?_
    refine Triple.tryBind (fun _ h => h) (Triple.lift (fun _ => outline.safe_of _)
      (outline.noteRetry main retry batch last hlast)) fun _ => ?_
    refine Triple.tryPure fun s hs => ?_
    have hreading := outline.enqueue main retry batch instant nowMs s hne hs
    exact ⟨outline.safe_of _ s hreading, hreading⟩

theorem triple_runDueKeys (main : Cursor) (retry : RetryTask P) :
    Triple outline.safe (outline.holds (.drained main retry)) (task.runDueKeys retry.state)
      fun state => outline.holds (.drained main { retry with state }) := by
  refine Triple.chooseBind (outline.safe_of _) fun started _ => ?_
  refine Triple.chooseBind (outline.safe_of _) fun due hdue => ?_
  refine Triple.chooseBind (outline.safe_of _) fun finished _ => ?_
  refine Triple.bind (outline.attempt main retry started due finished hdue) fun r => ?_
  refine Triple.bind (outline.logRan main retry r.1 r.2) fun _ => ?_
  exact Triple.pure fun s hs => ⟨outline.safe_of _ s hs, hs⟩

theorem triple_commitRetry (state : TaskState P) :
    Triple outline.safe (outline.holds (.drained state.main state.retry)) (task.commitRetry state)
      fun state => outline.holds (.drained state.main state.retry) := by
  have hskip : Triple outline.safe (outline.holds (.drained state.main state.retry)) (pure state)
      fun state => outline.holds (.drained state.main state.retry) :=
    Triple.pure fun s hs => ⟨outline.safe_of _ s hs, hs⟩
  unfold PartitionTask.commitRetry
  split_ifs with hmode
  · cases hc : state.retry.committable with
    | none => exact hskip
    | some offset =>
      dsimp only
      split_ifs
      · refine Triple.bind (outline.commit state.main state.retry offset hmode hc) fun _ => ?_
        exact Triple.pure fun s hs => ⟨outline.safe_of _ s hs, hs⟩
      · exact hskip
  · exact hskip

theorem triple_processMain (main : Cursor) (retry : RetryTask P) (batch : List (PolledMessage I P)) :
    Triple outline.safe (outline.holds (.claimed main retry batch)) (task.processMain retry.state batch)
      fun _ => outline.holds (.written main retry batch) := by
  rw [PartitionTask.processMain_eq]
  refine Triple.bind (outline.execute main retry batch) fun reports => ?_
  exact Triple.bind (outline.logDropped main retry batch reports) fun _ => outline.send main retry batch _

theorem triple_round (state : TaskState P) : Triple outline.safe (outline.loop state) (task.round state).run
    (outcome outline.safe (Sum.elim outline.loop fun _ => outline.safe)) := by
  refine Triple.tryBind (fun _ h => h) (outline.triple_drainRetry state.main state.retry) fun retry => ?_
  refine Triple.tryBind (fun _ h => h) (Triple.lift (fun _ => outline.safe_of _)
    (outline.triple_runDueKeys state.main retry)) fun schedule => ?_
  refine Triple.tryBind (fun _ h => h) (Triple.lift (fun _ => outline.safe_of _)
    (outline.triple_commitRetry { state with retry := { retry with state := schedule } })) fun state => ?_
  refine Triple.tryBind (fun _ h => h)
    (Triple.unlessDropped (outline.pollMain state.main state.retry)) fun batch => ?_
  cases hlast : batch.getLast? with
  | none =>
    obtain rfl := List.getLast?_eq_none_iff.mp hlast
    have hsleep : Triple outline.safe (outline.holds (.polled state.main state.retry [])) sleep fun _ =>
        outline.holds (.polled state.main state.retry []) :=
      Triple.choose (outline.safe_of _) fun _ _ _ hs => hs
    refine Triple.tryBind (fun _ h => h) (Triple.unlessDropped hsleep) fun _ => ?_
    refine Triple.tryPure fun s hs => ?_
    have hreading := outline.idle state.main state.retry s hs
    exact ⟨outline.safe_of _ s hreading, hreading⟩
  | some last =>
    refine Triple.tryBind (fun _ h => h) (Triple.lift (fun _ => outline.safe_of _)
      (outline.claim state.main state.retry batch last hlast)) fun _ => ?_
    refine Triple.tryBind (fun _ h => h) (Triple.lift (fun _ => outline.safe_of _)
      (outline.triple_processMain state.main state.retry batch)) fun _ => ?_
    refine Triple.tryBind (fun _ h => h) (Triple.lift (fun _ => outline.safe_of _)
      (outline.storeMain state.main state.retry batch last hlast)) fun _ => ?_
    exact Triple.tryPure fun s hs => ⟨outline.safe_of _ s hs, hs⟩

/-- **A task that starts where it is safe** leaves what is safe, at every moment. -/
theorem triple_run : Triple outline.safe outline.safe task.run.run
    (outcome outline.safe fun _ => outline.safe) := by
  refine Triple.tryBind (fun _ h => h) (Triple.unlessDropped outline.openMain) fun main => ?_
  refine Triple.tryBind (fun _ h => h) (Triple.unlessDropped (outline.openRetry main)) fun cursor => ?_
  exact Triple.tryLoop outline.loop (fun _ => outline.safe) (fun _ h => h) (fun _ => outline.safe_of _)
    (fun _ _ h => h) outline.triple_round ⟨main, ⟨.new task.config.retryDelays, cursor⟩, none⟩

/-- What is safe holds in every life of the task. -/
theorem safe_of_lives {start s : Moment I P O} (hstart : outline.safe start)
    (h : Lives world task.run.run start s) : outline.safe s :=
  Lives.invariant outline.triple_run hstart h

end Outline

end Wakuwaku.Iggy.Consumer
