import Wakuwaku.Iggy.Consumer.Runtime.Followed
import Wakuwaku.Iggy.Consumer.Runtime.Outline

/-! # Quarantine

A record of the retry partition waits until it was in a completed run or its key gave up and dropped it.
The stored retry offset is before every record that waits, and once the partition is read to its end
they are all pending. So a key of a main batch that is not quarantined has no record that waits, and
handlers never get one of its events directly before (`quarantined`). -/

namespace Wakuwaku.Iggy.Consumer.Quarantine

open Wakuwaku.Iggy.Events Wakuwaku.Iggy.Partition World

variable {I : IggyHeaders} {P O : Type}

/-! ### Records that wait -/

/-- A record of the retry partition was in a completed run or was dropped when its key gave up. -/
def Gone (past : List (Server I P × TaskEvent I P O)) (offset : ℕ) : Prop :=
  ∃ server outcomes, (server, .ran outcomes) ∈ past ∧ ∃ outcome ∈ outcomes, offset ∈ outcome.gone

/-- A message of the retry partition holds a record, and is not gone. -/
structure Waits (retry : TopicPartition I P) (past : List (Server I P × TaskEvent I P O))
    (message : PolledMessage I P) (record : PendingRecord P) : Prop where
  mem : message ∈ retry.messages
  holds : retryRecord message = some record
  left : ¬ Gone past message.offset

/-- Whenever a handler got an event of a main batch, no record of its key waited. -/
def Quarantined (past : List (Server I P × TaskEvent I P O)) : Prop :=
  ∀ before server key call after, past = before ++ (server, .execute key call) :: after →
    ∀ message record, Waits server.retry before message record → record.record.headers.key ≠ key

section Past

variable {retry : TopicPartition I P} {past : List (Server I P × TaskEvent I P O)} {server : Server I P}
  {event : TaskEvent I P O} {message : PolledMessage I P} {record : PendingRecord P}

theorem Gone.snoc {offset : ℕ} (h : Gone past offset) : Gone (past ++ [(server, event)]) offset := by
  obtain ⟨server', outcomes, hmem, hgone⟩ := h
  exact ⟨server', outcomes, List.mem_append_left _ hmem, hgone⟩

theorem Waits.before (h : Waits retry (past ++ [(server, event)]) message record) :
    Waits retry past message record := ⟨h.mem, h.holds, fun hgone => h.left hgone.snoc⟩

theorem Quarantined.snoc (h : Quarantined past)
    (hevent : ∀ key call, event = .execute key call → ∀ message record,
      Waits server.retry past message record → record.record.headers.key ≠ key) :
    Quarantined (past ++ [(server, event)]) := by
  intro before server' key call after heq
  rcases List.eq_nil_or_concat after with rfl | ⟨init, last, rfl⟩
  · obtain ⟨rfl, hlast⟩ := List.append_inj' heq rfl
    obtain ⟨rfl, rfl⟩ := Prod.mk.inj (List.cons.inj hlast).1
    exact hevent key call rfl
  · rw [List.concat_eq_append, ← List.cons_append, ← List.append_assoc] at heq
    exact h before server' key call init (List.append_inj' heq rfl).1

end Past

/-! ### What holds at every moment -/

/-- What a crash leaves. -/
structure Safe (retry : TopicPartition I P) (past : List (Server I P × TaskEvent I P O)) : Prop where
  quarantined : Quarantined past
  /-- Nothing that waits is before the stored offset. -/
  stored : ∀ stored, retry.stored = some stored → ∀ message record, Waits retry past message record →
    stored < message.offset
  below : ∀ stored, retry.stored = some stored → stored < retry.next

/-- What a task knows of the retry partition: the records that wait and were read are pending. -/
structure Knows (task : RetryTask P) (retry : TopicPartition I P)
    (past : List (Server I P × TaskEvent I P O)) : Prop where
  safe : Safe retry past
  valid : task.state.Valid task.cursor.nextOrZero
  below : task.cursor.nextOrZero ≤ retry.next
  pending : ∀ message record, Waits retry past message record → message.offset < task.cursor.nextOrZero →
    record ∈ task.state.pendingRecords

/-- The task has read the retry partition to its end. -/
structure Drained (task : RetryTask P) (retry : TopicPartition I P)
    (past : List (Server I P × TaskEvent I P O)) : Prop where
  knows : Knows task retry past
  read : ∀ message ∈ retry.messages, message.offset < task.cursor.nextOrZero

/-- The task has polled a batch of the retry partition. -/
structure Fetched (task : RetryTask P) (batch : List (PolledMessage I P)) (retry : TopicPartition I P)
    (past : List (Server I P × TaskEvent I P O)) : Prop where
  knows : Knows task retry past
  read : batch <+: retry.rest task.cursor.nextOrZero
  ended : batch = [] → retry.rest task.cursor.nextOrZero = []

section Keep

variable {task : RetryTask P} {retry : TopicPartition I P} {past : List (Server I P × TaskEvent I P O)}
  {server : Server I P} {event : TaskEvent I P O}

/-- No record of a key that is not quarantined waits. -/
theorem Drained.key_ne (h : Drained task retry past) {key : UInt64}
    (hk : task.state.isQuarantined key = false) {message : PolledMessage I P} {record : PendingRecord P}
    (hw : Waits retry past message record) : record.record.headers.key ≠ key := by
  intro hkey
  have hpending := h.knows.pending message record hw (h.read message hw.mem)
  have hquarantined := h.knows.valid.isQuarantined_iff.mpr ⟨record, hpending, hkey⟩
  rw [hk] at hquarantined
  cases hquarantined

theorem Safe.snoc (h : Safe retry past) (hevent : ∀ key call, event ≠ .execute key call) :
    Safe retry (past ++ [(server, event)]) where
  quarantined := h.quarantined.snoc fun key call he => absurd he (hevent key call)
  stored stored hs message record hw := h.stored stored hs message record hw.before
  below := h.below

theorem Knows.snoc (h : Knows task retry past) (hevent : ∀ key call, event ≠ .execute key call) :
    Knows task retry (past ++ [(server, event)]) where
  safe := h.safe.snoc hevent
  valid := h.valid
  below := h.below
  pending message record hw := h.pending message record hw.before

theorem Drained.snoc (h : Drained task retry past) (hevent : ∀ key call, event ≠ .execute key call) :
    Drained task retry (past ++ [(server, event)]) :=
  ⟨h.knows.snoc hevent, h.read⟩

/-- A handler gets an event of a key that is not quarantined. -/
theorem Drained.execute (h : Drained task server.retry past) {key : UInt64} {call : Call O}
    (hk : task.state.isQuarantined key = false) :
    Drained task server.retry (past ++ [(server, .execute key call)]) where
  knows :=
    { safe :=
        { quarantined := h.knows.safe.quarantined.snoc fun key' call' he => by
            cases he
            exact fun message record hw => h.key_ne hk hw
          stored := fun stored hs message record hw => h.knows.safe.stored stored hs message record hw.before
          below := h.knows.safe.below }
      valid := h.knows.valid
      below := h.knows.below
      pending := fun message record hw => h.knows.pending message record hw.before }
  read := h.read

/-- A task follows the records that wait. -/
theorem Knows.follows (h : Knows task retry past) :
    Follows (fun message => Gone past message.offset) task retry :=
  ⟨h.valid, h.below, fun message hm record hr hleft => h.pending message record ⟨hm, hr, hleft⟩⟩

theorem Safe.of_follows (h : Safe retry past)
    (hf : Follows (fun message => Gone past message.offset) task retry) : Knows task retry past :=
  ⟨h, hf.valid, hf.below, fun message record hw => hf.pending message hw.mem record hw.holds hw.left⟩

/-- A batch of the retry partition was read. -/
theorem Knows.poll (h : Knows task retry past) {batch : List (PolledMessage I P)} (hne : batch ≠ [])
    (hbatch : batch <+: retry.rest task.cursor.nextOrZero) (now nowMs : ℕ) :
    Knows (task.drainPolled batch now nowMs) retry past :=
  h.safe.of_follows (h.follows.poll hne hbatch now nowMs)

/-- A round of attempts is over. -/
theorem Drained.ran (h : Drained task retry past) {state : RetryState P} {outcomes : List Outcome}
    {now : ℕ} {work : List ((UInt64 × List (ParsedRecord P)) × KeyReport P)}
    (hwork : (state, outcomes) = finishReports now work task.state) :
    Drained { task with state } retry (past ++ [(server, .ran outcomes)]) := by
  have hsafe : Safe retry (past ++ [(server, .ran outcomes)]) := h.knows.safe.snoc fun _ _ => nofun
  refine ⟨hsafe.of_follows (h.knows.follows.ran (fun _ hgone => hgone.snoc) hwork ?_), h.read⟩
  rintro message - record - key - outcome ho - hgone
  exact ⟨server, outcomes, List.mem_append_right _ (List.mem_singleton_self _), outcome, ho, hgone⟩

/-- The offset before the first pending record is before every record that waits. -/
theorem Knows.commit (h : Knows task retry past) {offset : ℕ} (hc : task.committable = some offset) :
    (∀ message record, Waits retry past message record → offset < message.offset) ∧
      offset < retry.next := by
  obtain ⟨hbefore, hnext⟩ := h.follows.commit hc
  exact ⟨fun message record hw => hbefore message hw.mem record hw.holds hw.left, hnext⟩

theorem Safe.append (h : Safe retry past) (batch : List (I.IggyMessage × P)) :
    Safe (retry.append batch) past where
  quarantined := h.quarantined
  stored stored hs message record hw := by
    rcases List.mem_append.mp hw.mem with hm | hm
    · exact h.stored stored hs message record ⟨hm, hw.holds, hw.left⟩
    · exact (h.below stored hs).trans_le (offset_numbered hm).1
  below stored hs := (h.below stored hs).trans_le (Nat.le_add_right _ _)

/-- The task has written to the retry partition. -/
theorem Knows.append (h : Knows task retry past) (batch : List (I.IggyMessage × P)) :
    Knows task (retry.append batch) past :=
  (h.safe.append batch).of_follows (h.follows.extends (retry.extends_append batch))

end Keep

/-! ### The loop -/

section Loop

variable {published : PolledMessage I P → Prop}

variable (published) in
/-- The server, with its past, where an empty poll of the retry partition means its end. -/
abbrev server : World (Moment I P O) (TaskEvent I P O) :=
  history published fun s => Server.EndReached s.1

variable (published) in
/-- An assertion about the retry partition and the past. -/
def about (p : TopicPartition I P → List (Server I P × TaskEvent I P O) → Prop) :
    Assertion (server (O := O) published) where
  holds s := p s.1.retry s.2
  stable := by
    rintro s s' hs ⟨⟨batch, -, hserver⟩, hpast⟩
    rw [hserver, hpast]
    exact hs

/-- What holds of the retry partition at each point. -/
def holdsAt : Point I P → TopicPartition I P → List (Server I P × TaskEvent I P O) → Prop
  | .opened _ => Safe
  | .reading _ retry | .writing _ retry _ _ | .written _ retry _ => Knows retry
  | .fetched _ retry batch | .noted _ retry batch => Fetched retry batch
  | .drained _ retry | .polled _ retry _ | .claimed _ retry _ | .executed _ retry _ _ => Drained retry
  | .attempted _ retry state outcomes => fun partition past => Drained retry partition past ∧
      ∃ now work, (state, outcomes) = finishReports now work retry.state

theorem safe_of_holdsAt : ∀ (point : Point I P) (s : Moment I P O),
    about published (holdsAt point) s → about published Safe s
  | .opened _, _, h => h
  | .reading .., _, h | .writing .., _, h | .written .., _, h => Knows.safe h
  | .fetched .., _, h | .noted .., _, h => h.knows.safe
  | .drained .., _, h | .polled .., _, h | .claimed .., _, h | .executed .., _, h => h.knows.safe
  | .attempted .., _, h => h.1.knows.safe

/-- A request that changes nothing here if it fails. -/
theorem triple_keep {α : Type} {event : Option (Except I.IggyError α) → TaskEvent I P O}
    {point : Point I P} {next : α → Point I P}
    (hok : ∀ (s : Moment I P O) a s', holdsAt point s.1.retry s.2 →
      Server.Step s.1 (event (some (.ok a))) s' → Server.EndReached s.1 (event (some (.ok a))) s' →
        holdsAt (next a) s'.retry (s.2 ++ [(s.1, event (some (.ok a)))]))
    (hkeep : ∀ (s : Moment I P O) r s', holdsAt point s.1.retry s.2 → Server.Step s.1 (event r) s' →
      holdsAt point s'.retry (s.2 ++ [(s.1, event r)])) :
    Triple (about published Safe) (about published (holdsAt point)) (Async.untilOk (Async.call event))
      fun a => about published (holdsAt (next a)) := by
  refine triple_request (safe_of_holdsAt _) (fun _ => safe_of_holdsAt _) hok ?_ ?_
  · exact fun s e s' hs hstep _ => hkeep s _ s' hs hstep
  · exact fun s s' hs hstep _ => safe_of_holdsAt point _ (hkeep s _ s' hs hstep)

variable {task : PartitionTask I P O} {retry : RetryTask P} {main : Cursor}

/-- An offset is read. -/
theorem triple_storedCursor (topic : Topic) :
    Triple (about published Safe) (about published Safe) (storedCursor topic) fun cursor =>
      about (I := I) (P := P) (O := O) published fun partition past =>
      Safe partition past ∧ (topic = .retry → cursor = ⟨partition.stored.map (· + 1)⟩) := by
  refine Triple.bind (q := fun stored => about published fun partition past =>
    Safe partition past ∧ (topic = .retry → stored = partition.stored)) ?_ fun stored => ?_
  · refine triple_request (fun _ h => h) (fun _ _ h => h.1) ?_ ?_ ?_
    · intro s a s' hs hstep _
      cases hstep with
      | storedOffset h => exact ⟨Safe.snoc hs fun _ _ => nofun, fun ht => by rw [h a rfl, ht]; rfl⟩
    · intro s e s' hs hstep _
      cases hstep
      exact Safe.snoc hs fun _ _ => nofun
    · intro s s' hs hstep _
      cases hstep
      exact Safe.snoc hs fun _ _ => nofun
  · exact Triple.pure fun s hs => ⟨hs.1, hs.1, fun ht => by rw [hs.2 ht]⟩

/-- Nothing is known to be pending when a task starts. -/
theorem Safe.knows {partition : TopicPartition I P} {past : List (Server I P × TaskEvent I P O)}
    (h : Safe partition past) (delays : List ℕ) :
    Knows ⟨.new delays, ⟨partition.stored.map (· + 1)⟩⟩ partition past := by
  cases hstored : partition.stored with
  | none => exact h.of_follows (.start delays (Nat.zero_le _) fun _ _ hlt => absurd hlt (Nat.not_lt_zero _))
  | some stored =>
    refine h.of_follows (.start delays (h.below stored hstored) fun message hm hlt record hr => ?_)
    by_contra hleft
    have hafter := h.stored stored hstored message record ⟨hm, hr, hleft⟩
    exact absurd (Nat.lt_succ_iff.mp hlt) (Nat.not_le_of_lt hafter)

theorem triple_poll_retry (count : ℕ) : Triple (about published Safe)
    (about published (holdsAt (O := O) (.reading main retry))) (poll count .retry retry.cursor)
      fun batch => about published (holdsAt (.fetched main retry batch)) := by
  refine triple_keep ?_ ?_
  · intro s a s' hs hstep hend
    cases hstep with
    | poll h =>
      refine ⟨Knows.snoc hs fun _ _ => nofun, (h a rfl).1, ?_⟩
      rintro rfl
      exact hend _ _ rfl
  · intro s r s' hs hstep
    cases hstep
    exact Knows.snoc hs fun _ _ => nofun

theorem triple_poll_main (count : ℕ) (cursor : Cursor) : Triple (about published Safe)
    (about published (holdsAt (O := O) (.drained main retry))) (poll count .main cursor)
      fun batch => about published (holdsAt (.polled main retry batch)) := by
  refine triple_keep ?_ ?_
  · intro s a s' hs hstep _
    cases hstep
    exact Drained.snoc hs fun _ _ => nofun
  · intro s r s' hs hstep
    cases hstep
    exact Drained.snoc hs fun _ _ => nofun

theorem triple_store_main (offset : ℕ) {batch : List (PolledMessage I P)} {next : Cursor} :
    Triple (about published Safe) (about published (holdsAt (O := O) (.written main retry batch)))
      (store .main offset) fun _ => about published (holdsAt (.reading next retry)) := by
  refine triple_keep ?_ ?_
  · intro s a s' hs hstep _
    cases hstep <;> exact Knows.snoc hs fun _ _ => nofun
  · intro s r s' hs hstep
    cases hstep <;> exact Knows.snoc hs fun _ _ => nofun

/-- The stored offset moves up to the first record that is pending. -/
theorem triple_store_retry {offset : ℕ} (hc : retry.committable = some offset) :
    Triple (about published Safe) (about published (holdsAt (O := O) (.drained main retry)))
      (store .retry offset) fun _ => about published (holdsAt (.drained main retry)) := by
  have hstep : ∀ (s : Moment I P O) r s', Drained retry s.1.retry s.2 →
      Server.Step s.1 (.store .retry offset r : TaskEvent I P O) s' →
        Drained retry s'.retry (s.2 ++ [(s.1, .store .retry offset r)]) := by
    intro s r s' hs hstep
    cases hstep with
    | stored =>
      obtain ⟨hbefore, hnext⟩ := hs.knows.commit hc
      have hkeep := @Drained.snoc _ _ _ _ _ _ s.1 (.store .retry offset r) hs fun _ _ => nofun
      refine ⟨⟨⟨hkeep.knows.safe.quarantined, ?_, ?_⟩, hkeep.knows.valid, hkeep.knows.below,
        fun message record hw => hkeep.knows.pending message record ⟨hw.mem, hw.holds, hw.left⟩⟩, hkeep.read⟩
      · rintro stored ⟨⟩ message record hw
        exact hbefore message record ⟨hw.before.mem, hw.holds, hw.before.left⟩
      · rintro stored ⟨⟩
        exact hnext
    | notStored => exact hs.snoc fun _ _ => nofun
  exact triple_keep (fun s a s' hs hst _ => hstep s _ s' hs hst) hstep

/-- The attempts on the due keys. -/
theorem triple_attempt (due : List UInt64) (finished : ℕ) : Triple (about published Safe)
    (about published (holdsAt (O := O) (.drained main retry)))
      ((runDueRuns task.handlers retry.state due finished).label fun e => .retry e.1 e.2)
        fun r => about published (holdsAt (.attempted main retry r.1 r.2)) := by
  refine Triple.of_all (fun e => ∃ run call, e = .retry run call)
    (Async.all_label fun e => ⟨e.1, e.2, rfl⟩) (safe_of_holdsAt _) ?_ ?_
  · rintro s - ⟨s', past⟩ hs ⟨run, call, rfl⟩ ⟨⟨hstep, rfl⟩, -⟩
    cases hstep
    exact Drained.snoc hs fun _ _ => nofun
  · rintro t r ⟨u, hu, -⟩ s hs
    exact ⟨hs, finished, exists_work hu⟩

/-- Entries are written to the retry partition. -/
theorem triple_sendRetry {batch : List (PolledMessage I P)} (entries : List (RetryEntry P)) :
    Triple (about published Safe) (about published (holdsAt (O := O) (.writing main retry batch entries)))
      (task.sendRetry entries) fun _ => about published (holdsAt (.written main retry batch)) := by
  refine Triple.chooseBind (safe_of_holdsAt _) fun nowMs _ => ?_
  dsimp only
  split_ifs
  · exact Triple.pure fun s hs => ⟨safe_of_holdsAt _ s hs, hs⟩
  · refine triple_keep ?_ ?_
    · intro s a s' hs hstep _
      cases hstep with
      | sent => exact (Knows.append hs _).snoc fun _ _ => nofun
      | notSent => exact Knows.snoc hs fun _ _ => nofun
    · intro s r s' hs hstep
      cases hstep with
      | sent => exact (Knows.append hs _).snoc fun _ _ => nofun
      | notSent => exact Knows.snoc hs fun _ _ => nofun

/-- **Only keys that are not quarantined are executed.** -/
theorem triple_executeMain (batch : List (PolledMessage I P)) : Triple (about published Safe)
    (about published (holdsAt (O := O) (.claimed main retry batch))) (task.executeMain retry.state batch)
      fun reports => about published (holdsAt (.executed main retry batch reports)) := by
  refine Triple.of_all (fun e => ∃ key call, e = .execute key call ∧
    retry.state.isQuarantined key = false) ?_ (safe_of_holdsAt _) ?_ fun _ _ _ s hs => hs
  · refine Async.all_joinAll fun m hm => ?_
    obtain ⟨key, hkey, rfl⟩ := List.mem_map.mp hm
    have hk := (List.mem_filter.mp hkey).2
    exact Async.all_label fun call => ⟨key.key, call, rfl, by simpa using hk⟩
  · rintro s - ⟨s', past⟩ hs ⟨key, call, rfl, hk⟩ ⟨⟨hstep, rfl⟩, -⟩
    cases hstep
    exact Drained.execute hs hk

/-- What a task that loses no event keeps of the retry partition. -/
def outline (hmode : task.config.mode = .noEventLose) : Outline task (server published) where
  safe := about published Safe
  holds point := about published (holdsAt point)
  safe_of := safe_of_holdsAt
  openMain := (triple_storedCursor .main).imp (fun _ h => h) fun _ _ h => h.1
  openRetry _ := (triple_storedCursor .retry).imp (fun _ h => h) fun cursor s hs => by
    rw [hs.2 rfl]
    exact hs.1.knows _
  pollRetry _ _ := triple_poll_retry _
  ended main retry s hs := by
    refine ⟨hs.knows, fun message hm => ?_⟩
    by_contra hge
    have hmem := TopicPartition.mem_rest.mpr ⟨hm, Nat.le_of_not_lt hge⟩
    rw [hs.ended rfl] at hmem
    cases hmem
  noteRetry main retry batch last _ := by
    rw [task.storeIn_of_ne (hmode ▸ nofun)]
    exact Triple.pure fun s hs => ⟨safe_of_holdsAt (.noted main retry batch) s hs, hs⟩
  enqueue _ _ _ now nowMs _ hne hs := hs.knows.poll hne hs.read now nowMs
  attempt _ _ _ due finished _ := triple_attempt due finished
  logRan _ _ _ _ := by
    refine triple_log (safe_of_holdsAt _) (safe_of_holdsAt _) ?_
    rintro s s' ⟨hs, now, work, hwork⟩ hstep
    cases hstep
    exact hs.ran hwork
  commit _ _ _ _ hc := triple_store_retry hc
  pollMain main _ := triple_poll_main _ main
  idle _ _ _ hs := hs.knows
  claim main retry batch last _ := by
    rw [task.storeIn_of_ne (hmode ▸ nofun)]
    exact Triple.pure fun s hs => ⟨safe_of_holdsAt (.claimed main retry batch) s hs, hs⟩
  execute _ _ batch := triple_executeMain batch
  logDropped _ _ _ _ := by
    refine triple_log (safe_of_holdsAt _) (safe_of_holdsAt _) ?_
    intro s s' hs hstep
    cases hstep
    exact Knows.snoc hs.knows fun _ _ => nofun
  send _ _ _ entries := triple_sendRetry entries
  storeMain _ _ _ last _ := by
    rw [task.storeIn_of_eq hmode]
    exact triple_store_main last.offset

end Loop

/-- **A key is not executed while one of its records waits.** In every run of a task that loses no
event, whatever producers, handlers and requests do, however often the task crashes and starts again:
when a handler gets an event of a key of a main batch, every record of the key in the retry partition
was in a completed run or dropped when the key gave up. -/
theorem quarantined (task : PartitionTask I P O) (hmode : task.config.mode = .noEventLose)
    (published : PolledMessage I P → Prop) (start : Server I P) (hstart : start.retry.stored = none)
    (s : Moment I P O) (h : Lives (server published) task.run.run start.opening s)
    (before : List (Server I P × TaskEvent I P O)) (found : Server I P) (key : UInt64) (call : Call O)
    (after : List (Server I P × TaskEvent I P O))
    (hpast : s.2 = before ++ (found, .execute key call) :: after) (message : PolledMessage I P)
    (hmessage : message ∈ found.retry.messages) (record : PendingRecord P)
    (hrecord : retryRecord message = some record) (hkey : record.record.headers.key = key) :
    Gone before message.offset := by
  have hopening : about (O := O) published Safe start.opening := by
    refine ⟨fun before server key call after heq => ?_, fun stored hs => ?_, fun stored hs => ?_⟩
    · have hlen := congrArg List.length heq
      simp [Server.opening] at hlen
    · exact absurd (hs.symm.trans hstart) (by simp)
    · exact absurd (hs.symm.trans hstart) (by simp)
  have hsafe := (outline hmode).safe_of_lives hopening h
  by_contra hleft
  exact hsafe.quarantined before found key call after hpast message record ⟨hmessage, hrecord, hleft⟩ hkey

/-! ### A record that is resolved first -/

/-- A record of key 7. -/
def recordOf (tag : EventTypeTag) : ParsedRecord ℕ := ⟨0, ⟨tag, 7, ⟨.relaxed, .nonAssociative⟩⟩, 0⟩

/-- A partition with one message that holds the record. -/
def partitionOf (tag : EventTypeTag) (retry : Option RetryProperties) : TopicPartition rawHeaders ℕ where
  messages := [⟨0, ((recordOf tag).headers.toMap rawHeaders retry).toOption.getD fun _ => none, 0⟩]
  next := 1
  stored := none
  sorted := List.pairwise_singleton _ _
  below := by simp

/-- A main record waits, and a retry record whose tag has no handler. -/
def waiting : Server rawHeaders ℕ := ⟨partitionOf ⟨1⟩ none, partitionOf ⟨2⟩ (some ⟨3⟩)⟩

def waitingTask : PartitionTask rawHeaders ℕ ℕ where
  handlers := .new (Registered.plain ⟨1⟩ (.nonAssociative : Marker ℕ))
  config := ⟨.noEventLose, [2000000000], List.cons_ne_nil _ _, 100, by decide, 10⟩
  build _ headers := .ok headers

/-- The retry record was read. -/
def waitingRetry : RetryTask ℕ :=
  RetryTask.drainPolled ⟨.new [2000000000], ⟨none⟩⟩ waiting.retry.messages 0 4

/-- The retry record is resolved. -/
def resolvedRetry : RetryTask ℕ :=
  { waitingRetry with
    state := (finishReport waitingRetry.state 7 [recordOf ⟨2⟩] ⟨[0], none⟩ 2000000000).1 }

/-- The retry record is resolved before the main record is polled. -/
def resolvedPast : List (Server rawHeaders ℕ × TaskEvent rawHeaders ℕ ℕ) :=
  [(waiting, .storedOffset .main (some (.ok none))), (waiting, .storedOffset .retry (some (.ok none))),
    (waiting, .poll .retry ⟨none⟩ 100 (some (.ok waiting.retry.messages))),
    (waiting, .poll .retry ⟨some 1⟩ 100 (some (.ok []))), (waiting, .ran [⟨7, [0], [], .drained⟩]),
    (waiting, .store .retry 0 (some (.ok ()))),
    (waiting.put .retry 0, .poll .main ⟨none⟩ 100 (some (.ok waiting.main.messages)))]

section Resolved

variable {past : List (Server rawHeaders ℕ × TaskEvent rawHeaders ℕ ℕ)}

theorem reaches_drainRetry : Reaches (server fun _ => True)
    (waitingTask.drainRetry ⟨.new [2000000000], ⟨none⟩⟩).run (waiting, past) (.ok waitingRetry)
      (waiting, past ++ [(waiting, .poll .retry ⟨none⟩ 100 (some (.ok waiting.retry.messages)))] ++
        [(waiting, .poll .retry ⟨some 1⟩ 100 (some (.ok [])))]) := by
  have hread : Reaches (server fun _ => True) (waitingTask.drainRound ⟨.new [2000000000], ⟨none⟩⟩).run
      (waiting, past) (.ok (.inl waitingRetry))
        (waiting, past ++ [(waiting, .poll .retry ⟨none⟩ 100 (some (.ok waiting.retry.messages)))]) := by
    refine Reaches.tryBind
      (Reaches.unlessDropped (reaches_request waiting.retry.messages (.poll ?_) nofun)) ?_
    · rintro batch ⟨⟩
      exact ⟨⟨[], rfl⟩, by decide⟩
    · refine Reaches.tryBind (Reaches.lift (Reaches.choose (a := 0) trivial)) ?_
      refine Reaches.tryBind (Reaches.lift (Reaches.choose (a := 4) trivial)) ?_
      exact Reaches.tryBind (Reaches.lift Reaches.pure) Reaches.pure
  refine Reaches.tryAgain hread (Reaches.tryLoop ?_)
  refine Reaches.tryBind (Reaches.unlessDropped (reaches_request [] (.poll ?_) ?_)) Reaches.pure
  · rintro batch ⟨⟩
    exact ⟨List.nil_prefix, Nat.zero_le _⟩
  · rintro cursor count ⟨⟩
    rfl

theorem reaches_resolved : Reaches (server fun _ => True) (waitingTask.runDueKeys waitingRetry.state)
    (waiting, past) resolvedRetry.state (waiting, past ++ [(waiting, .ran [⟨7, [0], [], .drained⟩])]) := by
  have hrun : attemptRuns waitingTask.handlers [recordOf ⟨2⟩] [] (some ⟨[0], none⟩) := by
    refine executeKeyWith_done ⟨none, ⟨0, 1⟩, none⟩ ⟨⟨2⟩, ⟨0, 1⟩⟩ (by decide) (by decide) (by decide)
      (by decide) ⟨[], ?_, rfl⟩
    exact Async.pure_iff.mpr ⟨rfl, rfl⟩
  have hdue : [7].Perm (waitingRetry.state.dueKeys 2000000000) := .refl _
  refine reaches_runDueKeys 2000000000 2000000000 hdue
    (r := finishReports 2000000000 [((7, [recordOf ⟨2⟩]), ⟨[0], none⟩)] waitingRetry.state)
    ⟨[], ⟨[], ?_, rfl⟩, .nil⟩ nofun
  refine Async.bind_iff.mpr ⟨[⟨[0], none⟩], [], [], ?_, Async.pure_iff.mpr ⟨rfl, rfl⟩, rfl⟩
  exact Async.joinAll_cons_iff.mpr ⟨[], [], _, [], hrun, Async.joinAll_nil_iff.mpr ⟨rfl, rfl⟩, .nil, rfl⟩

theorem cuts_processMain {found : Server rawHeaders ℕ} : Cuts (server fun _ => True)
    (waitingTask.processMain resolvedRetry.state waiting.main.messages) (found, past)
      (found, past ++ [(found, .execute 7 ⟨⟨1⟩, [0], none⟩)]) := by
  have hcall : executeKey waitingTask.handlers (Plan.new (planRecords [recordOf ⟨1⟩])) ⟨7, ⟨0, 1⟩⟩
      [recordOf ⟨1⟩] [⟨⟨1⟩, [0], none⟩] none := by
    refine executeKeyWith_cut ⟨none, ⟨0, 1⟩, none⟩ ⟨⟨1⟩, ⟨0, 1⟩⟩ (by decide) (by decide) (by decide) ?_
    exact .stop (Or.inl ⟨.stop (Or.inl ⟨Or.inl ⟨rfl, Or.inr rfl⟩, rfl⟩), rfl⟩)
  have hkeys : ((Plan.new (planRecords [recordOf ⟨1⟩])).keys.filter fun key =>
      !resolvedRetry.state.isQuarantined key.key) = [⟨7, ⟨0, 1⟩⟩] := by decide
  have hparse : parseMain waiting.main.messages = [recordOf ⟨1⟩] := rfl
  refine Cuts.bind ⟨[.execute 7 ⟨⟨1⟩, [0], none⟩], ?_, Runs.step .nil ⟨⟨.execute, rfl⟩, nofun⟩⟩
  rw [hparse, hkeys]
  exact ⟨_, [], none, some [], ⟨_, hcall, rfl⟩, Async.joinAll_nil_iff.mpr ⟨rfl, rfl⟩, .nil_right _, rfl⟩

theorem cuts_run : Cuts (server fun _ => True) waitingTask.run.run waiting.opening
    (waiting.put .retry 0, resolvedPast ++ [(waiting.put .retry 0, .execute 7 ⟨⟨1⟩, [0], none⟩)]) := by
  have hcursor : ∀ topic past, Reaches (server fun _ => True) (storedCursor topic) (waiting, past) ⟨none⟩
      (waiting, past ++ [(waiting, .storedOffset (P := ℕ) (O := ℕ) topic (some (.ok none)))]) := by
    intro topic past
    refine Reaches.bind (reaches_request none (.storedOffset ?_) nofun) Reaches.pure
    rintro stored ⟨⟩
    cases topic <;> rfl
  refine Reaches.tryCut (Reaches.unlessDropped (hcursor .main [])) ?_
  refine Reaches.tryCut (Reaches.unlessDropped (hcursor .retry _)) (Cuts.tryLoop ?_)
  refine Reaches.tryCut reaches_drainRetry ?_
  refine Reaches.tryCut (Reaches.lift reaches_resolved) ?_
  refine Reaches.tryCut (a := ⟨⟨none⟩, resolvedRetry, some 0⟩)
    (Reaches.lift (Reaches.bind (reaches_request () .stored nofun) Reaches.pure)) ?_
  refine Reaches.tryCut
    (Reaches.unlessDropped (reaches_request waiting.main.messages (.poll ?_) nofun)) ?_
  · rintro batch ⟨⟩
    exact ⟨⟨[], rfl⟩, by decide⟩
  · exact Reaches.tryCut (Reaches.lift Reaches.pure) (Cuts.bind (Cuts.bind cuts_processMain))

end Resolved

theorem quarantined_waiting : ∃ s before found call after,
    Lives (server fun _ => True) waitingTask.run.run waiting.opening s ∧
      s.2 = before ++ (found, .execute 7 call) :: after ∧ Gone before 0 := by
  have hlife := Lives.start.cut cuts_run
  refine ⟨_, resolvedPast, waiting.put .retry 0, ⟨⟨1⟩, [0], none⟩, [], hlife, rfl, ?_⟩
  exact quarantined waitingTask rfl _ waiting rfl _ hlife resolvedPast _ 7 _ [] rfl _
    (List.mem_singleton_self _) ⟨recordOf ⟨2⟩, 3⟩ rfl rfl

end Wakuwaku.Iggy.Consumer.Quarantine
