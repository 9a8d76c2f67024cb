import Wakuwaku.Iggy.Consumer.Runtime.Followed
import Wakuwaku.Iggy.Consumer.Runtime.Untaken

/-! # What becomes of the main records

What a task that stores its main offset last knows of the records of its main partition. A record that a
handler takes, and that can be written again, is accounted for once its batch is done: it is over, it was
dropped since the retry backlog was full, or a message of the retry partition stands for it. A message of
the retry partition is done with once its key gave up on it or its records are over, and the stored
offset of the partition passes no other. What can be written again is said of the reduced event, which is
the record's own where a type is not reduced (`recoverable_of_unreduced`). -/

namespace Wakuwaku.Iggy.Consumer.NothingLost

open Wakuwaku.Iggy.Events Wakuwaku.Iggy.Partition World
open AtMostOnce (firstOf payload_of_retryRecord)

variable {I : IggyHeaders} {P O : Type}

/-! ### Records that are not lost -/

/-- A retry attempt gave up on the record at an offset of the retry partition. -/
def GivenUp (events : List (TaskEvent I P O)) (offset : ℕ) : Prop :=
  ∃ outcomes, .ran outcomes ∈ events ∧
    ∃ outcome ∈ outcomes, outcome.finish.isGaveUp = true ∧ offset ∈ outcome.failed

/-- A record was dropped since the retry backlog was full. -/
def Overflowed (events : List (TaskEvent I (Traced P) O)) (a : ℕ) : Prop :=
  ∃ failed, .backlogFull failed ∈ events ∧ ∃ entry ∈ failed, a ∈ entry.payload.2

/-- A handler takes what a message of the retry partition holds. -/
def Readable (handlers : HandlerList P O) (message : PolledMessage I (Traced P)) : Prop :=
  ∃ record, retryRecord message = some record ∧
    Accepted handlers record.record.headers record.record.payload.1

/-- The retry attempts are done with a message. -/
def Ended (events : List (TaskEvent I (Traced P) (Traced O))) (message : PolledMessage I (Traced P)) :
    Prop :=
  GivenUp events message.offset ∨
    ∀ a ∈ message.payload.2, Served (events.filterMap TaskEvent.call) a

/-- A main record is over, or a message of the retry partition stands for it. -/
def Accounted (handlers : HandlerList P O) (retry : TopicPartition I (Traced P))
    (events : List (TaskEvent I (Traced P) (Traced O))) (a : ℕ) : Prop :=
  Served (events.filterMap TaskEvent.call) a ∨ Overflowed events a ∨
    ∃ message ∈ retry.messages, Readable handlers message ∧ a ∈ message.payload.2

/-- A retry message of the payload can be built. -/
def Sendable (task : PartitionTask I P O) (payload : P) : Prop :=
  ∀ (headers : EventHeaders) retry map, headers.toMap I (some retry) = .ok map →
    ∃ message, task.build payload map = .ok message

/-- A handler takes the record of a message of the main partition, and it can be written again. -/
def Recoverable (task : PartitionTask I P O) (marking : task.handlers.Marking)
    (main : TopicPartition I (Traced P)) (message : PolledMessage I (Traced P)) : Prop :=
  ∃ record, mainRecord message = some record ∧ Accepted task.handlers record.headers record.payload.1 ∧
    Recovers task.handlers marking (Sendable task) (parseMain main.messages) record

section Grow

variable {events events' : List (TaskEvent I (Traced P) (Traced O))} {handlers : HandlerList P O}
  {retry retry' : TopicPartition I (Traced P)}

theorem served_of_subset {t t' : List (Call (Traced O))} {a : ℕ} (h : Served t a) (hsub : t ⊆ t') :
    Served t' a := by
  obtain ⟨c, hc, hserved⟩ := h
  exact ⟨c, hsub hc, hserved⟩

theorem Ended.grow {message : PolledMessage I (Traced P)} (h : Ended events message)
    (hsub : events ⊆ events') : Ended events' message := by
  refine h.imp ?_ fun hserved a ha => served_of_subset (hserved a ha) (List.filterMap_subset _ hsub)
  rintro ⟨outcomes, hmem, hall⟩
  exact ⟨outcomes, hsub hmem, hall⟩

theorem Accounted.grow {a : ℕ} (h : Accounted handlers retry events a) (hretry : retry.Extends retry')
    (hsub : events ⊆ events') : Accounted handlers retry' events' a := by
  refine h.imp (fun hserved => served_of_subset hserved (List.filterMap_subset _ hsub)) (Or.imp ?_ ?_)
  · rintro ⟨failed, hmem, hall⟩
    exact ⟨failed, hsub hmem, hall⟩
  · rintro ⟨message, hm, hall⟩
    exact ⟨message, hretry.subset hm, hall⟩

/-- In a longer log fewer records are known to be recoverable. -/
theorem Recoverable.of_extends {task : PartitionTask I P O} {marking : task.handlers.Marking}
    {main main' : TopicPartition I (Traced P)} {message : PolledMessage I (Traced P)}
    (h : Recoverable task marking main' message) (hmain : main.Extends main') :
    Recoverable task marking main message := by
  obtain ⟨record, hrecord, hacc, hrec⟩ := h
  refine ⟨record, hrecord, hacc, hrec.mono ?_⟩
  obtain ⟨more, hmore, -⟩ := hmain.messages
  rw [hmore, parseMain_eq, parseMain_eq, List.filterMap_append]
  exact List.sublist_append_left _ _

end Grow

/-- **A record of a type that is not reduced** can be written again as soon as its own event can be. -/
theorem recoverable_of_unreduced {task : PartitionTask I P O} {marking : task.handlers.Marking}
    {main : TopicPartition I (Traced P)} (hown : ∀ m ∈ main.messages, Own m)
    {message : PolledMessage I (Traced P)} (hm : message ∈ main.messages)
    {record : ParsedRecord (Traced P)} (hrecord : mainRecord message = some record)
    {marked : (h : Registered P O) × Marked h}
    (hmarked : task.handlers.findMarked record.headers.tag marking = some marked)
    (hreduce : ∀ run, (marked.2.marker.traced marked.2.sort).reduce run = run) {event : marked.1.Target}
    (hevent : marked.1.decodeOne ⟨record.payload.1, record.headers.properties.associativity⟩ = some event)
    {payload : P} (hbytes : marked.1.toBytes event = .ok payload)
    (hdecodes : (marked.1.fromBytes payload).toOption.isSome) (hsend : Sendable task payload) :
    Recoverable task marking main message := by
  refine ⟨record, hrecord, ⟨marked.1, ?_, hevent ▸ rfl⟩, ?_⟩
  · rw [HandlerList.find_eq task.handlers marking, hmarked]
    rfl
  · intro marked' hmarked' run hrun _ e he a ha hae
    obtain rfl := Option.some.inj (hmarked.symm.trans hmarked')
    rw [hreduce] at he
    obtain ⟨_, hmem, he⟩ := List.mem_filterMap.mp he
    obtain ⟨r, hr, rfl⟩ := List.mem_map.mp hmem
    obtain ⟨event', hevent', rfl⟩ := Option.map_eq_some_iff.mp he
    -- only the record itself stands for its offset
    have hmain : record ∈ parseMain main.messages := List.mem_filterMap.mpr ⟨message, hm, hrecord⟩
    obtain rfl := record_unique (nodup_parseMain hown main.sorted) (hrun.subset hr) hmain hae ha
    obtain rfl := Option.some.inj (hevent.symm.trans hevent')
    exact ⟨payload, hbytes, hdecodes, hsend⟩

/-! ### What holds at every moment -/

section Holds

variable (task : PartitionTask I P O) (marking : task.handlers.Marking)

/-- The records of the main partition before an offset are accounted for. -/
structure Through (server : Server I (Traced P)) (events : List (TaskEvent I (Traced P) (Traced O)))
    (first : ℕ) : Prop where
  below : first ≤ server.main.next
  accounted : ∀ m ∈ server.main.messages, m.offset < first → Recoverable task marking server.main m →
    Accounted task.handlers server.retry events m.offset

/-- What a crash leaves. -/
structure Safe (server : Server I (Traced P)) (events : List (TaskEvent I (Traced P) (Traced O))) :
    Prop where
  own : ∀ m ∈ server.main.messages, Own m
  main : Through task marking server events (firstOf server.main)
  /-- The stored offset of the retry partition passes only messages that are done with. -/
  retry : ∀ m ∈ server.retry.messages, m.offset < firstOf server.retry → Readable task.handlers m →
    Ended events m
  below : firstOf server.retry ≤ server.retry.next

/-- The messages of the retry partition that were read are pending or done with. -/
structure Knows (main : Cursor) (schedule : RetryTask (Traced P)) (server : Server I (Traced P))
    (events : List (TaskEvent I (Traced P) (Traced O))) : Prop where
  safe : Safe task marking server events
  read : Through task marking server events main.nextOrZero
  follows : Follows (fun m => Readable task.handlers m → Ended events m) schedule server.retry

/-- The records of a batch are accounted for, but for those that entries stand for. -/
def Left (batch : List (PolledMessage I (Traced P))) (entries : List (RetryEntry (Traced P)))
    (server : Server I (Traced P)) (events : List (TaskEvent I (Traced P) (Traced O))) : Prop :=
  ∀ m ∈ batch, Recoverable task marking server.main m →
    Accounted task.handlers server.retry events m.offset ∨
      ∃ entry ∈ entries, Represents task.handlers (Sendable task) m.offset entry

end Holds

/-- The partitions have grown, and more was done. -/
structure Grows (server : Server I (Traced P)) (events : List (TaskEvent I (Traced P) (Traced O)))
    (server' : Server I (Traced P)) (events' : List (TaskEvent I (Traced P) (Traced O))) : Prop where
  own : (∀ m ∈ server.main.messages, Own m) → ∀ m ∈ server'.main.messages, Own m
  main : server.main.Extends server'.main
  retry : server.retry.Extends server'.retry
  events : events ⊆ events'

section Step

variable {task : PartitionTask I P O} {marking : task.handlers.Marking} {main : Cursor}
  {schedule : RetryTask (Traced P)} {batch : List (PolledMessage I (Traced P))}
  {entries : List (RetryEntry (Traced P))} {server server' : Server I (Traced P)}
  {events events' : List (TaskEvent I (Traced P) (Traced O))} {first : ℕ}

theorem firstOf_of_extends {partition partition' : TopicPartition I P} (h : partition.Extends partition') :
    firstOf partition' = firstOf partition := by
  unfold firstOf
  rw [h.stored]

theorem Through.grow (h : Through task marking server events first) (hg : Grows server events server' events') :
    Through task marking server' events' first where
  below := h.below.trans hg.main.next
  accounted m hm hlt hrec :=
    (h.accounted m (hg.main.mem hm (hlt.trans_le h.below)) hlt (hrec.of_extends hg.main)).grow hg.retry hg.events

theorem Safe.grow (h : Safe task marking server events) (hg : Grows server events server' events') :
    Safe task marking server' events' where
  own := hg.own h.own
  main := by
    rw [firstOf_of_extends hg.main]
    exact h.main.grow hg
  retry m hm hlt hread := by
    rw [firstOf_of_extends hg.retry] at hlt
    exact (h.retry m (hg.retry.mem hm (hlt.trans_le h.below)) hlt hread).grow hg.events
  below := by
    rw [firstOf_of_extends hg.retry]
    exact h.below.trans hg.retry.next

theorem Knows.grow (h : Knows task marking main schedule server events)
    (hg : Grows server events server' events') : Knows task marking main schedule server' events' where
  safe := h.safe.grow hg
  read := h.read.grow hg
  follows := (h.follows.mono fun _ hover hread => (hover hread).grow hg.events).extends hg.retry

theorem Left.grow (h : Left task marking batch entries server events)
    (hg : Grows server events server' events') : Left task marking batch entries server' events' :=
  fun m hm hrec => (h m hm (hrec.of_extends hg.main)).imp_left fun ha => ha.grow hg.retry hg.events

end Step

/-! ### What the steps keep -/

section Keep

variable {task : PartitionTask I P O} {marking : task.handlers.Marking} {main : Cursor}
  {schedule : RetryTask (Traced P)} {batch : List (PolledMessage I (Traced P))}
  {entries : List (RetryEntry (Traced P))} {server server' : Server I (Traced P)}
  {events events' : List (TaskEvent I (Traced P) (Traced O))} {event : TaskEvent I (Traced P) (Traced O)}

theorem grows_events (hsub : events ⊆ events') : Grows server events server events' :=
  ⟨fun h => h, .refl _, .refl _, hsub⟩

theorem grows_append (past past' : List (Server I (Traced P) × TaskEvent I (Traced P) (Traced O))) :
    Grows server (past.map Prod.snd) server ((past ++ past').map Prod.snd) := by
  rw [List.map_append]
  exact grows_events (List.subset_append_left _ _)

theorem grows_produced (h : Server.Produced Own server server') : Grows server events server' events := by
  obtain ⟨batch, hbatch, rfl⟩ := h
  refine ⟨fun hown m hm => ?_, server.main.extends_append batch, .refl _, List.Subset.refl _⟩
  exact (List.mem_append.mp hm).elim (hown m) (hbatch m)

/-- Only a stored offset does not make the partitions grow. -/
theorem grows_step (events : List (TaskEvent I (Traced P) (Traced O))) (h : Server.Step server event server')
    (he : ∀ topic offset r, event ≠ .store topic offset r) :
    Grows server events server' (events ++ [event]) := by
  have hsame : Grows server events server (events ++ [event]) := grows_events (List.subset_append_left _ _)
  cases h with
  | stored => exact absurd rfl (he _ _ _)
  | sent => exact ⟨fun hown => hown, .refl _, server.retry.extends_append _, hsame.events⟩
  | _ => exact hsame

/-- Nothing is pending when a task starts. -/
theorem Safe.knows (h : Safe task marking server events)
    (hread : Through task marking server events main.nextOrZero) (delays : List ℕ) :
    Knows task marking main ⟨.new delays, ⟨server.retry.stored.map (· + 1)⟩⟩ server events :=
  ⟨h, hread, .start delays h.below fun m hm hlt _ _ => h.retry m hm hlt⟩

/-- A round of attempts: a record that it takes out is over, or was given up. -/
theorem Knows.attempt (h : Knows task marking main schedule server events) {due : List UInt64} {now : ℕ}
    {u : List (List ℕ × Call (Traced O))} {state : RetryState (Traced P)} {outcomes : List Outcome}
    (hu : runDueRuns (task.handlers.traced marking) schedule.state due now u (some (state, outcomes)))
    (hsub : events ++ (u.map fun e => .retry e.1 e.2) ++ [.ran outcomes] ⊆ events') :
    Knows task marking main { schedule with state } server events' := by
  have hgrow : Grows server events server events' :=
    grows_events fun e he => hsub (List.mem_append_left _ (List.mem_append_left _ he))
  obtain ⟨work, hwork⟩ := exists_work hu
  refine ⟨h.safe.grow hgrow, h.read.grow hgrow, h.follows.ran
    (fun m hover hread => (hover hread).grow hgrow.events) hwork ?_⟩
  rintro m - record hrecord key hqueue outcome ho hk hgone ⟨record', hrecord', hacc⟩
  obtain rfl := Option.some.inj (hrecord.symm.trans hrecord')
  have hresolved : m.offset ∈ outcome.resolved → Ended events' m := fun hres => Or.inr fun a ha => by
    rw [← offset_of_retryRecord hrecord] at hres
    rw [← payload_of_retryRecord hrecord] at ha
    have hserved := served_of_resolved h.follows.valid hu hqueue ho hk hres hacc ha
    refine served_of_subset hserved fun c hc => ?_
    obtain ⟨e, he, rfl⟩ := List.mem_map.mp hc
    exact List.mem_filterMap.mpr ⟨.retry e.1 e.2, hsub (List.mem_append_left _ (List.mem_append_right _
      (List.mem_map_of_mem he))), rfl⟩
  unfold Outcome.gone at hgone
  split_ifs at hgone with hgave
  · rcases List.mem_append.mp hgone with hres | hfailed
    · exact hresolved hres
    · exact Or.inl ⟨outcomes, hsub (List.mem_append_right _ (List.mem_singleton_self _)), outcome, ho, hgave,
        hfailed⟩
  · exact hresolved hgone

/-- The records of a batch that was executed are over, written or dropped. -/
theorem Knows.execute (h : Knows task marking main schedule server events)
    (hbatch : batch <+: server.main.rest main.nextOrZero)
    {t : List (TaskEvent I (Traced P) (Traced O))} {reports : List (KeyReport (Traced P))}
    (ht : (task.traced marking).executeMain schedule.state batch t (some reports))
    (hsub : events ++ t ++ [.backlogFull ((task.traced marking).writeMain schedule.state batch reports).2] ⊆
      events') :
    Left task marking batch ((task.traced marking).writeMain schedule.state batch reports).1 server events' := by
  rintro m hm ⟨record, hrecord, hacc, hrec⟩
  have hsublist : (parseMain batch).Sublist (parseMain server.main.messages) := by
    rw [parseMain_eq, parseMain_eq]
    exact (hbatch.sublist.trans List.filter_sublist).filterMap _
  have hmem : m ∈ server.main.messages := (TopicPartition.mem_rest.mp (hbatch.subset hm)).1
  have hr : record ∈ parseMain batch := List.mem_filterMap.mpr ⟨m, hm, hrecord⟩
  have ha : m.offset ∈ record.payload.2 := by
    rw [(of_mainRecord hrecord).1, h.safe.own m hmem]
    exact List.mem_singleton_self _
  rcases PartitionTask.served_or_written ht hr hacc (hrec.mono hsublist) ha with hserved | hwritten | hdropped
  · refine Or.inl (Or.inl (served_of_subset hserved (List.filterMap_subset _ fun e he => ?_)))
    exact hsub (List.mem_append_left _ (List.mem_append_right _ he))
  · exact Or.inr hwritten
  · exact Or.inl (Or.inr (Or.inl ⟨_, hsub (List.mem_append_right _ (List.mem_singleton_self _)), hdropped⟩))

end Keep

/-! ### What is written, and what is stored -/

/-- Iggy keeps the headers of the messages that a task builds. -/
structure KeepsHeaders (task : PartitionTask I P O) : Prop where
  lawful : I.Lawful
  built : ∀ payload map message, task.build payload map = .ok message →
    I.userHeadersMap message = .ok (some map)

section Write

variable {task : PartitionTask I P O} {marking : task.handlers.Marking} {main : Cursor}
  {schedule : RetryTask (Traced P)} {batch : List (PolledMessage I (Traced P))}
  {entries : List (RetryEntry (Traced P))} {server server' : Server I (Traced P)}
  {events events' : List (TaskEvent I (Traced P) (Traced O))} {nowMs : UInt64} {a : ℕ}

/-- The message of an entry can be built, and parses to the headers of the entry. -/
theorem exists_retryMessage (marking : task.handlers.Marking) (nowMs : UInt64) (htask : KeepsHeaders task)
    {entry : RetryEntry (Traced P)} (h : Represents task.handlers (Sendable task) a entry) : ∃ message,
      (task.traced marking).retryMessage nowMs entry = some (message, entry.payload) ∧
        EventHeaders.parse I message = .ok (entry.headers, some ⟨nowMs⟩) := by
  obtain ⟨map, hmap, hwritten⟩ := toMap_written htask.lawful entry.headers (some ⟨nowMs⟩)
  obtain ⟨message, hmessage⟩ := h.2.2 entry.headers ⟨nowMs⟩ map hmap
  refine ⟨message, ?_, parse_ok_iff.mpr ⟨map, htask.built _ _ _ hmessage, hwritten⟩⟩
  have hbuilt : (entry.headers.toMap I (some ⟨nowMs⟩) >>= fun headers =>
      (task.traced marking).build entry.payload headers) = .ok message :=
    bind_eq_ok_iff.mpr ⟨map, hmap, hmessage⟩
  unfold PartitionTask.retryMessage
  simp only [hbuilt]

/-- A message that was written for an entry stands for it. -/
theorem exists_numbered {messages : List (I.IggyMessage × Traced P)} (next : ℕ)
    {entry : RetryEntry (Traced P)} (h : Represents task.handlers (Sendable task) a entry)
    {message : I.IggyMessage} (hm : (message, entry.payload) ∈ messages)
    (hparse : EventHeaders.parse I message = .ok (entry.headers, some ⟨nowMs⟩)) :
    ∃ m ∈ numbered next messages, Readable task.handlers m ∧ a ∈ m.payload.2 := by
  obtain ⟨i, hi, hget⟩ := List.getElem_of_mem hm
  refine ⟨⟨next + i, message, entry.payload⟩, ?_, ⟨⟨⟨next + i, entry.headers, entry.payload⟩, nowMs.toNat⟩, ?_,
    h.2.1⟩, h.1⟩
  · refine List.mem_map.mpr ⟨((message, entry.payload), next + i), ?_, rfl⟩
    refine List.mk_mem_zipIdx_iff_le_and_getElem?_sub.mpr ⟨Nat.le_add_right _ _, ?_⟩
    rw [Nat.add_sub_cancel_left, List.getElem?_eq_getElem hi, hget]
  · unfold retryRecord parseRecord
    simp only [hparse]
    rfl

/-- **The entries of a batch are written.** -/
theorem Left.send (htask : KeepsHeaders task) (h : Left task marking batch entries server events)
    (hsub : events ⊆ events') :
    Left task marking batch [] ⟨server.main, server.retry.append
      (entries.filterMap ((task.traced marking).retryMessage nowMs))⟩ events' := by
  intro m hm hrec
  rcases h m hm hrec with haccounted | ⟨entry, hentry, hrep⟩
  · exact Or.inl (haccounted.grow (server.retry.extends_append _) hsub)
  · obtain ⟨message, hmessage, hparse⟩ := exists_retryMessage marking nowMs htask hrep
    obtain ⟨m', hm', hread, ha⟩ := exists_numbered server.retry.next hrep
      (List.mem_filterMap.mpr ⟨entry, hentry, hmessage⟩) hparse
    exact Or.inl (Or.inr (Or.inr ⟨m', List.mem_append_right _ hm', hread, ha⟩))

/-- Without messages there is nothing to write. -/
theorem Left.nothing (htask : KeepsHeaders task) (h : Left task marking batch entries server events)
    (nowMs : UInt64) (hnil : entries.filterMap ((task.traced marking).retryMessage nowMs) = []) :
    Left task marking batch [] server events := by
  intro m hm hrec
  rcases h m hm hrec with haccounted | ⟨entry, hentry, hrep⟩
  · exact Or.inl haccounted
  · obtain ⟨message, hmessage, -⟩ := exists_retryMessage marking nowMs htask hrep
    rw [List.filterMap_eq_nil_iff.mp hnil entry hentry] at hmessage
    cases hmessage

/-- **The records of a batch that was done** are accounted for, up to its last message. -/
theorem Knows.through (h : Knows task marking main schedule server events)
    (hbatch : batch <+: server.main.rest main.nextOrZero) (hleft : Left task marking batch [] server events)
    {last : PolledMessage I (Traced P)} (hlast : batch.getLast? = some last) :
    Through task marking server events (last.offset + 1) where
  below := server.main.below last (TopicPartition.mem_rest.mp
    (hbatch.subset (List.mem_of_getLast? hlast))).1
  accounted m hm hlt hrec := by
    rcases Nat.lt_or_ge m.offset main.nextOrZero with hold | hnew
    · exact h.read.accounted m hm hold hrec
    · have hmem := TopicPartition.mem_batch hbatch hlast hm hnew (Nat.le_of_lt_succ hlt)
      rcases hleft m hmem hrec with haccounted | ⟨entry, hentry, -⟩
      · exact haccounted
      · cases hentry

/-- The main offset is stored. -/
theorem Knows.storeMain (h : Knows task marking main schedule server events) {offset : ℕ}
    (hthrough : Through task marking server events (offset + 1)) {next : Cursor}
    (hnext : Through task marking server events next.nextOrZero) :
    Knows task marking next schedule (server.put .main offset) events where
  safe := ⟨h.safe.own, ⟨hthrough.below, hthrough.accounted⟩, h.safe.retry, h.safe.below⟩
  read := ⟨hnext.below, hnext.accounted⟩
  follows := h.follows

/-- **The retry offset is stored**: before the first record that is pending. -/
theorem Knows.commit (h : Knows task marking main schedule server events) {offset : ℕ}
    (hc : schedule.committable = some offset) :
    Knows task marking main schedule (server.put .retry offset) events := by
  obtain ⟨hbefore, hnext⟩ := h.follows.commit hc
  refine ⟨⟨h.safe.own, ⟨h.safe.main.below, h.safe.main.accounted⟩, fun m hm hlt hread => ?_, hnext⟩,
    ⟨h.read.below, h.read.accounted⟩, ⟨h.follows.valid, h.follows.below, h.follows.pending⟩⟩
  obtain ⟨record, hrecord, hacc⟩ := hread
  by_contra hended
  have hlt' := hbefore m hm record hrecord fun hover => hended (hover ⟨record, hrecord, hacc⟩)
  exact Nat.not_le_of_lt hlt' (Nat.le_of_lt_succ hlt)

end Write

end Wakuwaku.Iggy.Consumer.NothingLost
