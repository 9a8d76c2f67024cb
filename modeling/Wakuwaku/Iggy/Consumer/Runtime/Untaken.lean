import Wakuwaku.Iggy.Consumer.Runtime.Batches

/-! # What was not taken

What a task that stores its offsets first knows of the records that were in no call that returned `Ok`:
what is in the retry partition from the stored offset on, what is pending, and what it writes there. -/

namespace Wakuwaku.Iggy.Consumer.AtMostOnce

open Wakuwaku.Iggy.Events Wakuwaku.Iggy.Partition World

variable {I : IggyHeaders} {P O : Type}

/-! ### What holds at every moment -/

/-- A record was in no call that returned `Ok`. -/
def Untaken (calls : List (Call (Traced O))) (a : ℕ) : Prop := ∀ c ∈ calls, c.handled → a ∉ c.offsets

/-- The offset of the first message that is not stored as read. -/
def firstOf (partition : TopicPartition I P) : ℕ := (partition.stored.map (· + 1)).getD 0

/-- What a crash leaves, where the first record of the main partition that is not stored as read is
`first`. -/
structure Safe (first : ℕ) (retry : TopicPartition I (Traced P)) (calls : List (Call (Traced O))) :
    Prop where
  once : calls.Pairwise Call.Once
  nodup : (retry.messages.flatMap (·.payload.2)).Nodup
  written : ∀ m ∈ retry.messages, ∀ a ∈ m.payload.2, a < first
  called : ∀ c ∈ calls, ∀ a ∈ c.offsets, a < first
  left : ∀ m ∈ retry.messages, firstOf retry ≤ m.offset → ∀ a ∈ m.payload.2, Untaken calls a

/-- What is pending was read, and not taken. -/
structure Tracks (task : RetryTask (Traced P)) (first : ℕ) (retry : TopicPartition I (Traced P))
    (calls : List (Call (Traced O))) : Prop where
  safe : Safe first retry calls
  valid : task.state.Valid task.cursor.nextOrZero
  pending : ∀ p ∈ task.state.pendingRecords, ∃ m ∈ retry.messages, retryRecord m = some p ∧
    ∀ a ∈ m.payload.2, Untaken calls a

/-- The task stored what it has read of the retry partition. -/
structure Knows (task : RetryTask (Traced P)) (first : ℕ) (retry : TopicPartition I (Traced P))
    (calls : List (Call (Traced O))) : Prop where
  tracks : Tracks task first retry calls
  stored : firstOf retry = task.cursor.nextOrZero

/-- The task has polled a batch of the retry partition. -/
structure Fetched (task : RetryTask (Traced P)) (batch : List (PolledMessage I (Traced P))) (first : ℕ)
    (retry : TopicPartition I (Traced P)) (calls : List (Call (Traced O))) : Prop where
  tracks : Tracks task first retry calls
  read : batch <+: retry.rest task.cursor.nextOrZero
  left : ∀ m ∈ batch, ∀ a ∈ m.payload.2, Untaken calls a

/-- The task has polled a batch of the main partition. -/
structure Polled (main : Cursor) (task : RetryTask (Traced P)) (batch : List (PolledMessage I (Traced P)))
    (first : ℕ) (retry : TopicPartition I (Traced P)) (calls : List (Call (Traced O))) : Prop where
  knows : Knows task first retry calls
  own : ∀ m ∈ batch, Own m
  sorted : batch.Pairwise fun m m' => m.offset < m'.offset
  after : ∀ m ∈ batch, main.nextOrZero ≤ m.offset
  unwritten : ∀ m ∈ batch, ∀ m' ∈ retry.messages, m.offset ∉ m'.payload.2
  uncalled : ∀ m ∈ batch, ∀ c ∈ calls, m.offset ∉ c.offsets

/-- Entries can be written to the retry partition. -/
structure Ready (entries : List (RetryEntry (Traced P))) (first : ℕ) (retry : TopicPartition I (Traced P))
    (calls : List (Call (Traced O))) : Prop where
  nodup : (entries.flatMap (·.payload.2)).Nodup
  before : ∀ entry ∈ entries, ∀ a ∈ entry.payload.2, a < first
  unwritten : ∀ entry ∈ entries, ∀ a ∈ entry.payload.2, ∀ m ∈ retry.messages, a ∉ m.payload.2
  untaken : ∀ entry ∈ entries, ∀ a ∈ entry.payload.2, Untaken calls a

/-- The offset of a batch is stored. -/
def Read (first : ℕ) (batch : List (PolledMessage I P)) : Prop :=
  ∀ last, batch.getLast? = some last → first = last.offset + 1

/-- The offset of a batch is being stored. -/
def Storing (first : ℕ) (cursor : Cursor) (batch : List (PolledMessage I P)) : Prop :=
  first = cursor.nextOrZero ∨ ∃ last, batch.getLast? = some last ∧ first = last.offset + 1

section Keep

variable {task : RetryTask (Traced P)} {first first' : ℕ} {retry : TopicPartition I (Traced P)}
  {calls new : List (Call (Traced O))} {main : Cursor} {batch : List (PolledMessage I (Traced P))}
  {entries : List (RetryEntry (Traced P))}

theorem Untaken.append {a : ℕ} (h : Untaken calls a) (hnew : Untaken new a) : Untaken (calls ++ new) a :=
  fun c hc => (List.mem_append.mp hc).elim (h c) (hnew c)

theorem Safe.mono (h : Safe first retry calls) (hle : first ≤ first') : Safe first' retry calls where
  once := h.once
  nodup := h.nodup
  written m hm a ha := (h.written m hm a ha).trans_le hle
  called c hc a ha := (h.called c hc a ha).trans_le hle
  left := h.left

/-- The stored offset of the retry partition moves on. -/
theorem Safe.store (h : Safe first retry calls) {offset : ℕ} (hle : firstOf retry ≤ offset + 1) :
    Safe first { retry with stored := some offset } calls where
  once := h.once
  nodup := h.nodup
  written := h.written
  called := h.called
  left m hm hge := h.left m hm (hle.trans hge)

/-- The calls of what is not taken. -/
theorem Safe.call (h : Safe first retry calls) (honce : new.Pairwise Call.Once)
    (hnew : ∀ c ∈ new, ∀ a ∈ c.offsets, a < first ∧ Untaken calls a ∧
      ∀ m ∈ retry.messages, firstOf retry ≤ m.offset → a ∉ m.payload.2) :
    Safe first retry (calls ++ new) where
  once := List.pairwise_append.mpr ⟨h.once, honce, fun c hc c' hc' hh a ha ha' =>
    (hnew c' hc' a ha').2.1 c hc hh ha⟩
  nodup := h.nodup
  written := h.written
  called c hc a ha := (List.mem_append.mp hc).elim (fun hc => h.called c hc a ha)
    fun hc => (hnew c hc a ha).1
  left m hm hge a ha := (h.left m hm hge a ha).append fun c hc _ hac => (hnew c hc a hac).2.2 m hm hge ha

theorem Tracks.mono (h : Tracks task first retry calls) (hle : first ≤ first') :
    Tracks task first' retry calls := ⟨h.safe.mono hle, h.valid, h.pending⟩

theorem Knows.mono (h : Knows task first retry calls) (hle : first ≤ first') :
    Knows task first' retry calls := ⟨h.tracks.mono hle, h.stored⟩

/-- Messages that stand for one record are the same. -/
theorem Safe.unique (h : Safe first retry calls) {m m' : PolledMessage I (Traced P)}
    (hm : m ∈ retry.messages) (hm' : m' ∈ retry.messages) {a : ℕ} (ha : a ∈ m.payload.2)
    (ha' : a ∈ m'.payload.2) : m = m' := by
  obtain ⟨i, hi, rfl⟩ := List.getElem_of_mem hm
  obtain ⟨j, hj, rfl⟩ := List.getElem_of_mem hm'
  have hpw := List.pairwise_iff_getElem.mp (List.nodup_flatMap.mp h.nodup).2
  rcases Nat.lt_trichotomy i j with hij | rfl | hij
  · exact absurd ha' (hpw i j hi hj hij ha)
  · rfl
  · exact absurd ha (hpw j i hj hi hij ha')

theorem payload_of_retryRecord {m : PolledMessage I P} {p : PendingRecord P} (h : retryRecord m = some p) :
    p.record.payload = m.payload := by
  unfold retryRecord parseRecord at h
  generalize EventHeaders.parse I m.message = parsed at h
  rcases parsed with error | ⟨headers, _ | retry⟩
  · cases h
  · cases h
  · cases h
    rfl

theorem Tracks.apart (h : Tracks task first retry calls) : Apart task.state where
  nodup p hp := by
    obtain ⟨m, hm, hmp, -⟩ := h.pending p hp
    rw [payload_of_retryRecord hmp]
    exact (List.nodup_flatMap.mp h.safe.nodup).1 m hm
  unique p hp p' hp' a ha ha' := by
    obtain ⟨m, hm, hmp, -⟩ := h.pending p hp
    obtain ⟨m', hm', hmp', -⟩ := h.pending p' hp'
    rw [payload_of_retryRecord hmp] at ha
    rw [payload_of_retryRecord hmp'] at ha'
    rw [h.safe.unique hm hm' ha ha', hmp'] at hmp
    exact (Option.some.inj hmp).symm

end Keep

/-! ### What the steps keep -/

section Step

variable {task : RetryTask (Traced P)} {first : ℕ} {retry : TopicPartition I (Traced P)}
  {calls : List (Call (Traced O))} {main : Cursor} {batch : List (PolledMessage I (Traced P))}
  {entries : List (RetryEntry (Traced P))}

/-- A batch of the retry partition was polled. -/
theorem Knows.fetched (h : Knows task first retry calls)
    (hread : batch <+: retry.rest task.cursor.nextOrZero) : Fetched task batch first retry calls where
  tracks := h.tracks
  read := hread
  left m hm := by
    obtain ⟨hm, hge⟩ := TopicPartition.mem_rest.mp (hread.subset hm)
    exact h.tracks.safe.left m hm (h.stored ▸ hge)

/-- The messages of a batch are pending. -/
theorem Fetched.knows (h : Fetched task batch first retry calls) (hne : batch ≠ [])
    (hstored : Read (firstOf retry) batch) (now nowMs : ℕ) :
    Knows (task.drainPolled batch now nowMs) first retry calls := by
  have hsorted := TopicPartition.pairwise_batch h.read
  have hmem : ∀ m ∈ batch, m ∈ retry.messages ∧ task.cursor.nextOrZero ≤ m.offset :=
    fun m hm => TopicPartition.mem_rest.mp (h.read.subset hm)
  obtain ⟨hstate, hbelow⟩ := drainPolled_spec task now nowMs hne hsorted
  have hlast := List.getLast?_eq_some_getLast hne
  have hle : task.cursor.nextOrZero ≤ (task.drainPolled batch now nowMs).cursor.nextOrZero :=
    (hmem _ (List.getLast_mem hne)).2.trans (hbelow _ (List.getLast_mem hne)).le
  refine ⟨⟨h.tracks.safe, ?_, fun p hp => ?_⟩, ?_⟩
  · rw [hstate]
    exact valid_foldl h.tracks.valid hle (fun m hm => ⟨(hmem m hm).2, hbelow m hm⟩) hsorted
  · rw [hstate] at hp
    rcases mem_pendingRecords_foldl.mp hp with hp | ⟨m, hm, hmp⟩
    · exact h.tracks.pending p hp
    · exact ⟨m, (hmem m hm).1, hmp, h.left m hm⟩
  · rw [hstored _ hlast]
    unfold RetryTask.drainPolled
    rw [hlast]
    rfl

/-- The calls of a round of attempts. -/
theorem Knows.attempt {handlers : HandlerList P O} {marking : handlers.Marking}
    (h : Knows task first retry calls) {due : List UInt64} (hdue : due.Nodup) {now : ℕ}
    {u : List (List ℕ × Call (Traced O))} {o : Option (RetryState (Traced P) × List Outcome)}
    (hu : runDueRuns (handlers.traced marking) task.state due now u o)
    (hwhole : ∀ e e', [e, e'].Sublist u → e.2.handled → e'.2.retryable → e.1 ≠ e'.1) :
    Safe first retry (calls ++ u.map Prod.snd) ∧ ∀ r, o = some r →
      Knows { task with state := r.1 } first retry (calls ++ u.map Prod.snd) := by
  have hvalid := h.tracks.valid
  have hapart := h.tracks.apart
  have hsafe : Safe first retry (calls ++ u.map Prod.snd) := by
    refine h.tracks.safe.call (List.pairwise_map.mpr (hapart.once_runDueRuns hvalid hdue hu)) ?_
    intro c hc a ha
    obtain ⟨e, he, rfl⟩ := List.mem_map.mp hc
    obtain ⟨p, hp, hap⟩ := exists_pending hu he ha
    obtain ⟨m, hm, hmp, huntaken⟩ := h.tracks.pending p hp
    rw [payload_of_retryRecord hmp] at hap
    refine ⟨h.tracks.safe.written m hm a hap, huntaken a hap, fun m' hm' hge ham => ?_⟩
    obtain rfl := h.tracks.safe.unique hm hm' hap ham
    obtain ⟨key, hp⟩ := RetryState.mem_pendingRecords_iff_queue.mp hp
    have hlt := ((hvalid.of_queue key).2 p hp).2
    rw [offset_of_retryRecord hmp, ← h.stored] at hlt
    exact Nat.not_le_of_lt hlt hge
  refine ⟨hsafe, ?_⟩
  rintro ⟨state, outcomes⟩ rfl
  refine ⟨⟨hsafe, ?_, fun p hp => ?_⟩, h.stored⟩
  · obtain ⟨work, hwork⟩ := exists_work hu
    obtain rfl := (Prod.mk.inj hwork).1
    exact valid_finishReports work hvalid
  · obtain ⟨hp, hleft⟩ := hapart.not_handled_of_pending hvalid hu hwhole hp
    obtain ⟨m, hm, hmp, huntaken⟩ := h.tracks.pending p hp
    refine ⟨m, hm, hmp, fun a ha => (huntaken a ha).append fun c hc hh hac => ?_⟩
    obtain ⟨e, he, rfl⟩ := List.mem_map.mp hc
    exact hleft e he hh a hac (payload_of_retryRecord hmp ▸ ha)

/-- A batch of the main partition was polled. -/
theorem Knows.polled (h : Knows task first retry calls) (hfirst : first = main.nextOrZero)
    {partition : TopicPartition I (Traced P)} (hown : ∀ m ∈ partition.messages, Own m)
    (hread : batch <+: partition.rest main.nextOrZero) : Polled main task batch first retry calls := by
  have hmem : ∀ m ∈ batch, m ∈ partition.messages ∧ main.nextOrZero ≤ m.offset :=
    fun m hm => TopicPartition.mem_rest.mp (hread.subset hm)
  refine ⟨h, fun m hm => hown m (hmem m hm).1, TopicPartition.pairwise_batch hread,
    fun m hm => (hmem m hm).2, fun m hm m' hm' ha => ?_, fun m hm c hc ha => ?_⟩
  · have hlt := h.tracks.safe.written m' hm' _ ha
    exact Nat.not_le_of_lt hlt (hfirst ▸ (hmem m hm).2)
  · have hlt := h.tracks.safe.called c hc _ ha
    exact Nat.not_le_of_lt hlt (hfirst ▸ (hmem m hm).2)

theorem Polled.mono (h : Polled main task batch first retry calls) {first' : ℕ} (hle : first ≤ first') :
    Polled main task batch first' retry calls :=
  ⟨h.knows.mono hle, h.own, h.sorted, h.after, h.unwritten, h.uncalled⟩

/-- The messages of a batch are before its offset. -/
theorem Polled.lt (h : Polled main task batch first retry calls) (hread : Read first batch)
    {m : PolledMessage I (Traced P)} (hm : m ∈ batch) : m.offset < first := by
  cases hlast : batch.getLast? with
  | none =>
    rw [List.getLast?_eq_none_iff.mp hlast] at hm
    cases hm
  | some last =>
    rw [hread last hlast]
    obtain ⟨init, rfl⟩ := List.getLast?_eq_some_iff.mp hlast
    rcases List.mem_append.mp hm with hm | hm
    · exact ((List.pairwise_append.mp h.sorted).2.2 m hm last (List.mem_singleton_self _)).trans
        (Nat.lt_succ_self _)
    · rw [List.mem_singleton.mp hm]
      exact Nat.lt_succ_self _

/-- The keys of a main batch are executed. -/
theorem Polled.execute {partitionTask : PartitionTask I P O} {marking : partitionTask.handlers.Marking}
    (h : Polled main task batch first retry calls) (hread : Read first batch)
    {t : List (TaskEvent I (Traced P) (Traced O))} {o : Option (List (KeyReport (Traced P)))}
    (ht : (partitionTask.traced marking).executeMain task.state batch t o) :
    Safe first retry (calls ++ t.filterMap TaskEvent.call) ∧ ∀ reports, o = some reports →
      Knows task first retry (calls ++ t.filterMap TaskEvent.call) ∧
        Ready ((partitionTask.traced marking).writeMain task.state batch reports).1 first retry
          (calls ++ t.filterMap TaskEvent.call) := by
  have hnd := nodup_parseMain h.own h.sorted
  have hmem : ∀ c ∈ t.filterMap TaskEvent.call, ∀ a ∈ c.offsets, ∃ m ∈ batch, m.offset = a := by
    intro c hc a ha
    obtain ⟨e, he, hec⟩ := List.mem_filterMap.mp hc
    exact PartitionTask.exists_of_mem_executeMain h.own ht he hec ha
  have hsafe : Safe first retry (calls ++ t.filterMap TaskEvent.call) := by
    refine h.knows.tracks.safe.call (PartitionTask.once_executeMain hnd ht) fun c hc a ha => ?_
    obtain ⟨m, hm, rfl⟩ := hmem c hc a ha
    exact ⟨h.lt hread hm, fun c hc _ => h.uncalled m hm c hc, fun m' hm' _ => h.unwritten m hm m' hm'⟩
  refine ⟨hsafe, ?_⟩
  rintro reports rfl
  obtain ⟨hnodup, hentries⟩ := PartitionTask.written_spec ht h.own hnd
  refine ⟨⟨⟨hsafe, h.knows.tracks.valid, fun p hp => ?_⟩, h.knows.stored⟩, hnodup, ?_, ?_, ?_⟩
  · obtain ⟨m, hm, hmp, huntaken⟩ := h.knows.tracks.pending p hp
    refine ⟨m, hm, hmp, fun a ha => (huntaken a ha).append fun c hc _ hac => ?_⟩
    obtain ⟨m', hm', rfl⟩ := hmem c hc a hac
    exact h.unwritten m' hm' m hm ha
  · intro entry hentry a ha
    obtain ⟨m, hm, rfl⟩ := (hentries entry hentry a ha).1
    exact h.lt hread hm
  · intro entry hentry a ha m' hm'
    obtain ⟨m, hm, rfl⟩ := (hentries entry hentry a ha).1
    exact h.unwritten m hm m' hm'
  · intro entry hentry a ha
    obtain ⟨⟨m, hm, rfl⟩, hnot⟩ := hentries entry hentry a ha
    refine Untaken.append (fun c hc _ => h.uncalled m hm c hc) fun c hc hh => ?_
    obtain ⟨e, he, hec⟩ := List.mem_filterMap.mp hc
    exact hnot e he c hec hh

/-- The offsets of the messages of a batch. -/
theorem flatMap_numbered (next : ℕ) (messages : List (I.IggyMessage × Traced P)) :
    (numbered next messages).flatMap (·.payload.2) = messages.flatMap (·.2.2) := by
  have h : (messages.zipIdx next).flatMap (fun e => e.1.2.2) =
      ((messages.zipIdx next).map Prod.fst).flatMap (·.2.2) := by
    rw [List.flatMap_map]
  rw [numbered, List.flatMap_map, h, List.zipIdx_map_fst]

theorem payload_of_retryMessage {task : PartitionTask I P O} {nowMs : UInt64} {entry : RetryEntry P}
    {message : I.IggyMessage × P} (h : task.retryMessage nowMs entry = some message) :
    message.2 = entry.payload := by
  unfold PartitionTask.retryMessage at h
  dsimp only at h
  split at h
  · exact (congrArg Prod.snd (Option.some.inj h)).symm
  · cases h

/-- A message holds the payload of its entry. -/
theorem sublist_messages {task : PartitionTask I (Traced P) O} {nowMs : UInt64} :
    ∀ entries : List (RetryEntry (Traced P)),
      ((entries.filterMap (task.retryMessage nowMs)).flatMap (·.2.2)).Sublist (entries.flatMap (·.payload.2))
  | [] => .slnil
  | entry :: entries => by
    rw [List.flatMap_cons]
    cases hm : task.retryMessage nowMs entry with
    | none =>
      rw [List.filterMap_cons_none hm]
      exact (sublist_messages entries).trans (List.sublist_append_right _ _)
    | some message =>
      rw [List.filterMap_cons_some hm, List.flatMap_cons, payload_of_retryMessage hm]
      exact (List.Sublist.refl _).append (sublist_messages entries)

/-- Entries are written to the retry partition. -/
theorem Knows.send (h : Knows task first retry calls) (hready : Ready entries first retry calls)
    {messages : List (I.IggyMessage × Traced P)}
    (hsub : (messages.flatMap (·.2.2)).Sublist (entries.flatMap (·.payload.2))) :
    Knows task first (retry.append messages) calls := by
  have hentry : ∀ m ∈ numbered retry.next messages, ∀ a ∈ m.payload.2,
      ∃ entry ∈ entries, a ∈ entry.payload.2 := by
    intro m hm a ha
    have hmem : a ∈ (numbered retry.next messages).flatMap (·.payload.2) := List.mem_flatMap.mpr ⟨m, hm, ha⟩
    rw [flatMap_numbered] at hmem
    exact List.mem_flatMap.mp (hsub.subset hmem)
  refine ⟨⟨⟨h.tracks.safe.once, ?_, fun m hm a ha => ?_, h.tracks.safe.called, fun m hm hge a ha => ?_⟩,
    h.tracks.valid, fun p hp => ?_⟩, h.stored⟩
  · show ((retry.messages ++ numbered retry.next messages).flatMap (·.payload.2)).Nodup
    rw [List.flatMap_append, flatMap_numbered]
    refine List.nodup_append.mpr ⟨h.tracks.safe.nodup, hready.nodup.sublist hsub, fun a ha b hb hab => ?_⟩
    obtain ⟨m, hm, ha⟩ := List.mem_flatMap.mp ha
    obtain ⟨entry, hentry, hb⟩ := List.mem_flatMap.mp (hsub.subset hb)
    exact hready.unwritten entry hentry b hb m hm (hab ▸ ha)
  · rcases List.mem_append.mp hm with hm | hm
    · exact h.tracks.safe.written m hm a ha
    · obtain ⟨entry, he, ha⟩ := hentry m hm a ha
      exact hready.before entry he a ha
  · rcases List.mem_append.mp hm with hm | hm
    · exact h.tracks.safe.left m hm hge a ha
    · obtain ⟨entry, he, ha⟩ := hentry m hm a ha
      exact hready.untaken entry he a ha
  · obtain ⟨m, hm, hleft⟩ := h.tracks.pending p hp
    exact ⟨m, List.mem_append_left _ hm, hleft⟩

end Step

end Wakuwaku.Iggy.Consumer.AtMostOnce
