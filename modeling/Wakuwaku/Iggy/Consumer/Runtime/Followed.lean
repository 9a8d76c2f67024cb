import Wakuwaku.Iggy.Consumer.Runtime.Server

/-! # The records a task has read

A task keeps each record that it has read of the retry partition until the record has ended, whatever
that means (`Follows`). Reading on, a round of attempts and what is appended keep this, and the offset that
the task would store is before every record that has not ended (`Follows.commit`). -/

namespace Wakuwaku.Iggy.Consumer

open Wakuwaku.Iggy.Events

variable {I : IggyHeaders} {P : Type}

/-- More messages were appended. -/
structure TopicPartition.Extends (partition partition' : TopicPartition I P) : Prop where
  stored : partition'.stored = partition.stored
  next : partition.next ≤ partition'.next
  messages : ∃ more, partition'.messages = partition.messages ++ more ∧
    ∀ message ∈ more, partition.next ≤ message.offset

namespace TopicPartition

variable {partition partition' : TopicPartition I P}

theorem Extends.refl (partition : TopicPartition I P) : partition.Extends partition :=
  ⟨rfl, Nat.le_refl _, [], (List.append_nil _).symm, by simp⟩

theorem extends_append (partition : TopicPartition I P) (batch : List (I.IggyMessage × P)) :
    partition.Extends (partition.append batch) :=
  ⟨rfl, Nat.le_add_right _ _, numbered partition.next batch, rfl, fun _ hm => (offset_numbered hm).1⟩

theorem Extends.subset (h : partition.Extends partition') : partition.messages ⊆ partition'.messages := by
  obtain ⟨more, hmore, -⟩ := h.messages
  rw [hmore]
  exact List.subset_append_left _ _

/-- A message before the next offset is not new. -/
theorem Extends.mem (h : partition.Extends partition') {message : PolledMessage I P}
    (hm : message ∈ partition'.messages) (hlt : message.offset < partition.next) :
    message ∈ partition.messages := by
  obtain ⟨more, hmore, hnew⟩ := h.messages
  rw [hmore] at hm
  rcases List.mem_append.mp hm with hm | hm
  · exact hm
  · exact absurd (hnew message hm) (Nat.not_le_of_lt hlt)

/-- What was polled is still there. -/
theorem Extends.rest (h : partition.Extends partition') (first : ℕ) :
    partition.rest first <+: partition'.rest first := by
  obtain ⟨more, hmore, -⟩ := h.messages
  unfold TopicPartition.rest
  rw [hmore, List.filter_append]
  exact List.prefix_append _ _

end TopicPartition

/-- Every record that was read is pending or has ended. -/
structure Follows (ended : PolledMessage I P → Prop) (task : RetryTask P) (retry : TopicPartition I P) :
    Prop where
  valid : task.state.Valid task.cursor.nextOrZero
  below : task.cursor.nextOrZero ≤ retry.next
  pending : ∀ message ∈ retry.messages, ∀ record, retryRecord message = some record → ¬ ended message →
    message.offset < task.cursor.nextOrZero → record ∈ task.state.pendingRecords

section Follows

variable {ended ended' : PolledMessage I P → Prop} {task : RetryTask P} {retry : TopicPartition I P}

/-- Nothing is pending when a task starts. -/
theorem Follows.start (delays : List ℕ) {cursor : Cursor} (hnext : cursor.nextOrZero ≤ retry.next)
    (h : ∀ message ∈ retry.messages, message.offset < cursor.nextOrZero → ∀ record,
      retryRecord message = some record → ended message) : Follows ended ⟨.new delays, cursor⟩ retry where
  valid := RetryState.valid_new.mono (Nat.zero_le _)
  below := hnext
  pending message hm record hr hleft hlt := absurd (h message hm hlt record hr) hleft

/-- More has ended. -/
theorem Follows.mono (h : Follows ended task retry) (hended : ∀ message, ended message → ended' message) :
    Follows ended' task retry where
  valid := h.valid
  below := h.below
  pending message hm record hr hleft := h.pending message hm record hr fun ho => hleft (hended message ho)

/-- A batch was read. -/
theorem Follows.poll (h : Follows ended task retry) {batch : List (PolledMessage I P)} (hne : batch ≠ [])
    (hbatch : batch <+: retry.rest task.cursor.nextOrZero) (now nowMs : ℕ) :
    Follows ended (task.drainPolled batch now nowMs) retry := by
  have hsorted := TopicPartition.pairwise_batch hbatch
  have hmem : ∀ message ∈ batch, message ∈ retry.messages ∧ task.cursor.nextOrZero ≤ message.offset :=
    fun message hm => TopicPartition.mem_rest.mp (hbatch.subset hm)
  obtain ⟨hstate, hbelow⟩ := drainPolled_spec task now nowMs hne hsorted
  have hlast := List.getLast?_eq_some_getLast hne
  have hcursor : (task.drainPolled batch now nowMs).cursor.nextOrZero = (batch.getLast hne).offset + 1 := by
    unfold RetryTask.drainPolled
    rw [hlast]
    rfl
  have hle : task.cursor.nextOrZero ≤ (task.drainPolled batch now nowMs).cursor.nextOrZero := by
    have hlt := hbelow _ (List.getLast_mem hne)
    exact (hmem _ (List.getLast_mem hne)).2.trans hlt.le
  refine ⟨?_, ?_, fun message hm record hr hleft hlt => ?_⟩
  · rw [hstate]
    exact valid_foldl h.valid hle (fun m hm => ⟨(hmem m hm).2, hbelow m hm⟩) hsorted
  · rw [hcursor]
    exact retry.below _ (hmem _ (List.getLast_mem hne)).1
  · rw [hstate]
    rcases Nat.lt_or_ge message.offset task.cursor.nextOrZero with hold | hnew
    · exact mem_pendingRecords_foldl.mpr (Or.inl (h.pending message hm record hr hleft hold))
    · rw [hcursor] at hlt
      have hbatched := TopicPartition.mem_batch hbatch hlast hm hnew (Nat.le_of_lt_succ hlt)
      exact mem_pendingRecords_foldl.mpr (Or.inr ⟨message, hbatched, hr⟩)

/-- A round of attempts is done: what its outcomes take out must have ended. -/
theorem Follows.ran (h : Follows ended task retry) (hended : ∀ message, ended message → ended' message)
    {state : RetryState P} {outcomes : List Outcome} {now : ℕ}
    {work : List ((UInt64 × List (ParsedRecord P)) × KeyReport P)}
    (hwork : (state, outcomes) = finishReports now work task.state)
    (hgone : ∀ message ∈ retry.messages, ∀ record, retryRecord message = some record →
      ∀ key, record ∈ task.state.queue key → ∀ outcome ∈ outcomes, outcome.key = key →
        message.offset ∈ outcome.gone → ended' message) :
    Follows ended' { task with state } retry := by
  obtain ⟨rfl, rfl⟩ := Prod.mk.inj hwork
  refine ⟨valid_finishReports work h.valid, h.below, fun message hm record hr hleft hlt => ?_⟩
  have hpending := h.pending message hm record hr (fun ho => hleft (hended message ho)) hlt
  obtain ⟨key, hqueue⟩ := RetryState.mem_pendingRecords_iff_queue.mp hpending
  refine RetryState.mem_pendingRecords_iff_queue.mpr
    ⟨key, (mem_queue_finishReports work _).mpr ⟨hqueue, fun outcome ho hk hg => hleft ?_⟩⟩
  rw [offset_of_retryRecord hr] at hg
  exact hgone message hm record hr key hqueue outcome ho hk hg

/-- **The offset before the first pending record** is before every record that has not ended. -/
theorem Follows.commit (h : Follows ended task retry) {offset : ℕ} (hc : task.committable = some offset) :
    (∀ message ∈ retry.messages, ∀ record, retryRecord message = some record → ¬ ended message →
      offset < message.offset) ∧ offset < retry.next := by
  have hfirst : task.first = offset + 1 := RetryState.committable_eq_some.mp hc
  obtain ⟨hnext, hpending⟩ := h.valid.le_first_iff.mp (Nat.le_of_eq hfirst.symm)
  refine ⟨fun message hm record hr hleft => ?_, hnext.trans h.below⟩
  rcases Nat.lt_or_ge message.offset task.cursor.nextOrZero with hread | hunread
  · have hle := hpending record (h.pending message hm record hr hleft hread)
    rw [offset_of_retryRecord hr] at hle
    exact hle
  · exact Nat.lt_of_lt_of_le hnext hunread

/-- What is appended was not read. -/
theorem Follows.extends (h : Follows ended task retry) {retry' : TopicPartition I P}
    (hext : retry.Extends retry') : Follows ended task retry' where
  valid := h.valid
  below := h.below.trans hext.next
  pending message hm record hr hleft hlt :=
    h.pending message (hext.mem hm (hlt.trans_le h.below)) record hr hleft hlt

end Follows

end Wakuwaku.Iggy.Consumer
