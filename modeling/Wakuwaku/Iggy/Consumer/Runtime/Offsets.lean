import Wakuwaku.Iggy.Consumer.Runtime

/-! # The offset stored for the retry partition

`committable` looks only at the first record of every key and at the cursor. Since the keys hold their
records in offset order, that is the place of the first pending record, or of the next one to read
(`le_first_iff`). So everything read up to it is settled, no greater offset will do, and it never
moves back (`committable_safe`). -/

namespace Wakuwaku.Iggy.Consumer

open Wakuwaku.Iggy.Events Wakuwaku.Iggy.Partition

variable {I : IggyHeaders} {P O : Type}

/-! ### The first record that is not settled -/

namespace RetryState

variable {state : RetryState P} {next : ℕ}

/-- The offset of the first pending record, or of the next one to read. -/
def first (state : RetryState P) (nextRead : ℕ) : ℕ :=
  (state.keys.entries.filterMap fun e => e.2.records.head?.map (·.record.offset)).min?.getD nextRead

theorem committable_eq (state : RetryState P) (nextRead : ℕ) : state.committable nextRead =
    if state.first nextRead = 0 then none else some (state.first nextRead - 1) := rfl

theorem committable_eq_some {c : ℕ} : state.committable next = some c ↔ state.first next = c + 1 := by
  rw [committable_eq]
  split_ifs with h
  · simp [h]
  · rw [Option.some.injEq]
    omega

theorem committable_eq_none : state.committable next = none ↔ state.first next = 0 := by
  rw [committable_eq]
  split_ifs with h <;> simp [h]

/-- **The first record that is not settled** is the first one of all that are pending and the next one
to read. -/
theorem Valid.le_first_iff (h : state.Valid next) {x : ℕ} :
    x ≤ state.first next ↔ x ≤ next ∧ ∀ p ∈ state.pendingRecords, x ≤ p.record.offset := by
  have hfront : ∀ {o}, (o ∈ state.keys.entries.filterMap fun e =>
      e.2.records.head?.map (·.record.offset)) ↔ ∃ key retry p, state.keys.lookup key = some retry ∧
        retry.records.head? = some p ∧ p.record.offset = o := by
    intro o
    rw [List.mem_filterMap]
    constructor
    · rintro ⟨⟨key, retry⟩, he, ho⟩
      obtain ⟨p, hp, hpo⟩ := Option.map_eq_some_iff.mp ho
      exact ⟨key, retry, p, AList.mem_lookup_iff.mpr he, hp, hpo⟩
    · rintro ⟨key, retry, p, hk, hp, hpo⟩
      exact ⟨⟨key, retry⟩, AList.mem_lookup_iff.mp hk, Option.map_eq_some_iff.mpr ⟨p, hp, hpo⟩⟩
  -- every key has a first record, before its others
  have hhead : ∀ {p}, p ∈ state.pendingRecords → ∃ key retry q, state.keys.lookup key = some retry ∧
      retry.records.head? = some q ∧ q.record.offset ≤ p.record.offset := by
    intro p hp
    obtain ⟨key, retry, hk, hp⟩ := mem_pendingRecords.mp hp
    have hsorted := (h.key key retry hk).sorted
    cases hr : retry.records with
    | nil =>
      rw [hr] at hp
      cases hp
    | cons q rest =>
      rw [hr] at hp hsorted
      refine ⟨key, retry, q, hk, by rw [hr]; rfl, ?_⟩
      rcases List.mem_cons.mp hp with rfl | hp
      · exact Nat.le_refl _
      · exact ((List.pairwise_cons.mp hsorted).1 p hp).le
  unfold first
  cases hmin : (state.keys.entries.filterMap fun e => e.2.records.head?.map (·.record.offset)).min? with
  | none =>
    have hnil := List.min?_eq_none_iff.mp hmin
    refine ⟨fun hx => ⟨hx, fun p hp => ?_⟩, And.left⟩
    obtain ⟨key, retry, q, hk, hq, -⟩ := hhead hp
    have hmem := hfront.mpr ⟨key, retry, q, hk, hq, rfl⟩
    rw [hnil] at hmem
    cases hmem
  | some m =>
    obtain ⟨hm, hle⟩ := List.min?_eq_some_iff.mp hmin
    obtain ⟨key, retry, p, hk, hp, rfl⟩ := hfront.mp hm
    have hmem := List.mem_of_mem_head? hp
    refine ⟨fun hx => ⟨?_, fun p' hp' => ?_⟩, fun hx => hx.2 p (mem_pendingRecords.mpr ⟨key, retry, hk, hmem⟩)⟩
    · exact hx.trans ((h.key key retry hk).below p hmem).le
    · obtain ⟨key', retry', q, hk', hq, hqp⟩ := hhead hp'
      exact (hx.trans (hle _ (hfront.mpr ⟨key', retry', q, hk', hq, rfl⟩))).trans hqp

end RetryState

/-! ### What became of the records read -/

namespace RetryEvent

/-- The offsets of the records in completed runs. -/
def resolved (event : RetryEvent I P) : List ℕ := event.outcomes.flatMap (·.resolved)

/-- The offsets of the records dropped when their key gave up. -/
def dropped (event : RetryEvent I P) : List ℕ :=
  (event.outcomes.filter (·.finish.isGaveUp)).flatMap (·.failed)

end RetryEvent

/-- A record was in a completed run, was dropped when its key gave up, or was rejected for its
headers. -/
def Over (events : List (RetryEvent I P)) (offset : ℕ) : Prop :=
  offset ∈ events.flatMap RetryEvent.resolved ∨ offset ∈ events.flatMap RetryEvent.dropped ∨
    offset ∈ events.flatMap RetryEvent.rejected

/-- Every record read up to an offset is over, and none is pending. -/
def Settled (events : List (RetryEvent I P)) (task : RetryTask P) (n : ℕ) : Prop :=
  (∀ offset ∈ events.flatMap RetryEvent.read, offset ≤ n → Over events offset) ∧
    ∀ p ∈ task.state.pendingRecords, n < p.record.offset

/-- The offset that would be stored for the retry partition. -/
def RetryTask.committable (task : RetryTask P) : Option ℕ :=
  task.state.committable task.cursor.nextOrZero

/-- The offset of the first record that is not settled. -/
def RetryTask.first (task : RetryTask P) : ℕ := task.state.first task.cursor.nextOrZero

theorem Over.append {events : List (RetryEvent I P)} {offset : ℕ} (h : Over events offset)
    (event : RetryEvent I P) : Over (events ++ [event]) offset := by
  unfold Over at *
  simp only [List.flatMap_append, List.mem_append]
  exact h.imp Or.inl (Or.imp Or.inl Or.inl)

/-- What a key loses is over. -/
theorem over_of_gone {outcomes : List Outcome} {outcome : Outcome} (ho : outcome ∈ outcomes) {offset : ℕ}
    (h : offset ∈ outcome.gone) (events : List (RetryEvent I P)) :
    Over (events ++ [.ran outcomes]) offset := by
  have hran : ∀ {f : RetryEvent I P → List ℕ}, offset ∈ f (RetryEvent.ran outcomes) →
      offset ∈ (events ++ [RetryEvent.ran outcomes]).flatMap f := by
    intro f hf
    rw [List.flatMap_append, List.flatMap_singleton]
    exact List.mem_append_right _ hf
  unfold Outcome.gone at h
  split_ifs at h with hgave
  · rcases List.mem_append.mp h with h | h
    · exact Or.inl (hran (List.mem_flatMap.mpr ⟨outcome, ho, h⟩))
    · exact Or.inr (Or.inl (hran (List.mem_flatMap.mpr ⟨outcome, List.mem_filter.mpr ⟨ho, hgave⟩, h⟩)))
  · exact Or.inl (hran (List.mem_flatMap.mpr ⟨outcome, ho, h⟩))

/-! ### What every step keeps -/

/-- **The invariant of a task**: the schedule is valid below the cursor, and every record read is
pending or over. -/
structure Tracked (delays : List ℕ) (events : List (RetryEvent I P)) (task : RetryTask P) : Prop where
  valid : task.state.Valid task.cursor.nextOrZero
  delays : task.state.delays = delays
  read : ∀ offset ∈ events.flatMap RetryEvent.read,
    (∃ p ∈ task.state.pendingRecords, p.record.offset = offset) ∨ Over events offset

section Step

variable {handlers : HandlerList P O} {delays : List ℕ} {events : List (RetryEvent I P)}
  {event : RetryEvent I P} {task task' : RetryTask P}

theorem tracked_new (delays : List ℕ) (cursor : Cursor) :
    Tracked (I := I) delays [] (⟨.new delays, cursor⟩ : RetryTask P) :=
  ⟨RetryState.valid_new.mono (Nat.zero_le _), rfl, fun _ h => absurd h List.not_mem_nil⟩

/-- What a batch makes of a task: the cursor is after its messages. -/
theorem drainPolled_spec (task : RetryTask P) {messages : List (PolledMessage I P)} (now nowMs : ℕ)
    (hne : messages ≠ [])
    (hsorted : messages.Pairwise fun polled polled' => polled.offset < polled'.offset) :
    (task.drainPolled messages now nowMs).state = messages.foldl (enqueuePolled now nowMs) task.state ∧
      ∀ polled ∈ messages,
        polled.offset < (task.drainPolled messages now nowMs).cursor.nextOrZero := by
  have hlast := List.getLast?_eq_some_getLast hne
  generalize messages.getLast hne = last at hlast
  unfold RetryTask.drainPolled
  rw [hlast]
  refine ⟨rfl, fun polled hp => ?_⟩
  obtain ⟨init, rfl⟩ := List.getLast?_eq_some_iff.mp hlast
  rcases List.mem_append.mp hp with hp | hp
  · exact ((List.pairwise_append.mp hsorted).2.2 polled hp last (List.mem_singleton_self _)).trans
      (Nat.lt_succ_self _)
  · rw [List.mem_singleton.mp hp]
    exact Nat.lt_succ_self _

theorem Tracked.step (h : Tracked delays events task) (hs : RetryStep handlers task event task') :
    Tracked delays (events ++ [event]) task' := by
  cases hs with
  | @drained messages now nowMs hne hfrom hsorted =>
    obtain ⟨hstate, hbelow⟩ := drainPolled_spec task now nowMs hne hsorted
    obtain ⟨polled, hp⟩ := List.exists_mem_of_ne_nil _ hne
    have hle := (hfrom polled hp).trans (hbelow polled hp).le
    constructor
    · rw [hstate]
      exact valid_foldl h.valid hle (fun p hp => ⟨hfrom p hp, hbelow p hp⟩) hsorted
    · rw [hstate, delays_foldl, h.delays]
    · intro offset ho
      rw [List.flatMap_append, List.flatMap_singleton] at ho
      rw [hstate]
      rcases List.mem_append.mp ho with ho | ho
      · rcases h.read offset ho with ⟨p, hp, hpo⟩ | ho
        · exact Or.inl ⟨p, mem_pendingRecords_foldl.mpr (Or.inl hp), hpo⟩
        · exact Or.inr (ho.append _)
      · obtain ⟨polled, hp, rfl⟩ := List.mem_map.mp ho
        cases hrec : retryRecord polled with
        | none =>
          refine Or.inr (Or.inr (Or.inr ?_))
          rw [List.flatMap_append, List.flatMap_singleton]
          exact List.mem_append_right _ (List.mem_map.mpr ⟨polled, List.mem_filter.mpr ⟨hp, by simp [hrec]⟩, rfl⟩)
        | some record =>
          exact Or.inl ⟨record, mem_pendingRecords_foldl.mpr (Or.inr ⟨polled, hp, hrec⟩),
            offset_of_retryRecord hrec⟩
  | @ran due state outcomes started now hdue t ht =>
    obtain ⟨reports, -, heq⟩ := exists_reports ht
    obtain ⟨rfl, rfl⟩ := Prod.mk.inj heq
    refine ⟨valid_finishReports _ h.valid, (delays_finishReports _ _).trans h.delays, fun offset ho => ?_⟩
    rw [List.flatMap_append, List.flatMap_singleton, RetryEvent.read, List.append_nil] at ho
    rcases h.read offset ho with ⟨p, hp, rfl⟩ | ho
    · obtain ⟨key, hp⟩ := RetryState.mem_pendingRecords_iff_queue.mp hp
      by_cases hgone : ∃ outcome ∈ (finishReports now ((due.map fun key =>
          (key, task.state.records key)).zip reports) task.state).2, outcome.key = key ∧
            p.record.offset ∈ outcome.gone
      · obtain ⟨outcome, ho, -, hg⟩ := hgone
        exact Or.inr (over_of_gone ho hg _)
      · refine Or.inl ⟨p, RetryState.mem_pendingRecords_iff_queue.mpr ⟨key, ?_⟩, rfl⟩
        exact (mem_queue_finishReports _ _).mpr ⟨hp, fun o ho hk hg => hgone ⟨o, ho, hk, hg⟩⟩
    · exact Or.inr (ho.append _)

/-- The first record that is not settled never moves back. -/
theorem Tracked.first_le (h : Tracked delays events task) (hs : RetryStep handlers task event task') :
    task.first ≤ task'.first := by
  have h' := h.step hs
  obtain ⟨hnext, hpending⟩ := h.valid.le_first_iff.mp (Nat.le_refl task.first)
  refine h'.valid.le_first_iff.mpr ?_
  cases hs with
  | @drained messages now nowMs hne hfrom hsorted =>
    obtain ⟨hstate, hbelow⟩ := drainPolled_spec task now nowMs hne hsorted
    obtain ⟨polled, hp⟩ := List.exists_mem_of_ne_nil _ hne
    refine ⟨hnext.trans ((hfrom polled hp).trans (hbelow polled hp).le), fun p hp => ?_⟩
    rw [hstate] at hp
    rcases mem_pendingRecords_foldl.mp hp with hp | ⟨polled, hp, hrec⟩
    · exact hpending p hp
    · exact hnext.trans (offset_of_retryRecord hrec ▸ hfrom polled hp)
  | @ran due state outcomes started now hdue t ht =>
    obtain ⟨reports, -, heq⟩ := exists_reports ht
    obtain ⟨rfl, rfl⟩ := Prod.mk.inj heq
    refine ⟨hnext, fun p hp => ?_⟩
    obtain ⟨key, hp⟩ := RetryState.mem_pendingRecords_iff_queue.mp hp
    exact hpending p (RetryState.mem_pendingRecords_iff_queue.mpr
      ⟨key, ((mem_queue_finishReports _ _).mp hp).1⟩)

theorem Tracked.steps (h : Tracked delays events task) {events' : List (RetryEvent I P)}
    (hs : Steps (RetryStep handlers) task events' task') :
    Tracked delays (events ++ events') task' ∧ task.first ≤ task'.first := by
  induction hs with
  | nil => exact ⟨(List.append_nil events).symm ▸ h, Nat.le_refl _⟩
  | snoc _ hs ih => exact ⟨List.append_assoc events _ _ ▸ ih.1.step hs, ih.2.trans (ih.1.first_le hs)⟩

/-- A task that is tracked has settled exactly what comes before its first record. -/
theorem Tracked.settled_iff (h : Tracked delays events task) {n : ℕ}
    (hn : n < task.cursor.nextOrZero) : Settled events task n ↔ n < task.first := by
  constructor
  · intro hset
    exact h.valid.le_first_iff.mpr ⟨hn, hset.2⟩
  · intro hlt
    have hpending := (h.valid.le_first_iff.mp hlt).2
    refine ⟨fun offset ho hle => ?_, hpending⟩
    rcases h.read offset ho with ⟨p, hp, rfl⟩ | hover
    · exact absurd hle (Nat.not_le_of_lt (hpending p hp))
    · exact hover

end Step

/-- **The retry offset is safe and only moves forward**: it is the greatest offset before the cursor up
to which everything is settled, there is none if nothing is, and no step moves it back. -/
theorem committable_safe (handlers : HandlerList P O) {delays : List ℕ} {cursor : Cursor}
    {events : List (RetryEvent I P)} {task : RetryTask P}
    (h : Steps (RetryStep handlers) ⟨.new delays, cursor⟩ events task) :
    (∀ c, task.committable = some c → Settled events task c ∧ c < task.cursor.nextOrZero ∧
        ∀ n < task.cursor.nextOrZero, Settled events task n → n ≤ c) ∧
      (task.committable = none → ∀ n < task.cursor.nextOrZero, ¬ Settled events task n) ∧
      ∀ events' task', Steps (RetryStep (I := I) handlers) task events' task' →
        ∀ c, task.committable = some c → ∃ c', task'.committable = some c' ∧ c ≤ c' := by
  have htracked : Tracked delays events task := ((tracked_new delays cursor).steps h).1
  have hnext := (htracked.valid.le_first_iff.mp (Nat.le_refl task.first)).1
  refine ⟨fun c hc => ?_, fun hnone n hn hset => ?_, fun events' task' hs c hc => ?_⟩
  · have hfirst : task.first = c + 1 := RetryState.committable_eq_some.mp hc
    have hlt : c < task.cursor.nextOrZero := by omega
    refine ⟨(htracked.settled_iff hlt).mpr (by omega), hlt, fun n hn hset => ?_⟩
    have := (htracked.settled_iff hn).mp hset
    omega
  · have hfirst : task.first = 0 := RetryState.committable_eq_none.mp hnone
    have := (htracked.settled_iff hn).mp hset
    omega
  · have hfirst : task.first = c + 1 := RetryState.committable_eq_some.mp hc
    have hle := (htracked.steps hs).2
    refine ⟨task'.first - 1, RetryState.committable_eq_some.mpr ?_, by omega⟩
    show task'.first = _
    omega

/-- A message without headers, and a retry record after a gap. -/
def gappedBatch : List (PolledMessage rawHeaders ℕ) :=
  [⟨3, fun _ => none, 0⟩, ⟨5, (EventHeaders.toMap rawHeaders
    ⟨⟨1⟩, 7, ⟨.relaxed, .nonAssociative⟩⟩ (some ⟨3⟩)).toOption.getD fun _ => none, 0⟩]

/-- The task after the batch. -/
def gappedTask : RetryTask ℕ :=
  RetryTask.drainPolled ⟨.new [2000000000], ⟨none⟩⟩ gappedBatch 0 4

theorem committable_safe_gapped : Settled [.drained gappedBatch] gappedTask 4 ∧
    4 < gappedTask.cursor.nextOrZero ∧
      ∀ n < gappedTask.cursor.nextOrZero, Settled [.drained gappedBatch] gappedTask n → n ≤ 4 := by
  refine (committable_safe (.new (Registered.plain ⟨1⟩ (.nonAssociative : Marker ℕ)))
    ((Steps.nil).snoc (.drained 0 4 (List.cons_ne_nil _ _) (fun _ _ => Nat.zero_le _) ?_))).1 4 ?_
  · exact List.pairwise_pair.mpr (by decide)
  · decide

end Wakuwaku.Iggy.Consumer
