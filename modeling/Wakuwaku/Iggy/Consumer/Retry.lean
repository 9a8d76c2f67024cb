import Wakuwaku.Keyed
import Wakuwaku.Iggy.Consumer.Execute
import Mathlib.Tactic.SplitIfs

/-! # Schedule of the records read from a retry partition

A key is quarantined while it has a pending record. `enqueue` adds a record that was read, and
`finish` takes out what an attempt on a key resolved, and what it gives up. Whatever is done, the
state stays `Valid`: the keys hold their own records in offset order, and the counter counts them.
Instants and delays are in nanoseconds. -/

namespace Wakuwaku.Iggy.Consumer

open Wakuwaku.Iggy.Events

/-! ### Delays -/

/-- Delay before attempt `attempt + 1`. The last delay repeats forever. -/
def delayFor (delays : List ℕ) (attempt : ℕ) : ℕ :=
  ((delays[attempt]?).or delays.getLast?).getD 0

/-- The last instant that can be represented. -/
def instantMax : ℕ := 9223372036854775807999999999

/-- `Instant::checked_add`. -/
def checkedAdd (now delay : ℕ) : Option ℕ := if now + delay ≤ instantMax then some (now + delay) else none

def later (now delay : ℕ) : ℕ := (checkedAdd now delay).getD now

/-! ### The state -/

structure PendingRecord (P : Type) where
  /-- The record, with its offset in the retry partition. -/
  record : ParsedRecord P
  failedAtMs : ℕ
  deriving DecidableEq, Repr

structure KeyRetry (P : Type) where
  /-- In offset order. -/
  records : List (PendingRecord P)
  /-- Attempts that failed since the key appeared or last gave up. -/
  attempt : ℕ
  dueAt : ℕ
  deriving DecidableEq, Repr

structure RetryState (P : Type) where
  keys : AList fun _ : UInt64 => KeyRetry P
  /-- Records over all keys. -/
  pending : ℕ
  delays : List ℕ

/-- What happened to a key after a retry attempt. -/
inductive Finish where
  /-- No records are left; the key is no longer quarantined. -/
  | drained
  /-- The key runs again after `delay`. -/
  | scheduled (attempt delay : ℕ)
  /-- The last attempt failed; the records of the failed runs were dropped. -/
  | gaveUp (dropped : ℕ)
  deriving DecidableEq, Repr

/-- The key was given up for now. -/
def Finish.isGaveUp : Finish → Bool
  | .gaveUp _ => true
  | _ => false

variable {P : Type}

/-- The records that are not at one of the offsets. -/
def without (records : List (PendingRecord P)) (offsets : List ℕ) : List (PendingRecord P) :=
  records.filter fun pending => pending.record.offset ∉ offsets

/-- What is left without the records at `offsets`, and how many these were. -/
def removeOffsets (records : List (PendingRecord P)) (offsets : List ℕ) : List (PendingRecord P) × ℕ :=
  if offsets = [] then (records, 0)
  else
    let left := without records offsets
    (left, records.length - left.length)

namespace RetryState

def new (delays : List ℕ) : RetryState P := ⟨∅, 0, delays⟩

/-- Add a record read from the retry partition. A new key is due `delays[0]` after its record was
written. -/
def enqueue (state : RetryState P) (record : PendingRecord P) (now nowMs : ℕ) : RetryState P :=
  let elapsed := (nowMs - record.failedAtMs) * 1000000
  let retry := (state.keys.lookup record.record.headers.key).getD
    ⟨[], 0, later now (delayFor state.delays 0 - elapsed)⟩
  { state with
    keys := state.keys.insert record.record.headers.key { retry with records := retry.records ++ [record] }
    pending := state.pending + 1 }

def isQuarantined (state : RetryState P) (key : UInt64) : Bool := (state.keys.lookup key).isSome

def pendingLen (state : RetryState P) : ℕ := state.pending

def dueKeys (state : RetryState P) (now : ℕ) : List UInt64 :=
  (state.keys.entries.filter fun e => e.2.dueAt ≤ now).map (·.1)

/-- Every pending record of `key`, in offset order. -/
def records (state : RetryState P) (key : UInt64) : List (ParsedRecord P) :=
  ((state.keys.lookup key).map fun retry => retry.records.map (·.record)).getD []

/-- Record the outcome of an attempt on `key`: the offsets of records in completed runs and of records
in failed runs. -/
def finish (state : RetryState P) (key : UInt64) (resolved failed : List ℕ) (now : ℕ) :
    RetryState P × Finish :=
  match state.keys.lookup key with
  | none => (state, .drained)
  | some retry =>
    let (records, removed) := removeOffsets retry.records resolved
    let pending := state.pending - removed
    let (retry, pending, finish) : KeyRetry P × ℕ × Finish :=
      if failed = [] then (⟨records, retry.attempt, now⟩, pending, .scheduled retry.attempt 0)
      else
        let next := retry.attempt + 1
        match state.delays[next]? with
        | some delay => (⟨records, next, later now delay⟩, pending, .scheduled next delay)
        | none =>
          let (records, dropped) := removeOffsets records failed
          (⟨records, 0, now⟩, pending - dropped, .gaveUp dropped)
    if retry.records = [] then
      ({ state with keys := state.keys.erase key, pending }, if failed = [] then .drained else finish)
    else ({ state with keys := state.keys.insert key retry, pending }, finish)

/-- Offset to store for the retry partition: just before the first pending record, or the last read
record when nothing is pending. -/
def committable (state : RetryState P) (nextRead : ℕ) : Option ℕ :=
  let firstPending := (state.keys.entries.filterMap fun e =>
    e.2.records.head?.map (·.record.offset)).min?
  let first := firstPending.getD nextRead
  if first = 0 then none else some (first - 1)

/-! ### What a state holds -/

/-- The pending records of a key. -/
def queue (state : RetryState P) (key : UInt64) : List (PendingRecord P) :=
  ((state.keys.lookup key).map KeyRetry.records).getD []

/-- All pending records. -/
def pendingRecords (state : RetryState P) : List (PendingRecord P) :=
  Keyed.collect KeyRetry.records state.keys

end RetryState

/-- A key holds records of its own, in offset order and below `next`, and its attempts are counted up
to the last delay. -/
structure KeyRetry.Valid (retry : KeyRetry P) (key : UInt64) (delays next : ℕ) : Prop where
  nonempty : retry.records ≠ []
  sorted : retry.records.Pairwise fun p p' => p.record.offset < p'.record.offset
  own : ∀ p ∈ retry.records, p.record.headers.key = key
  attempt : retry.attempt ≤ delays - 1
  below : ∀ p ∈ retry.records, p.record.offset < next

/-- Every key is valid, and the counter counts their records. The records below `next` were read. -/
structure RetryState.Valid (state : RetryState P) (next : ℕ) : Prop where
  key : ∀ key retry, state.keys.lookup key = some retry → retry.Valid key state.delays.length next
  pending : state.pending = state.pendingRecords.length

namespace RetryState

variable {state : RetryState P} {key : UInt64} {retry : KeyRetry P} {next : ℕ}

theorem queue_eq (h : state.keys.lookup key = some retry) : state.queue key = retry.records := by
  rw [queue, h]
  rfl

theorem queue_eq_nil (h : state.keys.lookup key = none) : state.queue key = [] := by
  rw [queue, h]
  rfl

theorem records_eq (key : UInt64) : state.records key = (state.queue key).map (·.record) := by
  unfold records queue
  cases state.keys.lookup key <;> rfl

theorem Valid.mono {next' : ℕ} (h : state.Valid next) (hle : next ≤ next') : state.Valid next' where
  key key retry hk :=
    have hretry := h.key key retry hk
    { hretry with below := fun p hp => (hretry.below p hp).trans_le hle }
  pending := h.pending

theorem mem_pendingRecords {p : PendingRecord P} :
    p ∈ state.pendingRecords ↔ ∃ key retry, state.keys.lookup key = some retry ∧ p ∈ retry.records :=
  Keyed.mem_collect

theorem mem_pendingRecords_iff_queue {p : PendingRecord P} :
    p ∈ state.pendingRecords ↔ ∃ key, p ∈ state.queue key := by
  rw [mem_pendingRecords]
  refine exists_congr fun key => ?_
  cases hk : state.keys.lookup key with
  | none => simp [queue_eq_nil hk]
  | some retry => simp [queue_eq hk]

/-- A key is quarantined while one of its records is pending. -/
theorem Valid.isQuarantined_iff (h : state.Valid next) :
    state.isQuarantined key = true ↔ ∃ p ∈ state.pendingRecords, p.record.headers.key = key := by
  unfold isQuarantined
  rw [Option.isSome_iff_exists]
  constructor
  · rintro ⟨retry, hk⟩
    obtain ⟨p, hp⟩ := List.exists_mem_of_ne_nil _ (h.key key retry hk).nonempty
    exact ⟨p, mem_pendingRecords.mpr ⟨key, retry, hk, hp⟩, (h.key key retry hk).own p hp⟩
  · rintro ⟨p, hp, rfl⟩
    obtain ⟨key, retry, hk, hp⟩ := mem_pendingRecords.mp hp
    exact ⟨retry, ((h.key key retry hk).own p hp) ▸ hk⟩

theorem Valid.isQuarantined_iff_queue (h : state.Valid next) :
    state.isQuarantined key = true ↔ state.queue key ≠ [] := by
  unfold isQuarantined
  cases hk : state.keys.lookup key with
  | none => simp [queue_eq_nil hk]
  | some retry => simpa [queue_eq hk] using (h.key key retry hk).nonempty

/-- The records of a key are its own, in offset order and below `next`. -/
theorem Valid.of_queue (h : state.Valid next) (key : UInt64) :
    ((state.queue key).Pairwise fun p p' => p.record.offset < p'.record.offset) ∧
      ∀ p ∈ state.queue key, p.record.headers.key = key ∧ p.record.offset < next := by
  cases hk : state.keys.lookup key with
  | none =>
    rw [queue_eq_nil hk]
    exact ⟨.nil, fun p hp => absurd hp List.not_mem_nil⟩
  | some retry =>
    have hretry := h.key key retry hk
    rw [queue_eq hk]
    exact ⟨hretry.sorted, fun p hp => ⟨hretry.own p hp, hretry.below p hp⟩⟩

/-- The pending records are those of a key and those of the others. -/
theorem perm_pendingRecords (state : RetryState P) (key : UInt64) : state.pendingRecords.Perm
    (state.queue key ++ Keyed.collect KeyRetry.records (state.keys.erase key)) := by
  unfold pendingRecords
  cases hk : state.keys.lookup key with
  | none =>
    rw [queue_eq_nil hk, Keyed.erase_of_none hk]
    exact .refl _
  | some retry =>
    rw [queue_eq hk]
    exact Keyed.perm_collect hk

/-! ### Adding a record -/

theorem valid_new {delays : List ℕ} : (new delays : RetryState P).Valid 0 :=
  ⟨fun _ _ hk => (by cases hk), rfl⟩

section Enqueue

variable (record : PendingRecord P) (now nowMs : ℕ)

variable (state) in
/-- What a key holds after a record was added. -/
theorem enqueue_spec : ∃ retry,
    (state.enqueue record now nowMs).keys = state.keys.insert record.record.headers.key retry ∧
      retry.records = state.queue record.record.headers.key ++ [record] ∧
        retry.attempt = ((state.keys.lookup record.record.headers.key).map KeyRetry.attempt).getD 0 := by
  refine ⟨_, rfl, ?_, ?_⟩
  · unfold queue
    cases state.keys.lookup record.record.headers.key <;> rfl
  · cases state.keys.lookup record.record.headers.key <;> rfl

theorem lookup_enqueue_of_ne {k : UInt64} (hk : k ≠ record.record.headers.key) :
    (state.enqueue record now nowMs).keys.lookup k = state.keys.lookup k := by
  obtain ⟨retry, hkeys, -⟩ := enqueue_spec state record now nowMs
  rw [hkeys, AList.lookup_insert_ne hk]

/-- The record comes last in the queue of its key. -/
theorem queue_enqueue (k : UInt64) : (state.enqueue record now nowMs).queue k =
    if k = record.record.headers.key then state.queue k ++ [record] else state.queue k := by
  split_ifs with hk
  · obtain ⟨retry, hkeys, hrecords, -⟩ := enqueue_spec state record now nowMs
    subst hk
    rw [← hrecords]
    refine queue_eq ?_
    rw [hkeys, AList.lookup_insert]
  · unfold queue
    rw [lookup_enqueue_of_ne record now nowMs hk]

theorem mem_pendingRecords_enqueue {p : PendingRecord P} :
    p ∈ (state.enqueue record now nowMs).pendingRecords ↔ p ∈ state.pendingRecords ∨ p = record := by
  simp only [mem_pendingRecords_iff_queue, queue_enqueue]
  constructor
  · rintro ⟨k, hp⟩
    split_ifs at hp with hk
    · rcases List.mem_append.mp hp with hp | hp
      · exact Or.inl ⟨k, hp⟩
      · exact Or.inr (List.mem_singleton.mp hp)
    · exact Or.inl ⟨k, hp⟩
  · rintro (⟨k, hp⟩ | rfl)
    · refine ⟨k, ?_⟩
      split_ifs
      · exact List.mem_append_left _ hp
      · exact hp
    · exact ⟨p.record.headers.key, by simp⟩

theorem Valid.enqueue (h : state.Valid next) (hr : next ≤ record.record.offset) :
    (state.enqueue record now nowMs).Valid (record.record.offset + 1) := by
  obtain ⟨retry, hkeys, hrecords, hattempt⟩ := enqueue_spec state record now nowMs
  obtain ⟨hsorted, hqueue⟩ := h.of_queue record.record.headers.key
  constructor
  · intro key retry' hk
    rw [hkeys] at hk
    by_cases hkey : key = record.record.headers.key
    · subst hkey
      rw [AList.lookup_insert] at hk
      cases hk
      constructor
      · rw [hrecords]
        exact List.append_ne_nil_of_right_ne_nil _ (List.cons_ne_nil _ _)
      · rw [hrecords, List.pairwise_append]
        refine ⟨hsorted, List.pairwise_singleton _ _, fun p hp p' hp' => ?_⟩
        rw [List.mem_singleton.mp hp']
        exact (hqueue p hp).2.trans_le hr
      · intro p hp
        rw [hrecords] at hp
        rcases List.mem_append.mp hp with hp | hp
        · exact (hqueue p hp).1
        · rw [List.mem_singleton.mp hp]
      · rw [hattempt]
        cases hk : state.keys.lookup record.record.headers.key with
        | none => exact Nat.zero_le _
        | some old => exact (h.key _ old hk).attempt
      · intro p hp
        rw [hrecords] at hp
        rcases List.mem_append.mp hp with hp | hp
        · exact ((hqueue p hp).2.trans_le hr).trans (Nat.lt_succ_self _)
        · rw [List.mem_singleton.mp hp]
          exact Nat.lt_succ_self _
    · rw [AList.lookup_insert_ne hkey] at hk
      obtain ⟨h1, h2, h3, h4, h5⟩ := h.key key retry' hk
      exact ⟨h1, h2, h3, h4, fun p hp => (h5 p hp).trans_le (hr.trans (Nat.le_succ _))⟩
  · have htotal := (state.perm_pendingRecords record.record.headers.key).length_eq
    show state.pending + 1 = (Keyed.collect KeyRetry.records _).length
    rw [hkeys, Keyed.collect_insert, hrecords, h.pending, htotal]
    simp only [List.length_append, List.length_singleton]
    omega

end Enqueue

/-! ### Finishing an attempt -/

theorem removeOffsets_eq (records : List (PendingRecord P)) (offsets : List ℕ) :
    removeOffsets records offsets =
      (without records offsets, records.length - (without records offsets).length) := by
  unfold removeOffsets
  split_ifs with h
  · simp [without, h]
  · rfl

theorem without_sublist (records : List (PendingRecord P)) (offsets : List ℕ) :
    (without records offsets).Sublist records := List.filter_sublist

/-- The state with what is left of a key, or without the key if nothing is left. -/
def put (state : RetryState P) (key : UInt64) (old new : KeyRetry P) : RetryState P :=
  { state with
    keys := if new.records = [] then state.keys.erase key else state.keys.insert key new
    pending := state.pending - (old.records.length - new.records.length) }

section Finish

variable {resolved failed : List ℕ} {now : ℕ}

theorem finish_none (h : state.keys.lookup key = none) :
    state.finish key resolved failed now = (state, .drained) := by
  unfold finish
  rw [h]

/-- **What finishing an attempt does to a key**: no run failed, or the key runs again, or it gave up. -/
theorem finish_cases (h : state.keys.lookup key = some retry) :
    failed = [] ∧ state.finish key resolved failed now =
        (state.put key retry ⟨without retry.records resolved, retry.attempt, now⟩,
          if without retry.records resolved = [] then .drained else .scheduled retry.attempt 0) ∨
      (failed ≠ [] ∧ ∃ delay, state.delays[retry.attempt + 1]? = some delay ∧
        state.finish key resolved failed now =
          (state.put key retry ⟨without retry.records resolved, retry.attempt + 1, later now delay⟩,
            .scheduled (retry.attempt + 1) delay)) ∨
      failed ≠ [] ∧ state.delays.length ≤ retry.attempt + 1 ∧ state.finish key resolved failed now =
        (state.put key retry ⟨without (without retry.records resolved) failed, 0, now⟩,
          .gaveUp ((without retry.records resolved).length -
            (without (without retry.records resolved) failed).length)) := by
  unfold finish put
  simp only [h, removeOffsets_eq]
  by_cases hf : failed = []
  · refine Or.inl ⟨hf, ?_⟩
    simp only [hf, if_true]
    split_ifs <;> rfl
  · simp only [hf, if_false]
    cases hd : state.delays[retry.attempt + 1]? with
    | some delay =>
      refine Or.inr (Or.inl ⟨hf, delay, rfl, ?_⟩)
      simp only
      split_ifs <;> rfl
    | none =>
      refine Or.inr (Or.inr ⟨hf, List.getElem?_eq_none_iff.mp hd, ?_⟩)
      have h1 := (without_sublist retry.records resolved).length_le
      have h2 := (without_sublist (without retry.records resolved) failed).length_le
      have hsub : ∀ n : ℕ, n - (retry.records.length - (without retry.records resolved).length) -
          ((without retry.records resolved).length -
            (without (without retry.records resolved) failed).length) =
          n - (retry.records.length - (without (without retry.records resolved) failed).length) := by
        omega
      simp only [hsub]
      split_ifs <;> rfl

theorem lookup_put {old new : KeyRetry P} (k : UInt64) : (state.put key old new).keys.lookup k =
    if k = key then (if new.records = [] then none else some new) else state.keys.lookup k := by
  unfold put
  by_cases hk : k = key
  · subst hk
    rw [if_pos rfl]
    split_ifs <;> simp
  · rw [if_neg hk]
    split_ifs <;> simp [hk]

theorem queue_put {old new : KeyRetry P} (k : UInt64) :
    (state.put key old new).queue k = if k = key then new.records else state.queue k := by
  unfold queue
  rw [lookup_put]
  split_ifs with hk hn
  · simp [hn]
  · rfl
  · rfl

theorem Valid.put {old new : KeyRetry P} (h : state.Valid next) (hk : state.keys.lookup key = some old)
    (hs : new.records.Sublist old.records) (ha : new.attempt ≤ state.delays.length - 1) :
    (state.put key old new).Valid next := by
  have hold := h.key key old hk
  constructor
  · intro k retry hk
    rw [lookup_put] at hk
    split_ifs at hk with hkey hn
    · cases hk
      subst hkey
      exact ⟨hn, hold.sorted.sublist hs, fun p hp => hold.own p (hs.subset hp), ha,
        fun p hp => hold.below p (hs.subset hp)⟩
    · exact h.key k retry hk
  · have hlen := hs.length_le
    have htotal := (state.perm_pendingRecords key).length_eq
    have htotal' := ((state.put key old new).perm_pendingRecords key).length_eq
    have herase : (state.put key old new).keys.erase key = state.keys.erase key := by
      unfold RetryState.put
      split_ifs
      · exact Keyed.erase_of_none (AList.lookup_erase _ _)
      · exact Keyed.erase_insert _
    rw [List.length_append, queue_eq hk] at htotal
    rw [List.length_append, queue_put, if_pos rfl, herase] at htotal'
    show state.pending - _ = _
    rw [h.pending]
    omega

theorem Valid.finish (h : state.Valid next) (key : UInt64) (resolved failed : List ℕ) (now : ℕ) :
    (state.finish key resolved failed now).1.Valid next := by
  cases hk : state.keys.lookup key with
  | none =>
    rw [finish_none hk]
    exact h
  | some retry =>
    have hretry := h.key key retry hk
    have hleft := without_sublist retry.records resolved
    rcases finish_cases hk with ⟨-, hf⟩ | ⟨-, delay, hd, hf⟩ | ⟨-, -, hf⟩
    · rw [hf]
      exact h.put hk hleft hretry.attempt
    · rw [hf]
      exact h.put hk hleft (Nat.le_sub_one_of_lt (List.getElem?_eq_some_iff.mp hd).1)
    · rw [hf]
      exact h.put hk ((without_sublist _ failed).trans hleft) (Nat.zero_le _)

/-- Finishing an attempt on a key puts down what is left of it. -/
theorem exists_put_of_finish (h : state.keys.lookup key = some retry) (resolved failed : List ℕ) (now : ℕ) :
    ∃ new, (state.finish key resolved failed now).1 = state.put key retry new := by
  rcases finish_cases h with ⟨-, hf⟩ | ⟨-, delay, -, hf⟩ | ⟨-, -, hf⟩
  · exact ⟨_, congrArg Prod.fst hf⟩
  · exact ⟨_, congrArg Prod.fst hf⟩
  · exact ⟨_, congrArg Prod.fst hf⟩

theorem finish_delays (now : ℕ) : (state.finish key resolved failed now).1.delays = state.delays := by
  cases hk : state.keys.lookup key with
  | none => rw [finish_none hk]
  | some retry =>
    obtain ⟨new, hput⟩ := exists_put_of_finish hk resolved failed now
    rw [hput]
    rfl

/-- An attempt on a key leaves the others alone. -/
theorem lookup_finish_of_ne {k : UInt64} (hk : k ≠ key) :
    (state.finish key resolved failed now).1.keys.lookup k = state.keys.lookup k := by
  cases hkey : state.keys.lookup key with
  | none => rw [finish_none hkey]
  | some retry =>
    obtain ⟨new, hput⟩ := exists_put_of_finish hkey resolved failed now
    rw [hput, lookup_put, if_neg hk]

theorem queue_finish_of_ne {k : UInt64} (hk : k ≠ key) :
    (state.finish key resolved failed now).1.queue k = state.queue k := by
  unfold queue
  rw [lookup_finish_of_ne hk]

/-- **What is left of a key** after an attempt: the resolved records go, and if the key gives up the
failed ones too. -/
theorem queue_finish : (state.finish key resolved failed now).1.queue key =
    (state.queue key).filter fun p => p.record.offset ∉ resolved ∧
      ¬((state.finish key resolved failed now).2.isGaveUp = true ∧ p.record.offset ∈ failed) := by
  cases hk : state.keys.lookup key with
  | none => rw [finish_none hk, queue_eq_nil hk, List.filter_nil]
  | some retry =>
    -- nothing but the resolved records goes unless the key gives up
    have hkeep : ∀ result : Finish, result.isGaveUp = false → without retry.records resolved =
        retry.records.filter fun p => p.record.offset ∉ resolved ∧
          ¬(result.isGaveUp = true ∧ p.record.offset ∈ failed) := by
      intro result hr
      refine List.filter_congr fun p _ => ?_
      simp [hr]
    rw [queue_eq hk]
    rcases finish_cases hk with ⟨-, hf⟩ | ⟨-, delay, -, hf⟩ | ⟨-, -, hf⟩
    · rw [hf, queue_put, if_pos rfl]
      exact hkeep _ (by split_ifs <;> rfl)
    · rw [hf, queue_put, if_pos rfl]
      exact hkeep _ rfl
    · rw [hf, queue_put, if_pos rfl]
      show (retry.records.filter _).filter _ = _
      rw [List.filter_filter]
      refine List.filter_congr fun p _ => ?_
      simp [Finish.isGaveUp, Bool.and_comm]

end Finish

end RetryState

/-! ### Runs of the schedule -/

/-- The outcome of an attempt on a key: some pending records are resolved, some others failed. -/
structure RetryState.Attempted (state : RetryState P) (key : UInt64) (resolved failed : List ℕ) :
    Prop where
  pending : ∀ offset ∈ resolved, ∃ p ∈ state.queue key, p.record.offset = offset
  pending' : ∀ offset ∈ failed, ∃ p ∈ state.queue key, p.record.offset = offset
  disjoint : ∀ offset ∈ resolved, offset ∉ failed
  some : resolved ≠ [] ∨ failed ≠ []

/-- The states reached by adding records in offset order, the next one at `next` or later, and by
finishing attempts. -/
inductive RetryState.Reached (delays : List ℕ) : RetryState P → ℕ → Prop where
  | new : Reached delays (.new delays) 0
  | enqueue {state next} {record : PendingRecord P} (h : Reached delays state next)
      (hr : next ≤ record.record.offset) (now nowMs : ℕ) :
      Reached delays (state.enqueue record now nowMs) (record.record.offset + 1)
  | finish {state next key resolved failed} (h : Reached delays state next)
      (ha : state.Attempted key resolved failed) (now : ℕ) :
      Reached delays (state.finish key resolved failed now).1 next

/-- What finishing an attempt did to the records. -/
structure RetryState.Finished (state : RetryState P) (key : UInt64) (resolved failed : List ℕ)
    (after : RetryState P) (result : Finish) : Prop where
  others : ∀ k, k ≠ key → after.queue k = state.queue k
  /-- The resolved records go, and if the key gives up the failed ones too. -/
  left : after.queue key = (state.queue key).filter fun p =>
    p.record.offset ∉ resolved ∧ ¬(result.isGaveUp = true ∧ p.record.offset ∈ failed)
  drained : result = .drained → after.queue key = []
  gaveUp : ∀ dropped, result = .gaveUp dropped →
    dropped = ((state.queue key).filter fun p => p.record.offset ∈ failed).length
  /-- The quarantine is lifted when nothing is left. -/
  lifted : after.isQuarantined key = false ↔ after.queue key = []

namespace RetryState

variable {state : RetryState P} {key : UInt64} {next : ℕ} {resolved failed : List ℕ} {delays : List ℕ}

theorem Reached.valid (h : Reached delays state next) : state.Valid next ∧ state.delays = delays := by
  induction h with
  | new => exact ⟨valid_new, rfl⟩
  | enqueue h hr now nowMs ih => exact ⟨ih.1.enqueue _ now nowMs hr, ih.2⟩
  | finish h ha now ih => exact ⟨ih.1.finish _ _ _ now, (finish_delays now).trans ih.2⟩

/-- What an attempt drops of a key that gives up. -/
theorem length_without (records : List (PendingRecord P)) (hdisj : ∀ offset ∈ resolved, offset ∉ failed) :
    (without records resolved).length - (without (without records resolved) failed).length =
      (records.filter fun p => p.record.offset ∈ failed).length := by
  have hsplit := List.length_eq_length_filter_add (l := without records resolved)
    fun p => decide (p.record.offset ∈ failed)
  have hfailed : (without records resolved).filter (fun p => decide (p.record.offset ∈ failed)) =
      records.filter fun p => decide (p.record.offset ∈ failed) := by
    unfold without
    rw [List.filter_filter]
    refine List.filter_congr fun p _ => ?_
    by_cases hp : p.record.offset ∈ failed
    · have hres : p.record.offset ∉ resolved := fun hr => hdisj _ hr hp
      simp [hp, hres]
    · simp [hp]
  have hleft : (without records resolved).filter (fun p => !decide (p.record.offset ∈ failed)) =
      without (without records resolved) failed :=
    List.filter_congr fun p _ => by simp
  rw [hfailed, hleft] at hsplit
  omega

theorem Valid.finished (h : state.Valid next) (ha : state.Attempted key resolved failed) (now : ℕ) :
    state.Finished key resolved failed (state.finish key resolved failed now).1
      (state.finish key resolved failed now).2 := by
  have hvalid := h.finish key resolved failed now
  have hlifted : (state.finish key resolved failed now).1.isQuarantined key = false ↔
      (state.finish key resolved failed now).1.queue key = [] := by
    rw [← not_iff_not, Bool.not_eq_false]
    exact hvalid.isQuarantined_iff_queue
  cases hk : state.keys.lookup key with
  | none =>
    have hnil := queue_eq_nil hk
    rcases ha.some with hne | hne
    · obtain ⟨offset, ho⟩ := List.exists_mem_of_ne_nil _ hne
      obtain ⟨p, hp, -⟩ := ha.pending offset ho
      exact absurd hp (hnil ▸ List.not_mem_nil)
    · obtain ⟨offset, ho⟩ := List.exists_mem_of_ne_nil _ hne
      obtain ⟨p, hp, -⟩ := ha.pending' offset ho
      exact absurd hp (hnil ▸ List.not_mem_nil)
  | some retry =>
    have hqueue := queue_eq hk
    refine ⟨fun k hne => queue_finish_of_ne hne, queue_finish, ?_, ?_, hlifted⟩
    · intro hdrained
      rcases finish_cases hk with ⟨-, hf⟩ | ⟨-, delay, -, hf⟩ | ⟨-, -, hf⟩
      · rw [hf] at hdrained ⊢
        rw [queue_put, if_pos rfl]
        by_contra hne
        rw [if_neg hne] at hdrained
        cases hdrained
      · rw [hf] at hdrained
        cases hdrained
      · rw [hf] at hdrained
        cases hdrained
    · intro dropped hgave
      rcases finish_cases hk with ⟨-, hf⟩ | ⟨-, delay, -, hf⟩ | ⟨-, -, hf⟩
      · rw [hf] at hgave
        split_ifs at hgave
      · rw [hf] at hgave
        cases hgave
      · rw [hf] at hgave
        cases hgave
        rw [hqueue]
        exact length_without retry.records ha.disjoint

/-- **The invariant of the retry schedule**: in every state that is reached the keys hold their own
records, in offset order and with attempts left, the counter counts them, a key is quarantined while
it has one, and finishing an attempt takes out what it says. -/
theorem schedule_invariant (hd : delays ≠ []) (h : Reached delays state next) :
    (∀ key retry, state.keys.lookup key = some retry → retry.records ≠ [] ∧
      (retry.records.Pairwise fun p p' => p.record.offset < p'.record.offset) ∧
        (∀ p ∈ retry.records, p.record.headers.key = key) ∧ retry.attempt < delays.length) ∧
      state.pendingLen = state.pendingRecords.length ∧
      (∀ key, state.isQuarantined key = true ↔
        ∃ p ∈ state.pendingRecords, p.record.headers.key = key) ∧
      ∀ key resolved failed now, state.Attempted key resolved failed →
        state.Finished key resolved failed (state.finish key resolved failed now).1
          (state.finish key resolved failed now).2 := by
  obtain ⟨hvalid, rfl⟩ := h.valid
  have hpos := List.length_pos_iff.mpr hd
  refine ⟨fun key retry hk => ?_, hvalid.pending, fun key => hvalid.isQuarantined_iff,
    fun key resolved failed now ha => hvalid.finished ha now⟩
  obtain ⟨h1, h2, h3, h4, -⟩ := hvalid.key key retry hk
  exact ⟨h1, h2, h3, by omega⟩

/-- A record of key 7. -/
def sample (offset : ℕ) : PendingRecord ℕ :=
  ⟨⟨offset, ⟨⟨1⟩, 7, ⟨.relaxed, .nonAssociative⟩⟩, 0⟩, 1000000⟩

/-- One record is resolved, and the other one is given up at its last attempt. -/
theorem schedule_invariant_sample :
    (((new [2000000000]).enqueue (sample 1) 0 1000000).enqueue (sample 4) 0 1000000).Finished 7 [1] [4]
      ⟨∅, 0, [2000000000]⟩ (.gaveUp 1) := by
  refine (schedule_invariant (List.cons_ne_nil _ _) (((Reached.new).enqueue (Nat.zero_le _) 0 1000000).enqueue
    (by decide) 0 1000000)).2.2.2 7 [1] [4] 0 ⟨?_, ?_, by decide, by decide⟩
  · intro offset ho
    rw [List.mem_singleton.mp ho]
    exact ⟨sample 1, List.mem_cons_self, rfl⟩
  · intro offset ho
    rw [List.mem_singleton.mp ho]
    exact ⟨sample 4, List.mem_cons_of_mem _ List.mem_cons_self, rfl⟩

end RetryState

end Wakuwaku.Iggy.Consumer
