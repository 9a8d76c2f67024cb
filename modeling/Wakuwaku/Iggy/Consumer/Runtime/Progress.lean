import Wakuwaku.Iggy.Partition.Independent
import Wakuwaku.Iggy.Consumer.Account
import Wakuwaku.Iggy.Consumer.Chunks
import Wakuwaku.Iggy.Consumer.Returns
import Wakuwaku.Iggy.Consumer.Runtime.Offsets

/-! # Retrying a key makes progress

An attempt plans all pending records of a key, so its report accounts for each of them, and if no run
failed all of them are resolved (`attempt_spec`). What it reports of a record is what the run of the
record came to, which made some of the calls of the attempt (`runEnded_of_attempt`). An attempt with a
failed run counts towards giving up, and giving up drops the records of a failed run. Both lower the
number of attempts that are left (`potential`), so a key without new records is drained in time
(`retry_progress`). -/

namespace Wakuwaku.Iggy.Consumer

open Wakuwaku.Iggy.Events Wakuwaku.Iggy.Partition Wakuwaku.Iggy.Consumer.Execution

variable {I : IggyHeaders} {P O : Type}

/-! ### What a report accounts for -/

/-- The indices of the records in failed runs. -/
def KeyReport.failedRecords (report : KeyReport P) : List ℕ :=
  report.failure.toList.flatMap fun failure => failure.failedRuns.flatMap (·.records)

section Attempt

variable {handlers : HandlerList P O} {records : List (ParsedRecord P)} {t : List (Call O)}
  {report : KeyReport P}

/-- A report lists the records of the runs that were started, by what they came to. -/
theorem report_started {plan : Plan UInt64} {key : KeyPlan UInt64}
    (h : executeKey handlers plan key records t (some report)) :
    ∃ s, report.completed = recordsWith plan key s .completed ∧
      report.failedRecords = recordsWith plan key s .failed ∧
        ∀ e ∈ s, ∃ r u, e.result = some r ∧ u.Sublist t ∧
          runOne handlers plan records e.work.run u (some r) := by
  obtain ⟨s, hs, hex⟩ := executeKey_start h
  obtain ⟨results, hperm, hcomp, ran : Ran _ (workOf _ key) _ _⟩ := key_ran hs
  rw [List.nil_append, Account.completed_eq ran hperm] at hcomp
  exact ⟨s, hcomp, Account.failedRuns_eq ran hperm, hex⟩

/-- A report accounts for the records of its key, and for all of them if no record failed. -/
theorem report_spec {key : KeyPlan UInt64} (hkey : key ∈ (Plan.new (planRecords records)).keys)
    (h : executeKey handlers (Plan.new (planRecords records)) key records t (some report)) :
    ∃ unstarted, (report.completed ++ report.failedRecords ++ unstarted).Perm
        ((List.range records.length).filter fun i => (records[i]?).map (·.headers.key) = some key.key) ∧
      (report.failedRecords = [] → unstarted = []) := by
  obtain ⟨s, hs, -⟩ := executeKey_start h
  obtain ⟨results, hperm, hcomp, ran : Ran _ (workOf _ key) _ _⟩ := key_ran hs
  have hfailed : report.failedRecords = recordsWith _ key s .failed := Account.failedRuns_eq ran hperm
  refine ⟨recordsWith (Plan.new (planRecords records)) key s .unstarted, ?_, fun hnil => ?_⟩
  · rw [hcomp, List.nil_append, Account.completed_eq ran hperm, hfailed]
    refine Account.perm_recordsWith.trans ((Account.perm_workOf hkey).trans ?_)
    simp [planRecords, Function.comp_def]
  · have hnone : report.failure = none := by
      cases hf : report.failure with
      | none => rfl
      | some f =>
        obtain ⟨-, -, -, -, ⟨w, result⟩, he, hne⟩ := ran.upTo f hf
        have hw := (Account.sublist_results ran).subset (List.mem_map_of_mem he)
        obtain ⟨i, hi⟩ := List.exists_mem_of_ne_nil _ (Account.records_of_workOf hkey hw).1
        have hfate : Fate.of (resultOf s w) = .failed := by
          rw [Account.resultOf_mem ran hperm he]
          cases result with
          | done => exact absurd rfl hne
          | failed => rfl
        have hmem : i ∈ recordsWith (Plan.new (planRecords records)) key s .failed :=
          List.mem_flatMap.mpr ⟨w, List.mem_filter.mpr ⟨hw, by simp [hfate]⟩, hi⟩
        rw [← hfailed, hnil] at hmem
        cases hmem
    have hdone := (Account.failure_eq_none_iff ran hperm).mp hnone
    rw [recordsWith, List.filter_eq_nil_iff.mpr, List.flatMap_nil]
    intro w hw
    simp [hdone w hw, Fate.of]

/-- The run of the record at an index ended with a result, after some of the calls. -/
def RunEnded (handlers : HandlerList P O) (records : List (ParsedRecord P)) (calls : List (Call O))
    (i : ℕ) (result : RunResult P) : Prop :=
  ∃ key ∈ (Plan.new (planRecords records)).keys, ∃ w ∈ workOf (Plan.new (planRecords records)) key,
    i ∈ (Plan.new (planRecords records)).records w.run ∧ ∃ u, u.Sublist calls ∧
      runOne handlers (Plan.new (planRecords records)) records w.run u (some result)

theorem runEnded_of_recordsWith {key : KeyPlan UInt64} (hkey : key ∈ (Plan.new (planRecords records)).keys)
    {s : List (Started P)} (hs : ∀ e ∈ s, ∃ r u, e.result = some r ∧ u.Sublist t ∧
      runOne handlers (Plan.new (planRecords records)) records e.work.run u (some r))
    {fate : Fate} (hfate : fate ≠ .unstarted) {i : ℕ}
    (hi : i ∈ recordsWith (Plan.new (planRecords records)) key s fate) :
    ∃ result, Fate.of (some result) = fate ∧ RunEnded handlers records t i result := by
  obtain ⟨w, hfilter, hiw⟩ := List.mem_flatMap.mp hi
  obtain ⟨hw, hwfate⟩ := List.mem_filter.mp hfilter
  obtain rfl : Fate.of (resultOf s w) = fate := by simpa using hwfate
  unfold resultOf at hfate ⊢
  cases hfind : s.find? (·.work = w) with
  | none => exact absurd (by rw [hfind]; rfl) hfate
  | some e =>
    obtain ⟨r, u, hr, hsub, hu⟩ := hs e (List.mem_of_find?_eq_some hfind)
    obtain rfl : e.work = w := by simpa using List.find?_some hfind
    rw [Option.bind_some, hr]
    exact ⟨r, rfl, key, hkey, e.work, hw, hiw, u, hsub, hu⟩

/-- **What an attempt reports of a record is what the run of the record came to.** -/
theorem runEnded_of_attempt (h : attempt handlers records t (some report)) :
    (∀ i ∈ report.completed, RunEnded handlers records t i .done) ∧
      ∀ i ∈ report.failedRecords, ∃ error remainder,
        RunEnded handlers records t i (.failed error remainder) := by
  unfold attempt at h
  cases hk : (Plan.new (planRecords records)).keys.head? with
  | none =>
    rw [hk] at h
    obtain ⟨-, rfl⟩ := Async.pure_iff.mp h
    exact ⟨nofun, nofun⟩
  | some key =>
    rw [hk] at h
    have hkey := List.mem_of_mem_head? hk
    obtain ⟨s, hcomp, hfailed, hs⟩ := report_started h
    refine ⟨fun i hi => ?_, fun i hi => ?_⟩
    · obtain ⟨result, hfate, hended⟩ := runEnded_of_recordsWith hkey hs (by decide) (hcomp ▸ hi)
      cases result with
      | done => exact hended
      | failed error remainder => cases hfate
    · obtain ⟨result, hfate, hended⟩ := runEnded_of_recordsWith hkey hs (by decide) (hfailed ▸ hi)
      cases result with
      | done => cases hfate
      | failed error remainder => exact ⟨error, remainder, hended⟩

/-- **An attempt on the records of a key accounts for all of them.** -/
theorem attempt_spec {key : UInt64} (hne : records ≠ []) (hown : ∀ r ∈ records, r.headers.key = key)
    (h : attempt handlers records t (some report)) :
    ∃ unstarted, (report.completed ++ report.failedRecords ++ unstarted).Perm
        (List.range records.length) ∧ (report.failedRecords = [] → unstarted = []) := by
  have hkeys : ∀ r ∈ planRecords records, r.key = key := by
    intro r hr
    obtain ⟨record, hrecord, rfl⟩ := List.mem_map.mp hr
    exact hown record hrecord
  have hmem : key ∈ (planRecords records).map PlanRecord.key := by
    obtain ⟨record, hrecord⟩ := List.exists_mem_of_ne_nil _ hne
    exact List.mem_map.mpr ⟨_, List.mem_map.mpr ⟨record, hrecord, rfl⟩, hown record hrecord⟩
  obtain ⟨kp, hkp, hkey⟩ := Independent.keys_alone hmem
  rw [List.filter_eq_self.mpr fun r hr => by simp [hkeys r hr]] at hkp
  have hrange : ((List.range records.length).filter fun i =>
      (records[i]?).map (·.headers.key) = some kp.key) = List.range records.length := by
    refine List.filter_eq_self.mpr fun i hi => ?_
    have hlt := List.mem_range.mp hi
    simp [List.getElem?_eq_getElem hlt, hown _ (List.getElem_mem hlt), hkey]
  unfold attempt at h
  rw [hkp, List.head?_cons] at h
  exact hrange ▸ report_spec (hkp ▸ List.mem_singleton_self kp) h

/-- An attempt can succeed. -/
theorem canReturn_attempt (handlers : HandlerList P O) (records : List (ParsedRecord P)) :
    (attempt handlers records).CanReturn (·.result = some (.ok ())) (·.failure = none) := by
  unfold attempt
  dsimp only
  cases (Plan.new (planRecords records)).keys.head? with
  | none => exact Async.canReturn_pure rfl
  | some key => exact Returns.canReturn_executeKey key

end Attempt

/-! ### One attempt -/

theorem mem_offsetsOf {records : List (ParsedRecord P)} {indices : List ℕ} {offset : ℕ} :
    offset ∈ offsetsOf records indices ↔
      ∃ i ∈ indices, ∃ r, records[i]? = some r ∧ r.offset = offset := by
  simp only [offsetsOf, List.mem_filterMap, Option.map_eq_some_iff]

theorem finishReport_eq (state : RetryState P) (key : UInt64) (records : List (ParsedRecord P))
    (report : KeyReport P) (now : ℕ) : finishReport state key records report now =
      ((state.finish key (offsetsOf records report.completed)
          (offsetsOf records report.failedRecords) now).1,
        ⟨key, offsetsOf records report.completed, offsetsOf records report.failedRecords,
          (state.finish key (offsetsOf records report.completed)
            (offsetsOf records report.failedRecords) now).2⟩) := by
  unfold finishReport KeyReport.failedRecords
  cases report.failure with
  | none => rfl
  | some failure => simp only [Option.toList_some, List.flatMap_singleton]

namespace RetryState

variable {state : RetryState P} {key : UInt64} {retry : KeyRetry P} {next now : ℕ}

theorem mem_records {r : ParsedRecord P} :
    r ∈ state.records key ↔ ∃ p ∈ state.queue key, p.record = r := by
  rw [records_eq, List.mem_map]

/-- The records of a key have different offsets. -/
theorem Valid.index_unique (h : state.Valid next) {i j : ℕ} {r r' : ParsedRecord P}
    (hi : (state.records key)[i]? = some r) (hj : (state.records key)[j]? = some r')
    (hoff : r.offset = r'.offset) : i = j := by
  have hsorted : (state.records key).Pairwise fun r r' => r.offset < r'.offset := by
    rw [records_eq, List.pairwise_map]
    exact (h.of_queue key).1
  obtain ⟨hil, rfl⟩ := List.getElem?_eq_some_iff.mp hi
  obtain ⟨hjl, rfl⟩ := List.getElem?_eq_some_iff.mp hj
  rcases Nat.lt_trichotomy i j with hlt | heq | hlt
  · have := List.pairwise_iff_getElem.mp hsorted i j hil hjl hlt
    omega
  · exact heq
  · have := List.pairwise_iff_getElem.mp hsorted j i hjl hil hlt
    omega

theorem exists_of_mem_offsetsOf {indices : List ℕ} {offset : ℕ}
    (ho : offset ∈ offsetsOf (state.records key) indices) :
    ∃ p ∈ state.queue key, p.record.offset = offset := by
  obtain ⟨i, -, r, hr, rfl⟩ := mem_offsetsOf.mp ho
  obtain ⟨p, hp, rfl⟩ := mem_records.mp (List.mem_of_getElem? hr)
  exact ⟨p, hp, rfl⟩

section Report

variable {handlers : HandlerList P O} {t : List (Call O)} {report : KeyReport P}

/-- If no record failed in an attempt on a key, all its records are resolved. -/
theorem Valid.all_resolved (h : state.Valid next) (ha : attempt handlers (state.records key) t (some report))
    (hnil : offsetsOf (state.records key) report.failedRecords = []) :
    ∀ p ∈ state.queue key, p.record.offset ∈ offsetsOf (state.records key) report.completed := by
  intro p hp
  have hr := mem_records.mpr ⟨p, hp, rfl⟩
  obtain ⟨unstarted, hperm, hall⟩ := attempt_spec (List.ne_nil_of_mem hr) (fun r hr => by
    obtain ⟨p, hp, rfl⟩ := mem_records.mp hr
    exact ((h.of_queue key).2 p hp).1) ha
  have hfailed : report.failedRecords = [] := by
    refine List.eq_nil_iff_forall_not_mem.mpr fun i hi => ?_
    have hlt := List.mem_range.mp (hperm.mem_iff.mp
      (List.mem_append_left _ (List.mem_append_right _ hi)))
    have hoff := mem_offsetsOf.mpr ⟨i, hi, _, List.getElem?_eq_getElem hlt, rfl⟩
    rw [hnil] at hoff
    cases hoff
  obtain ⟨i, hi, heq⟩ := List.getElem_of_mem hr
  have hmem := hperm.mem_iff.mpr (List.mem_range.mpr hi)
  rw [hall hfailed, hfailed, List.append_nil, List.append_nil] at hmem
  exact mem_offsetsOf.mpr ⟨i, hmem, p.record, by rw [List.getElem?_eq_getElem hi, heq], rfl⟩

/-- An attempt on a key resolves some of its records, or some others fail. -/
theorem Valid.attempted (h : state.Valid next) (hk : state.isQuarantined key = true)
    (ha : attempt handlers (state.records key) t (some report)) :
    state.Attempted key (offsetsOf (state.records key) report.completed)
      (offsetsOf (state.records key) report.failedRecords) := by
  obtain ⟨p, hp⟩ := List.exists_mem_of_ne_nil _ (h.isQuarantined_iff_queue.mp hk)
  obtain ⟨unstarted, hperm, -⟩ := attempt_spec
    (List.ne_nil_of_mem (mem_records.mpr ⟨p, hp, rfl⟩)) (fun r hr => by
      obtain ⟨p, hp, rfl⟩ := mem_records.mp hr
      exact ((h.of_queue key).2 p hp).1) ha
  have hnodup := hperm.nodup_iff.mpr List.nodup_range
  refine ⟨fun _ => exists_of_mem_offsetsOf, fun _ => exists_of_mem_offsetsOf, fun offset ho ho' => ?_, ?_⟩
  · obtain ⟨i, hi, r, hr, rfl⟩ := mem_offsetsOf.mp ho
    obtain ⟨j, hj, r', hr', hoff⟩ := mem_offsetsOf.mp ho'
    obtain rfl := h.index_unique hr hr' hoff.symm
    exact (List.nodup_append'.mp (List.nodup_append'.mp hnodup).1).2.2 hi hj
  · by_contra hboth
    rw [not_or, not_not, not_not] at hboth
    have hoff := h.all_resolved ha hboth.2 p hp
    rw [hboth.1] at hoff
    cases hoff

end Report

/-! ### The attempts that are left -/

/-- A bound on the attempts on a key that are left: every record can use up all delays. -/
def potential (state : RetryState P) (key : UInt64) : ℕ :=
  ((state.keys.lookup key).map fun retry =>
    retry.records.length * state.delays.length - retry.attempt).getD 0

theorem potential_eq (hk : state.keys.lookup key = some retry) :
    state.potential key = retry.records.length * state.delays.length - retry.attempt := by
  rw [potential, hk]
  rfl

/-- A key that is left has attempts left. -/
theorem Valid.potential_pos (h : state.Valid next) (hd : state.delays ≠ [])
    (hk : state.keys.lookup key = some retry) :
    retry.attempt < retry.records.length * state.delays.length := by
  have hretry := h.key key retry hk
  have hpos := List.length_pos_iff.mpr hd
  have hle := Nat.le_mul_of_pos_left state.delays.length (List.length_pos_iff.mpr hretry.nonempty)
  have := hretry.attempt
  omega

/-- What is left of a key has fewer attempts left, if it counts one more or lost a record. -/
theorem Valid.potential_put {new : KeyRetry P} (h : state.Valid next) (hd : state.delays ≠ [])
    (hk : state.keys.lookup key = some retry)
    (hless : new.records.length ≤ retry.records.length ∧ new.attempt = retry.attempt + 1 ∨
      new.records.length < retry.records.length) :
    (state.put key retry new).potential key + 1 ≤ state.potential key := by
  have hattempt := (h.key key retry hk).attempt
  have hpos := h.potential_pos hd hk
  have hdelays := List.length_pos_iff.mpr hd
  rw [potential_eq hk]
  unfold potential
  rw [lookup_put, if_pos rfl]
  split_ifs
  · show 0 + 1 ≤ _
    omega
  · show new.records.length * state.delays.length - new.attempt + 1 ≤ _
    rcases hless with ⟨hle, hcounted⟩ | hlt
    · have := Nat.mul_le_mul_right state.delays.length hle
      omega
    · have := Nat.mul_le_mul_right state.delays.length (Nat.succ_le_of_lt hlt)
      rw [Nat.succ_mul] at this
      omega

/-- **An attempt uses up one of the attempts that are left**: it drains the key, removes a record or
counts one more, and giving up drops a record. -/
theorem Valid.finish_progress {resolved failed : List ℕ} (h : state.Valid next) (hd : state.delays ≠ [])
    (hk : state.keys.lookup key = some retry) (ha : state.Attempted key resolved failed)
    (hall : failed = [] → ∀ p ∈ state.queue key, p.record.offset ∈ resolved) (now : ℕ) :
    (state.finish key resolved failed now).1.potential key + 1 ≤ state.potential key ∧
      (∀ retry', (state.finish key resolved failed now).1.keys.lookup key = some retry' →
        retry'.records.length < retry.records.length ∨ retry.attempt < retry'.attempt) ∧
      ∀ dropped, (state.finish key resolved failed now).2 = .gaveUp dropped → 0 < dropped := by
  have hqueue := queue_eq hk
  have hleft := without_sublist retry.records resolved
  rcases finish_cases hk with ⟨hf, heq⟩ | ⟨hf, delay, -, heq⟩ | ⟨hf, -, heq⟩
  · -- no run failed, so nothing is left
    have hnil : without retry.records resolved = [] := by
      refine List.filter_eq_nil_iff.mpr fun p hp => ?_
      simpa using hall hf p (hqueue ▸ hp)
    have hne := (h.key key retry hk).nonempty
    rw [heq]
    refine ⟨h.potential_put hd hk (Or.inr ?_), fun retry' hk' => ?_, fun dropped hgave => ?_⟩
    · rw [hnil]
      exact List.length_pos_iff.mpr hne
    · rw [lookup_put, if_pos rfl, if_pos hnil] at hk'
      cases hk'
    · simp only [hnil, if_true] at hgave
      cases hgave
  · rw [heq]
    refine ⟨h.potential_put hd hk (Or.inl ⟨hleft.length_le, rfl⟩), fun retry' hk' => ?_,
      fun dropped hgave => by cases hgave⟩
    rw [lookup_put, if_pos rfl] at hk'
    split_ifs at hk'
    cases hk'
    exact Or.inr (Nat.lt_succ_self _)
  · -- the key gives up: a failed record is dropped
    obtain ⟨offset, ho⟩ := List.exists_mem_of_ne_nil _ hf
    obtain ⟨p, hp, rfl⟩ := ha.pending' offset ho
    rw [hqueue] at hp
    have hless : (without (without retry.records resolved) failed).length < retry.records.length := by
      refine Nat.lt_of_not_le fun hle => ?_
      have hsame := ((without_sublist _ failed).trans hleft).eq_of_length_le hle
      rw [← hsame] at hp
      simpa [ho] using (List.mem_filter.mp hp).2
    have hgaveUp := (h.finished ha now).gaveUp
    rw [heq] at hgaveUp ⊢
    refine ⟨h.potential_put hd hk (Or.inr hless), fun retry' hk' => ?_, fun dropped hgave => ?_⟩
    · rw [lookup_put, if_pos rfl] at hk'
      split_ifs at hk'
      cases hk'
      exact Or.inl hless
    · rw [hgaveUp dropped hgave, hqueue]
      exact List.length_pos_iff.mpr (List.ne_nil_of_mem (List.mem_filter.mpr ⟨hp, by simpa using ho⟩))

theorem potential_congr {state' : RetryState P} (hk : state'.keys.lookup key = state.keys.lookup key)
    (hd : state'.delays = state.delays) : state'.potential key = state.potential key := by
  unfold potential
  rw [hk, hd]

theorem records_congr {state' : RetryState P} (hk : state'.keys.lookup key = state.keys.lookup key) :
    state'.records key = state.records key := by
  unfold records
  rw [hk]

theorem isQuarantined_congr {state' : RetryState P} (hk : state'.keys.lookup key = state.keys.lookup key) :
    state'.isQuarantined key = state.isQuarantined key := by
  unfold isQuarantined
  rw [hk]

end RetryState

/-! ### Attempts -/

/-- An attempt of a round: the records planned, the calls made, the report, and what the key came to. -/
structure Attempt (P O : Type) where
  records : List (ParsedRecord P)
  calls : List (Call O)
  report : KeyReport P
  outcome : Outcome

namespace Attempt

/-- What is written down of an attempt. -/
def entry (a : Attempt P O) : (UInt64 × List (ParsedRecord P)) × KeyReport P :=
  ((a.outcome.key, a.records), a.report)

/-- The run of a record was completed in an attempt, or it failed and the key gave up. -/
def Resolves (handlers : HandlerList P O) (a : Attempt P O) (record : ParsedRecord P) : Prop :=
  ∃ i, a.records[i]? = some record ∧ (RunEnded handlers a.records a.calls i .done ∨
    a.outcome.finish.isGaveUp = true ∧ ∃ error remainder,
      RunEnded handlers a.records a.calls i (.failed error remainder))

end Attempt

/-- A step of a task, with the attempts made: one on each due key, on all its records. -/
inductive AttemptStep (handlers : HandlerList P O) :
    RetryTask P → RetryEvent I P × List (Attempt P O) → RetryTask P → Prop where
  | drained {task messages} (now nowMs : ℕ) (hne : messages ≠ [])
      (hfrom : ∀ polled ∈ messages, task.cursor.nextOrZero ≤ polled.offset)
      (hsorted : messages.Pairwise fun polled polled' => polled.offset < polled'.offset) :
      AttemptStep handlers task (.drained messages, []) (task.drainPolled messages now nowMs)
  | ran {task : RetryTask P} {attempts : List (Attempt P O)} {state} (started now : ℕ)
      (hdue : (attempts.map (·.outcome.key)).Perm (task.state.dueKeys started))
      (hcalls : ∀ a ∈ attempts, a.records = task.state.records a.outcome.key ∧
        attempt handlers a.records a.calls (some a.report))
      (hfinish : finishReports now (attempts.map (·.entry)) task.state =
        (state, attempts.map (·.outcome))) :
      AttemptStep handlers task (.ran (attempts.map (·.outcome)), attempts) { task with state }

section AttemptStep

variable {handlers : HandlerList P O} {state state' : RetryState P} {task task' : RetryTask P}
  {event : RetryEvent I P} {attempts : List (Attempt P O)} {now : ℕ}

theorem AttemptStep.outcomes (h : AttemptStep handlers task (event, attempts) task') :
    event.outcomes = attempts.map (·.outcome) := by
  cases h <;> rfl

/-- A step with its attempts is a step. -/
theorem AttemptStep.retryStep (h : AttemptStep handlers task (event, attempts) task') :
    RetryStep handlers task event task' := by
  cases h with
  | drained now nowMs hne hfrom hsorted => exact .drained now nowMs hne hfrom hsorted
  | ran started now hdue hcalls hfinish =>
    refine .ran started now hdue (attempts.flatMap (·.calls)) ?_
    have hwork : (((attempts.map (·.outcome.key)).map fun key => (key, task.state.records key)).zip
        (attempts.map (·.report))) = attempts.map (·.entry) := by
      rw [List.map_map, List.zip_map', List.map_inj_left]
      intro a ha
      rw [Attempt.entry, (hcalls a ha).1]
      rfl
    unfold runDue
    split_ifs with hnil
    · obtain rfl := List.map_eq_nil_iff.mp hnil
      exact Async.pure_iff.mpr ⟨rfl, hfinish.symm⟩
    · refine Async.bind_iff.mpr ⟨attempts.map (·.report), _, [], ?_, Async.pure_iff.mpr ⟨rfl, ?_⟩,
        (List.append_nil _).symm⟩
      · rw [List.map_map, List.map_map]
        refine Async.joinAll_of_forall _ _ fun a ha => ?_
        obtain ⟨hrecords, hcalls⟩ := hcalls a ha
        rw [hrecords] at hcalls
        exact hcalls
      · rw [hwork, hfinish]

theorem keys_finishReports : ∀ (work : List ((UInt64 × List (ParsedRecord P)) × KeyReport P))
    (state : RetryState P), (finishReports now work state).2.map (·.key) = work.map (·.1.1)
  | [], _ => rfl
  | _ :: rest, _ => congrArg (_ :: ·) (keys_finishReports rest _)

theorem exists_attempts_of_parts (state : RetryState P) : ∀ {parts : List ((UInt64 × KeyReport P) × List (Call O))}
    {outcomes : List Outcome}, outcomes.map (·.key) = parts.map (·.1.1) →
      ∃ attempts : List (Attempt P O), attempts.map (·.outcome) = outcomes ∧
        attempts.map (fun a => ((a.outcome.key, a.report), a.calls)) = parts ∧
          ∀ a ∈ attempts, a.records = state.records a.outcome.key
  | [], [], _ => ⟨[], rfl, rfl, nofun⟩
  | ((key, report), calls) :: parts, outcome :: outcomes, h => by
    obtain ⟨hkey, hrest⟩ := List.cons.inj h
    obtain ⟨attempts, rfl, rfl, hrecords⟩ := exists_attempts_of_parts state hrest
    obtain rfl : outcome.key = key := hkey
    exact ⟨⟨state.records outcome.key, calls, report, outcome⟩ :: attempts, rfl, rfl,
      List.forall_mem_cons.mpr ⟨rfl, hrecords⟩⟩

/-- Every step is a step with some attempts. -/
theorem RetryStep.exists_attempts (h : RetryStep handlers task event task') :
    ∃ attempts, AttemptStep handlers task (event, attempts) task' := by
  cases h with
  | drained now nowMs hne hfrom hsorted => exact ⟨[], .drained now nowMs hne hfrom hsorted⟩
  | @ran due state outcomes started now hdue t ht =>
    obtain ⟨reports, hreports, heq⟩ := exists_reports ht
    obtain ⟨parts, hparts, hall, -⟩ := Async.exists_parts_of_joinAll hreports
    have hdueParts : parts.map (·.1.1) = due := by
      rw [← List.map_fst_zip (Async.exists_of_joinAll hreports).1.ge, ← hparts, List.map_map]
      rfl
    have hwork : (due.map fun key => (key, task.state.records key)).zip reports =
        parts.map fun part => ((part.1.1, task.state.records part.1.1), part.1.2) := by
      rw [List.zip_map_left, ← hparts, List.map_map]
      rfl
    rw [hwork] at heq
    have hkeys : outcomes.map (·.key) = parts.map (·.1.1) := by
      rw [show outcomes = _ from congrArg Prod.snd heq, keys_finishReports, List.map_map]
      rfl
    obtain ⟨attempts, rfl, rfl, hrecords⟩ := exists_attempts_of_parts task.state hkeys
    rw [List.map_map] at hdueParts heq
    refine ⟨attempts, .ran started now (hdueParts ▸ hdue) (fun a ha => ⟨hrecords a ha, ?_⟩) ?_⟩
    · rw [hrecords a ha]
      exact (hall _ (List.mem_map_of_mem ha)).1
    · rw [heq]
      refine congrArg (finishReports now · task.state) (List.map_inj_left.mpr fun a ha => ?_)
      rw [Attempt.entry, hrecords a ha]
      rfl

end AttemptStep

/-! ### All the attempts of a round -/

section Round

variable {handlers : HandlerList P O} {state : RetryState P} {key : UInt64} {next now : ℕ}

/-- The attempts on a key. -/
def attemptsOn (key : UInt64) (outcomes : List Outcome) : ℕ := outcomes.countP (·.key = key)

/-- The attempts of a round, each on all records of another key. -/
def RoundOf (handlers : HandlerList P O) (state : RetryState P)
    (work : List ((UInt64 × List (ParsedRecord P)) × KeyReport P)) : Prop :=
  (work.map (·.1.1)).Nodup ∧ ∀ entry ∈ work, entry.1.2 = state.records entry.1.1 ∧
    state.isQuarantined entry.1.1 = true ∧ ∃ t, attempt handlers entry.1.2 t (some entry.2)

theorem potential_finishReports : ∀ {work : List ((UInt64 × List (ParsedRecord P)) × KeyReport P)}
    {state : RetryState P}, state.Valid next → state.delays ≠ [] → RoundOf handlers state work →
      (finishReports now work state).1.potential key +
        attemptsOn key (finishReports now work state).2 ≤ state.potential key
  | [], _, _, _, _ => Nat.le_refl _
  | ((k, records), report) :: rest, state, h, hd, hround => by
    obtain ⟨hnodup, hwork⟩ := hround
    obtain ⟨hk, hrest⟩ := List.nodup_cons.mp hnodup
    obtain ⟨hrecords, hquarantined, t, ht⟩ := hwork _ List.mem_cons_self
    obtain rfl : records = state.records k := hrecords
    obtain ⟨retry, hretry⟩ := Option.isSome_iff_exists.mp hquarantined
    have hlookup : ∀ k', k' ≠ k → (finishReport state k (state.records k) report now).1.keys.lookup k' =
        state.keys.lookup k' := fun k' hne => RetryState.lookup_finish_of_ne hne
    have hround : RoundOf handlers (finishReport state k (state.records k) report now).1 rest := by
      refine ⟨hrest, fun entry he => ?_⟩
      obtain ⟨h1, h2, h3⟩ := hwork entry (List.mem_cons_of_mem _ he)
      have hne : entry.1.1 ≠ k := fun heq => hk (List.mem_map.mpr ⟨entry, he, heq⟩)
      exact ⟨h1.trans (RetryState.records_congr (hlookup _ hne)).symm,
        (RetryState.isQuarantined_congr (hlookup _ hne)).trans h2, h3⟩
    have ih := potential_finishReports (valid_finishReport h _ report)
      ((delays_finishReport _ report).symm ▸ hd) hround
    have hstep : (finishReport state k (state.records k) report now).1.potential key +
        (if k = key then 1 else 0) ≤ state.potential key := by
      split_ifs with hkey
      · subst hkey
        rw [finishReport_eq]
        exact (h.finish_progress hd hretry (h.attempted hquarantined ht) (h.all_resolved ht) now).1
      · exact Nat.le_of_eq (RetryState.potential_congr (hlookup key (Ne.symm hkey))
          (delays_finishReport _ report))
    have hcount : ∀ outcomes, attemptsOn key
        ((finishReport state k (state.records k) report now).2 :: outcomes) =
          attemptsOn key outcomes + (if k = key then 1 else 0) := by
      intro outcomes
      rw [attemptsOn, List.countP_cons, finishReport_eq]
      simp [attemptsOn]
    rw [finishReports_cons, hcount]
    dsimp only
    omega

theorem nodup_dueKeys (state : RetryState P) (started : ℕ) : (state.dueKeys started).Nodup :=
  List.Nodup.sublist (List.filter_sublist.map _) state.keys.keys_nodup

theorem isQuarantined_of_due {started : ℕ} (h : key ∈ state.dueKeys started) :
    state.isQuarantined key = true := by
  obtain ⟨⟨k, retry⟩, he, rfl⟩ := List.mem_map.mp h
  exact Option.isSome_of_mem (AList.mem_lookup_iff.mpr (List.mem_filter.mp he).1)

/-- The round of attempts on the due keys. -/
theorem roundOf_due {attempts : List (Attempt P O)} {started : ℕ}
    (hdue : (attempts.map (·.outcome.key)).Perm (state.dueKeys started))
    (hcalls : ∀ a ∈ attempts, a.records = state.records a.outcome.key ∧
      attempt handlers a.records a.calls (some a.report)) :
    RoundOf handlers state (attempts.map (·.entry)) := by
  refine ⟨?_, fun entry he => ?_⟩
  · rw [List.map_map]
    exact hdue.nodup_iff.mpr (nodup_dueKeys state started)
  · obtain ⟨a, ha, rfl⟩ := List.mem_map.mp he
    obtain ⟨hrecords, ht⟩ := hcalls a ha
    exact ⟨hrecords, isQuarantined_of_due (hdue.mem_iff.mp (List.mem_map_of_mem ha)), a.calls, ht⟩

/-- The outcomes of a round are what the reports say. -/
theorem forall_finishReports : ∀ {attempts : List (Attempt P O)} {state : RetryState P},
    (finishReports now (attempts.map (·.entry)) state).2 = attempts.map (·.outcome) →
      ∀ a ∈ attempts, a.outcome.resolved = offsetsOf a.records a.report.completed ∧
        a.outcome.failed = offsetsOf a.records a.report.failedRecords
  | [], _, _ => nofun
  | a :: attempts, state, h => by
    rw [List.map_cons, List.map_cons, Attempt.entry, finishReports_cons, finishReport_eq] at h
    obtain ⟨houtcome, hrest⟩ := List.cons.inj h
    exact List.forall_mem_cons.mpr ⟨houtcome ▸ ⟨rfl, rfl⟩, forall_finishReports hrest⟩

/-- A record that its key loses in an attempt is resolved by it. -/
theorem Attempt.resolves_of_gone {a : Attempt P O} (h : state.Valid next)
    (hrecords : a.records = state.records a.outcome.key)
    (ht : attempt handlers a.records a.calls (some a.report))
    (hresolved : a.outcome.resolved = offsetsOf a.records a.report.completed)
    (hfailed : a.outcome.failed = offsetsOf a.records a.report.failedRecords) {p : PendingRecord P}
    (hp : p ∈ state.queue a.outcome.key) (hgone : p.record.offset ∈ a.outcome.gone) :
    a.Resolves handlers p.record := by
  obtain ⟨j, hj, heq⟩ := List.getElem_of_mem (RetryState.mem_records.mpr ⟨p, hp, rfl⟩)
  have hrecord : (state.records a.outcome.key)[j]? = some p.record := by
    rw [List.getElem?_eq_getElem hj, heq]
  -- the record with the offset is the record itself
  have hmem : ∀ {indices}, p.record.offset ∈ offsetsOf a.records indices → j ∈ indices := by
    intro indices ho
    obtain ⟨i, hi, r, hr, hoff⟩ := mem_offsetsOf.mp ho
    rw [hrecords] at hr
    exact h.index_unique hr hrecord hoff ▸ hi
  obtain ⟨hdone, hfail⟩ := runEnded_of_attempt ht
  refine ⟨j, hrecords ▸ hrecord, ?_⟩
  unfold Outcome.gone at hgone
  split_ifs at hgone with hgave
  · rcases List.mem_append.mp hgone with ho | ho
    · exact Or.inl (hdone j (hmem (hresolved ▸ ho)))
    · exact Or.inr ⟨hgave, hfail j (hmem (hfailed ▸ ho))⟩
  · exact Or.inl (hdone j (hmem (hresolved ▸ hgone)))

end Round

/-! ### Runs without a new record of the key -/

/-- No record of a key is added. -/
def RetryEvent.Avoids (key : UInt64) : RetryEvent I P → Prop
  | .drained messages => ∀ polled ∈ messages, ∀ record, retryRecord polled = some record →
      record.record.headers.key ≠ key
  | .ran _ => True

section Run

variable {handlers : HandlerList P O} {delays : List ℕ} {events : List (RetryEvent I P)}
  {event : RetryEvent I P} {attempts : List (Attempt P O)} {tried : List (RetryEvent I P × List (Attempt P O))}
  {task task' : RetryTask P} {key : UInt64}

theorem potential_step (h : Tracked delays events task) (hd : delays ≠ [])
    (hs : AttemptStep handlers task (event, attempts) task') (ha : event.Avoids key) :
    task'.state.potential key + attemptsOn key (attempts.map (·.outcome)) ≤ task.state.potential key := by
  cases hs with
  | @drained messages now nowMs hne hfrom hsorted =>
    obtain ⟨hstate, -⟩ := drainPolled_spec task now nowMs hne hsorted
    rw [hstate]
    exact Nat.le_of_eq (RetryState.potential_congr (lookup_foldl ha) (delays_foldl _ _))
  | ran started now hdue hcalls hfinish =>
    have hpotential : (finishReports now (attempts.map (·.entry)) task.state).1.potential key + _ ≤ _ :=
      potential_finishReports h.valid (h.delays ▸ hd) (roundOf_due hdue hcalls)
    rwa [hfinish] at hpotential

/-- A record of the key stays, or an attempt on the key resolves it. -/
theorem queue_step (h : Tracked delays events task)
    (hs : AttemptStep handlers task (event, attempts) task') (ha : event.Avoids key)
    {p : PendingRecord P} (hp : p ∈ task.state.queue key) : p ∈ task'.state.queue key ∨
      ∃ a ∈ attempts, a.outcome.key = key ∧ a.Resolves handlers p.record := by
  cases hs with
  | @drained messages now nowMs hne hfrom hsorted =>
    obtain ⟨hstate, -⟩ := drainPolled_spec task now nowMs hne hsorted
    refine Or.inl ?_
    rw [hstate, RetryState.queue, lookup_foldl ha]
    exact hp
  | ran started now hdue hcalls hfinish =>
    by_cases hgone : ∃ a ∈ attempts, a.outcome.key = key ∧ p.record.offset ∈ a.outcome.gone
    · obtain ⟨a, hmem, rfl, hgone⟩ := hgone
      obtain ⟨hresolved, hfailed⟩ := forall_finishReports (congrArg Prod.snd hfinish) a hmem
      obtain ⟨hrecords, ht⟩ := hcalls a hmem
      exact Or.inr ⟨a, hmem, rfl, Attempt.resolves_of_gone h.valid hrecords ht hresolved hfailed hp hgone⟩
    · have hqueue : p ∈ (finishReports now (attempts.map (·.entry)) task.state).1.queue key ↔ _ :=
        mem_queue_finishReports _ _
      rw [hfinish] at hqueue
      refine Or.inl (hqueue.mpr ⟨hp, fun outcome ho hk hg => ?_⟩)
      obtain ⟨a, hmem, rfl⟩ := List.mem_map.mp ho
      exact hgone ⟨a, hmem, hk, hg⟩

/-- A run with its attempts is a run. -/
theorem retrySteps (hs : Steps (AttemptStep handlers) task tried task') :
    Steps (RetryStep handlers) task (tried.map Prod.fst) task' := by
  induction hs with
  | nil => exact .nil
  | @snoc tried middle e task' hs hstep ih =>
    rw [List.map_append]
    exact ih.snoc hstep.retryStep

/-- The attempts on a key, in a whole run. -/
theorem progress_steps (h : Tracked delays events task) (hd : delays ≠ [])
    (hs : Steps (AttemptStep handlers) task tried task') (ha : ∀ e ∈ tried, e.1.Avoids key) :
    task'.state.potential key + attemptsOn key ((tried.flatMap Prod.snd).map (·.outcome)) ≤
        task.state.potential key ∧
      ∀ p ∈ task.state.queue key, p ∈ task'.state.queue key ∨
        ∃ a ∈ tried.flatMap Prod.snd, a.outcome.key = key ∧ a.Resolves handlers p.record := by
  induction hs with
  | nil => exact ⟨Nat.le_refl _, fun p hp => Or.inl hp⟩
  | @snoc tried middle e task' hs hstep ih =>
    obtain ⟨hpotential, hqueue⟩ := ih fun e he => ha e (List.mem_append_left _ he)
    have hevent := ha e (List.mem_append_right _ (List.mem_singleton_self _))
    have htracked := (h.steps (retrySteps hs)).1
    have hstep' := potential_step htracked hd hstep hevent
    rw [List.flatMap_append, List.flatMap_singleton]
    refine ⟨?_, fun p hp => ?_⟩
    · unfold attemptsOn at *
      rw [List.map_append, List.countP_append]
      omega
    · rcases hqueue p hp with hp | ⟨a, hmem, hresolves⟩
      · rcases queue_step htracked hstep hevent hp with hp | ⟨a, hmem, hresolves⟩
        · exact Or.inl hp
        · exact Or.inr ⟨a, List.mem_append_right _ hmem, hresolves⟩
      · exact Or.inr ⟨a, List.mem_append_left _ hmem, hresolves⟩

end Run

/-- **Retrying a key always makes progress**: after at most as many attempts as it has records times
delays it is drained, if no record of it is added; each of its records was in a run that an attempt
completed, or in a failed run when the key gave up. An attempt that leaves the key removes a record or
counts one more, and giving up drops a record. -/
theorem retry_progress (handlers : HandlerList P O) {delays : List ℕ} (hd : delays ≠ []) {cursor : Cursor}
    {events : List (RetryEvent I P)} {task : RetryTask P}
    (h : Steps (RetryStep handlers) ⟨.new delays, cursor⟩ events task) {key : UInt64} {retry : KeyRetry P}
    (hk : task.state.keys.lookup key = some retry) :
    (∀ (tried : List (RetryEvent I P × List (Attempt P O))) task',
      Steps (AttemptStep handlers) task tried task' → (∀ e ∈ tried, e.1.Avoids key) →
        attemptsOn key ((tried.flatMap Prod.snd).map (·.outcome)) ≤ retry.records.length * delays.length ∧
        (attemptsOn key ((tried.flatMap Prod.snd).map (·.outcome)) = retry.records.length * delays.length →
          task'.state.isQuarantined key = false) ∧
        (task'.state.isQuarantined key = false → ∀ p ∈ retry.records,
          ∃ a ∈ tried.flatMap Prod.snd, a.outcome.key = key ∧ a.Resolves handlers p.record)) ∧
      ∀ t report now, attempt handlers (task.state.records key) t (some report) →
        (∀ retry', (finishReport task.state key (task.state.records key) report now).1.keys.lookup key =
            some retry' → retry'.records.length < retry.records.length ∨ retry.attempt < retry'.attempt) ∧
          ∀ dropped, (finishReport task.state key (task.state.records key) report now).2.finish =
            .gaveUp dropped → 0 < dropped := by
  have htracked : Tracked delays events task := ((tracked_new delays cursor).steps h).1
  have hquarantined : task.state.isQuarantined key = true := Option.isSome_of_mem hk
  have hd' : task.state.delays ≠ [] := htracked.delays ▸ hd
  refine ⟨fun tried task' hs ha => ?_, fun t report now ht => ?_⟩
  · obtain ⟨hpotential, hqueue⟩ := progress_steps htracked hd hs ha
    have htracked' := (htracked.steps (retrySteps hs)).1
    rw [RetryState.potential_eq hk, htracked.delays] at hpotential
    refine ⟨by omega, fun hall => ?_, fun hlifted p hp => ?_⟩
    · rw [Bool.eq_false_iff]
      intro hstill
      obtain ⟨retry', hk'⟩ := Option.isSome_iff_exists.mp hstill
      have hpos := htracked'.valid.potential_pos (htracked'.delays ▸ hd) hk'
      rw [RetryState.potential_eq hk'] at hpotential
      omega
    · rcases hqueue p (RetryState.queue_eq hk ▸ hp) with hp | hresolved
      · have hstill := htracked'.valid.isQuarantined_iff_queue.mpr (List.ne_nil_of_mem hp)
        rw [hlifted] at hstill
        cases hstill
      · exact hresolved
  · have hfinish := htracked.valid.finish_progress hd' hk (htracked.valid.attempted hquarantined ht)
      (htracked.valid.all_resolved ht) now
    rw [finishReport_eq]
    exact hfinish.2

/-! ### Two records that fail once -/

/-- A retry record of key 7. -/
def retryMessage (offset payload : ℕ) : PolledMessage rawHeaders ℕ :=
  ⟨offset, (EventHeaders.toMap rawHeaders
    ⟨⟨1⟩, 7, ⟨.relaxed, .nonAssociative⟩⟩ (some ⟨3⟩)).toOption.getD fun _ => none, payload⟩

/-- The task after two records were read. -/
def pairTask : RetryTask ℕ :=
  RetryTask.drainPolled ⟨.new [10, 20], ⟨none⟩⟩ [retryMessage 0 70, retryMessage 1 71] 0 4

/-- The handler takes the events one by one. -/
def pairHandler : Registered ℕ ℕ := .plain ⟨1⟩ (.nonAssociative : Marker ℕ)

/-- The call for one event. -/
def pairCall (event : ℕ) (result : Except HandleError Unit) : Call ℕ := ⟨⟨1⟩, [event], some result⟩

/-- The first event is taken, then the handler is down. -/
def failedAttempt : Attempt ℕ ℕ where
  records := pairTask.state.records 7
  calls := [pairCall 70 (.ok ()), pairCall 71 (.error ⟨.retryable, "down"⟩)]
  report := ⟨[], some ⟨0, "down", [⟨.body 0, [0, 1], [71]⟩]⟩⟩
  outcome := ⟨7, [], [0, 1], .scheduled 1 20⟩

/-- Both events are taken, the first at the second call. -/
def doneAttempt : Attempt ℕ ℕ where
  records := pairTask.state.records 7
  calls := [pairCall 70 (.error ⟨.transient, "busy"⟩), pairCall 70 (.ok ()), pairCall 71 (.ok ())]
  report := ⟨[0, 1], none⟩
  outcome := ⟨7, [0, 1], [], .drained⟩

theorem runOne_pair {t : List (Call ℕ)} {o : Option (RunResult ℕ)}
    (h : Async.loop (pairHandler.handleFrom ([70, 71] : List ℕ)) 0 t o) :
    runOne (.new pairHandler) (Plan.new (planRecords (pairTask.state.records 7))) (pairTask.state.records 7)
      ⟨⟨1⟩, ⟨0, 2⟩⟩ t o := by
  rw [runOne, HandlerList.handleRun_eq]
  exact h

theorem failedAttempt_calls : attempt (.new pairHandler) failedAttempt.records failedAttempt.calls
    (some failedAttempt.report) :=
  executeKeyWith_failed ⟨none, ⟨0, 1⟩, none⟩ ⟨⟨1⟩, ⟨0, 2⟩⟩ (by decide) (by decide) (by decide)
    (runOne_pair (.again (t := [_])
      (Chunks.handleFrom_settled (by decide) rfl (Chunks.handleChunk_ok _))
      (.done (Chunks.handleFrom_failed (by decide) rfl (Chunks.handleChunk_failed _ "down")))))

theorem doneAttempt_calls : attempt (.new pairHandler) doneAttempt.records doneAttempt.calls
    (some doneAttempt.report) :=
  executeKeyWith_done ⟨none, ⟨0, 1⟩, none⟩ ⟨⟨1⟩, ⟨0, 2⟩⟩ (by decide) (by decide) (by decide) (by decide)
    (runOne_pair (.again (t := [_, _]) (Chunks.handleFrom_settled (by decide) rfl
        (Chunks.handleChunk_again (Chunks.handleChunk_ok _) "busy"))
      (.again (t := [_]) (Chunks.handleFrom_settled (by decide) rfl (Chunks.handleChunk_ok _))
        (.done (t := []) (Async.pure_iff.mpr ⟨rfl, rfl⟩)))))

/-- What the first attempt leaves. -/
def failedTask : RetryTask ℕ where
  state := (finishReports 30 [failedAttempt.entry] pairTask.state).1
  cursor := pairTask.cursor

/-- What the second attempt leaves. -/
def doneTask : RetryTask ℕ where
  state := (finishReports 50 [doneAttempt.entry] failedTask.state).1
  cursor := pairTask.cursor

/-- Two records wait for two delays: their run fails in the first attempt and is completed in the second,
so both records are resolved. -/
theorem retry_progress_pair : Steps (AttemptStep (I := rawHeaders) (.new pairHandler)) pairTask
      [(.ran [failedAttempt.outcome], [failedAttempt]), (.ran [doneAttempt.outcome], [doneAttempt])] doneTask ∧
    doneTask.state.isQuarantined 7 = false ∧ (pairTask.state.records 7).length = 2 ∧
      ∀ r ∈ pairTask.state.records 7, ∃ a ∈ [failedAttempt, doneAttempt],
        a.outcome.key = 7 ∧ a.Resolves (.new pairHandler) r := by
  have hread : Steps (RetryStep (I := rawHeaders) (.new pairHandler)) ⟨.new [10, 20], ⟨none⟩⟩
      [.drained [retryMessage 0 70, retryMessage 1 71]] pairTask :=
    .single (.drained 0 4 (List.cons_ne_nil _ _) (fun _ _ => Nat.zero_le _) (List.pairwise_pair.mpr Nat.one_pos))
  have hfailed : AttemptStep (I := rawHeaders) (.new pairHandler) pairTask
      (.ran ([failedAttempt].map (·.outcome)), [failedAttempt]) failedTask :=
    .ran 30 30 (.refl [7])
      (List.forall_mem_singleton.mpr ⟨rfl, failedAttempt_calls⟩) rfl
  have hdone : AttemptStep (I := rawHeaders) (.new pairHandler) failedTask
      (.ran ([doneAttempt].map (·.outcome)), [doneAttempt]) doneTask :=
    .ran 50 50 (.refl [7])
      (List.forall_mem_singleton.mpr ⟨rfl, doneAttempt_calls⟩) rfl
  have hsteps := (Steps.single hfailed).snoc hdone
  obtain ⟨retry, hk⟩ : ∃ retry, pairTask.state.keys.lookup 7 = some retry := ⟨_, rfl⟩
  have hresolved := ((retry_progress (.new pairHandler) (List.cons_ne_nil _ _) hread hk).1 _ _ hsteps
    (by simp [RetryEvent.Avoids])).2.2 rfl
  refine ⟨hsteps, rfl, rfl, fun r hr => ?_⟩
  obtain ⟨p, hp, rfl⟩ := RetryState.mem_records.mp hr
  exact hresolved p (RetryState.queue_eq hk ▸ hp)

end Wakuwaku.Iggy.Consumer
