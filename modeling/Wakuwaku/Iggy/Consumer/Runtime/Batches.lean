import Wakuwaku.Iggy.Consumer.Handed
import Wakuwaku.Iggy.Consumer.Runtime.Outline
import Wakuwaku.Iggy.Consumer.Runtime.Progress

/-! # The records that a task hands over

The keys of a main batch, and the due keys of a round of attempts, are executed side by side. They have
different records, so their calls hand over no record again that was in a call that returned `Ok`
(`once_executeMain`, `Apart.once_runDueRuns`). What is written of a main batch, and what is pending after
the round, was in no such call (`written_spec`, `Apart.not_handled_of_pending`). A record of the batch that
is not over is written or dropped (`served_or_written`), and what a round resolves is over
(`served_of_resolved`). -/

namespace Wakuwaku.Iggy.Consumer

open Wakuwaku.Iggy.Events Wakuwaku.Iggy.Partition Wakuwaku.Iggy.Consumer.Account

variable {I : IggyHeaders} {P O : Type}

/-! ### The keys of a batch -/

section Keys

variable {handlers : HandlerList P O} {marking : handlers.Marking}
  {batch : List (ParsedRecord (Traced P))} {key key' : KeyPlan UInt64}

theorem exists_of_mem_runOffsets (hkey : key ∈ (Plan.new (planRecords batch)).keys) {w : Work}
    (hw : w ∈ workOf (Plan.new (planRecords batch)) key) {a : ℕ}
    (ha : a ∈ runOffsets (Plan.new (planRecords batch)) batch w.run) :
    ∃ r ∈ batch, r.headers.key = key.key ∧ a ∈ r.payload.2 := by
  obtain ⟨i, hi, r, hget, har⟩ := mem_runOffsets.mp ha
  obtain ⟨r', hget', hk⟩ := (mem_work_iff hkey).mp ⟨w, hw, hi⟩
  obtain rfl := Option.some.inj (hget.symm.trans hget')
  exact ⟨r, List.mem_of_getElem? hget, hk, har⟩

/-- Records with the same offset are the same. -/
theorem record_unique (hnd : (batch.flatMap (·.payload.2)).Nodup) {r r' : ParsedRecord (Traced P)}
    (hr : r ∈ batch) (hr' : r' ∈ batch) {a : ℕ} (ha : a ∈ r.payload.2) (ha' : a ∈ r'.payload.2) :
    r = r' := by
  obtain ⟨i, hi⟩ := List.mem_iff_getElem?.mp hr
  obtain ⟨j, hj⟩ := List.mem_iff_getElem?.mp hr'
  rw [index_unique hnd hi hj ha ha', hj] at hi
  exact (Option.some.inj hi).symm

/-- The calls of a run are its events. -/
theorem runOne_of_id (_ : ℕ) (_ : Stage) (run : Run) (t : List (Call (Traced O)))
    (o : Option (RunResult (Traced P)))
    (h : runOne (handlers.traced marking) (Plan.new (planRecords batch)) batch run t o) :
    runOne (handlers.traced marking) (Plan.new (planRecords batch)) batch run (t.map id) o :=
  (List.map_id t).symm ▸ h

/-- The records of a call for a key. -/
theorem exists_of_mem_execute (hkey : key ∈ (Plan.new (planRecords batch)).keys)
    {t : List (Call (Traced O))} {o : Option (KeyReport (Traced P))}
    (h : executeKey (handlers.traced marking) (Plan.new (planRecords batch)) key batch t o)
    {c : Call (Traced O)} (hc : c ∈ t) {a : ℕ} (ha : a ∈ c.offsets) :
    ∃ r ∈ batch, r.headers.key = key.key ∧ a ∈ r.payload.2 := by
  obtain ⟨w, hw, ha⟩ := mem_execute runOne_of_id h hc ha
  exact exists_of_mem_runOffsets hkey hw ha

end Keys

/-! ### A main batch -/

/-- A message of the main partition stands for itself. -/
def Own (message : PolledMessage I (Traced P)) : Prop := message.payload.2 = [message.offset]

/-- The record of a message, unless its headers are bad. -/
def mainRecord (message : PolledMessage I P) : Option (ParsedRecord P) :=
  match parseRecord message with
  | .ok (record, _) => some record
  | .error _ => none

theorem parseMain_eq (batch : List (PolledMessage I P)) : parseMain batch = batch.filterMap mainRecord := rfl

theorem of_mainRecord {m : PolledMessage I P} {r : ParsedRecord P} (h : mainRecord m = some r) :
    r.payload = m.payload ∧ r.offset = m.offset := by
  unfold mainRecord parseRecord at h
  generalize EventHeaders.parse I m.message = parsed at h
  cases parsed with
  | error e => cases h
  | ok headers =>
    cases h
    exact ⟨rfl, rfl⟩

theorem Own.mem {m : PolledMessage I (Traced P)} (hown : Own m) {r : ParsedRecord (Traced P)}
    (h : mainRecord m = some r) {a : ℕ} (ha : a ∈ r.payload.2) : m.offset = a := by
  rw [(of_mainRecord h).1, hown, List.mem_singleton] at ha
  exact ha.symm

section Main

variable {batch : List (PolledMessage I (Traced P))} (hown : ∀ m ∈ batch, Own m)
include hown

theorem exists_message {r : ParsedRecord (Traced P)} (hr : r ∈ parseMain batch) {a : ℕ}
    (ha : a ∈ r.payload.2) : ∃ m ∈ batch, m.offset = a := by
  obtain ⟨m, hm, hr⟩ := List.mem_filterMap.mp hr
  exact ⟨m, hm, (hown m hm).mem hr ha⟩

theorem nodup_parseMain (hsorted : batch.Pairwise fun m m' => m.offset < m'.offset) :
    ((parseMain batch).flatMap (·.payload.2)).Nodup := by
  rw [parseMain_eq]
  refine List.nodup_flatMap.mpr ⟨fun r hr => ?_, List.pairwise_filterMap.mpr ?_⟩
  · obtain ⟨m, hm, hr⟩ := List.mem_filterMap.mp hr
    rw [(of_mainRecord hr).1, hown m hm]
    exact List.nodup_singleton _
  · refine hsorted.imp_of_mem fun {m m'} hm hm' hlt r hr r' hr' a ha ha' => ?_
    have := (hown m hm).mem hr ha
    have := (hown m' hm').mem hr' ha'
    omega

end Main

namespace PartitionTask

/-- A task on traced payloads. -/
def traced (task : PartitionTask I P O) (marking : task.handlers.Marking) :
    PartitionTask I (Traced P) (Traced O) where
  handlers := task.handlers.traced marking
  config := task.config
  build payload := task.build payload.1

theorem mem_directKeys {state : RetryState P} {batch : List (PolledMessage I P)} {key : KeyPlan UInt64} :
    key ∈ directKeys state batch ↔ key ∈ (mainPlan batch).keys ∧ state.isQuarantined key.key = false := by
  rw [directKeys, List.mem_filter, Bool.not_eq_true']

theorem nodup_directKeys (state : RetryState P) (batch : List (PolledMessage I P)) :
    ((directKeys state batch).map KeyPlan.key).Nodup :=
  (Order.keys_nodup _).sublist (List.filter_sublist.map _)

section Execute

variable {task : PartitionTask I P O} {marking : task.handlers.Marking} {state : RetryState (Traced P)}
  {batch : List (PolledMessage I (Traced P))} {t : List (TaskEvent I (Traced P) (Traced O))}
  {o : Option (List (KeyReport (Traced P)))}

/-- The keys of a main batch have different records. -/
theorem key_unique (hnd : ((parseMain batch).flatMap (·.payload.2)).Nodup) {key key' : KeyPlan UInt64}
    (hkey : key ∈ (mainPlan batch).keys) (hkey' : key' ∈ (mainPlan batch).keys) {a : ℕ}
    (ha : ∃ r ∈ parseMain batch, r.headers.key = key.key ∧ a ∈ r.payload.2)
    (ha' : ∃ r ∈ parseMain batch, r.headers.key = key'.key ∧ a ∈ r.payload.2) : key = key' := by
  obtain ⟨r, hr, hk, ha⟩ := ha
  obtain ⟨r', hr', hk', ha'⟩ := ha'
  obtain rfl := record_unique hnd hr hr' ha ha'
  exact List.inj_on_of_nodup_map (Order.keys_nodup _) hkey hkey' (hk.symm.trans hk')

/-- The calls for a key of a main batch. -/
theorem exists_of_mem_label {key : KeyPlan UInt64} (hkey : key ∈ (mainPlan batch).keys)
    {o : Option (KeyReport (Traced P))} (h : (executeKey (task.handlers.traced marking) (mainPlan batch) key
      (parseMain batch)).label (TaskEvent.execute (I := I) key.key) t o)
    {e : TaskEvent I (Traced P) (Traced O)} (he : e ∈ t) {c : Call (Traced O)} (hc : e.call = some c) {a : ℕ}
    (ha : a ∈ c.offsets) : ∃ r ∈ parseMain batch, r.headers.key = key.key ∧ a ∈ r.payload.2 := by
  obtain ⟨u, hu, rfl⟩ := h
  obtain ⟨c', hc', rfl⟩ := List.mem_map.mp he
  obtain rfl := Option.some.inj hc
  exact exists_of_mem_execute hkey hu hc' ha

/-- The calls of a main batch hand over its records. -/
theorem exists_of_mem_executeMain (hown : ∀ m ∈ batch, Own m)
    (h : (task.traced marking).executeMain state batch t o) {e : TaskEvent I (Traced P) (Traced O)}
    (he : e ∈ t) {c : Call (Traced O)} (hc : e.call = some c) {a : ℕ} (ha : a ∈ c.offsets) :
    ∃ m ∈ batch, m.offset = a := by
  obtain ⟨m, hm, u, o', hu, he⟩ := Async.exists_of_mem_joinAll h he
  obtain ⟨key, hkey, rfl⟩ := List.mem_map.mp hm
  obtain ⟨r, hr, -, ha⟩ := exists_of_mem_label (mem_directKeys.mp hkey).1 hu he hc ha
  exact exists_message hown hr ha

/-- **The calls of a main batch** hand over no record again that was in a call that returned `Ok`. -/
theorem once_executeMain (hnd : ((parseMain batch).flatMap (·.payload.2)).Nodup)
    (h : (task.traced marking).executeMain state batch t o) :
    (t.filterMap TaskEvent.call).Pairwise Call.Once := by
  rw [List.pairwise_filterMap]
  refine Async.pairwise_joinAll (nodup_directKeys state batch).of_map ?_ ?_ h
  · rintro key hkey u o' ⟨v, hv, rfl⟩
    have honce := once_execute runOne_of_id (mem_directKeys.mp hkey).1 hnd hv
    rw [List.map_id] at honce
    refine List.pairwise_map.mpr (honce.imp fun {c c'} hcc d hd d' hd' => ?_)
    rw [← Option.some.inj hd, ← Option.some.inj hd']
    exact hcc
  · intro key hkey key' hkey' hne u o' u' o'' hu hu' e he e' he' c hc c' hc' _ a ha ha'
    have hmem := (mem_directKeys.mp hkey).1
    have hmem' := (mem_directKeys.mp hkey').1
    exact hne (key_unique hnd hmem hmem' (exists_of_mem_label hmem hu he hc ha)
      (exists_of_mem_label hmem' hu' he' hc' ha'))

end Execute

/-! ### The entries of a main batch -/

section Entries

variable {task : PartitionTask I P O} {state : RetryState P} {plan : Plan UInt64}
  {records : List (ParsedRecord P)} {key : KeyPlan UInt64} {keys : List (KeyPlan UInt64)}
  {report : KeyReport P} {reports : List (KeyReport P)} {entries dropped : List (RetryEntry P)}

theorem mainEntries_quarantined (hq : state.isQuarantined key.key = true) :
    task.mainEntries state plan records (key :: keys) reports (entries, dropped) =
      task.mainEntries state plan records keys reports
        (entries ++ encodeKey task.handlers plan key records none, dropped) := if_pos hq

theorem mainEntries_done (hq : state.isQuarantined key.key = false) (hf : report.failure = none) :
    task.mainEntries state plan records (key :: keys) (report :: reports) (entries, dropped) =
      task.mainEntries state plan records keys reports (entries, dropped) := by
  rw [mainEntries, if_neg (by simp [hq])]
  dsimp only
  rw [hf]

/-- A failed key is written, or dropped. -/
theorem mainEntries_failed (hq : state.isQuarantined key.key = false) {f : KeyFailure P}
    (hf : report.failure = some f) :
    task.mainEntries state plan records (key :: keys) (report :: reports) (entries, dropped) =
        task.mainEntries state plan records keys reports
          (entries, dropped ++ encodeKey task.handlers plan key records (some f)) ∨
      task.mainEntries state plan records (key :: keys) (report :: reports) (entries, dropped) =
        task.mainEntries state plan records keys reports
          (entries ++ encodeKey task.handlers plan key records (some f), dropped) := by
  rw [mainEntries, if_neg (by simp [hq])]
  dsimp only
  rw [hf]
  dsimp only
  split_ifs
  · exact Or.inl rfl
  · exact Or.inr rfl

end Entries

/-! ### What is written of a main batch -/

/-- The entries of a key that is diverted, or failed in a report. -/
def Written (task : PartitionTask I P O) (state : RetryState P) (plan : Plan UInt64)
    (records : List (ParsedRecord P)) (reported : List (KeyPlan UInt64 × KeyReport P))
    (key : KeyPlan UInt64) (entries : List (RetryEntry P)) : Prop :=
  (state.isQuarantined key.key = true ∧ entries = encodeKey task.handlers plan key records none) ∨
    ∃ report f, (key, report) ∈ reported ∧ report.failure = some f ∧
      entries = encodeKey task.handlers plan key records (some f)

/-- The entries of some keys that are written and those that are dropped, key by key. -/
structure Pieces (task : PartitionTask I P O) (state : RetryState P) (plan : Plan UInt64)
    (records : List (ParsedRecord P)) (keys : List (KeyPlan UInt64))
    (reported : List (KeyPlan UInt64 × KeyReport P))
    (written lost : List (KeyPlan UInt64 × List (RetryEntry P))) : Prop where
  ordered : (written.map Prod.fst).Sublist keys
  entries : ∀ piece ∈ written, task.Written state plan records reported piece.1 piece.2
  diverted : ∀ key ∈ keys, state.isQuarantined key.key = true →
    (key, encodeKey task.handlers plan key records none) ∈ written
  failed : ∀ key report f, (key, report) ∈ reported → report.failure = some f →
    (key, encodeKey task.handlers plan key records (some f)) ∈ written ∨
      (key, encodeKey task.handlers plan key records (some f)) ∈ lost

section Pieces

variable {task : PartitionTask I P O} {state : RetryState P} {plan : Plan UInt64}
  {records : List (ParsedRecord P)} {key : KeyPlan UInt64} {keys : List (KeyPlan UInt64)}
  {report : KeyReport P} {reported : List (KeyPlan UInt64 × KeyReport P)}
  {written lost : List (KeyPlan UInt64 × List (RetryEntry P))}

theorem Pieces.quarantine (h : Pieces task state plan records keys reported written lost)
    (hq : state.isQuarantined key.key = true) : Pieces task state plan records (key :: keys) reported
      ((key, encodeKey task.handlers plan key records none) :: written) lost where
  ordered := h.ordered.cons_cons key
  entries := List.forall_mem_cons.mpr ⟨Or.inl ⟨hq, rfl⟩, h.entries⟩
  diverted key' hkey hq' := by
    rcases List.mem_cons.mp hkey with rfl | hkey
    · exact List.mem_cons_self
    · exact List.mem_cons_of_mem _ (h.diverted key' hkey hq')
  failed key' report f hreport hf := (h.failed key' report f hreport hf).imp_left (List.mem_cons_of_mem _)

theorem Pieces.append (h : Pieces task state plan records keys reported written lost)
    (hq : state.isQuarantined key.key = false)
    {more more' : List (KeyPlan UInt64 × List (RetryEntry P))} (hkeys : (more.map Prod.fst).Sublist [key])
    (hmore : ∀ piece ∈ more, task.Written state plan records [(key, report)] piece.1 piece.2)
    (hfailed : ∀ f, report.failure = some f → (key, encodeKey task.handlers plan key records (some f)) ∈ more ∨
      (key, encodeKey task.handlers plan key records (some f)) ∈ more') :
    Pieces task state plan records (key :: keys) ((key, report) :: reported) (more ++ written)
      (more' ++ lost) where
  ordered := by
    rw [List.map_append]
    exact hkeys.append h.ordered
  entries piece hp := by
    rcases List.mem_append.mp hp with hp | hp
    · refine (hmore piece hp).imp_right ?_
      rintro ⟨report', f, hreport, hf⟩
      exact ⟨report', f, List.mem_cons.mpr (Or.inl (List.mem_singleton.mp hreport)), hf⟩
    · refine (h.entries piece hp).imp_right ?_
      rintro ⟨report', f, hreport, hf⟩
      exact ⟨report', f, List.mem_cons_of_mem _ hreport, hf⟩
  diverted key' hkey hq' := by
    rcases List.mem_cons.mp hkey with rfl | hkey
    · rw [hq] at hq'
      cases hq'
    · exact List.mem_append_right _ (h.diverted key' hkey hq')
  failed key' report' f hreport hf := by
    rcases List.mem_cons.mp hreport with heq | hreport
    · obtain ⟨rfl, rfl⟩ := Prod.mk.inj heq
      exact (hfailed f hf).imp (List.mem_append_left _) (List.mem_append_left _)
    · exact (h.failed key' report' f hreport hf).imp (List.mem_append_right _) (List.mem_append_right _)

/-- A key without a report. -/
theorem Pieces.skip (h : Pieces task state plan records keys reported written lost)
    (hq : state.isQuarantined key.key = false) :
    Pieces task state plan records (key :: keys) reported written lost where
  ordered := h.ordered.cons key
  entries := h.entries
  diverted key' hkey hq' := by
    rcases List.mem_cons.mp hkey with rfl | hkey
    · rw [hq] at hq'
      cases hq'
    · exact h.diverted key' hkey hq'
  failed := h.failed

end Pieces

/-- The entries of a main batch, key by key. -/
theorem exists_pieces (task : PartitionTask I P O) (state : RetryState P) (plan : Plan UInt64)
    (records : List (ParsedRecord P)) :
    ∀ (keys : List (KeyPlan UInt64)) (reports : List (KeyReport P)) (entries dropped : List (RetryEntry P)),
      ∃ written lost : List (KeyPlan UInt64 × List (RetryEntry P)),
        task.mainEntries state plan records keys reports (entries, dropped) =
            (entries ++ written.flatMap Prod.snd, dropped ++ lost.flatMap Prod.snd) ∧
          Pieces task state plan records keys
            ((keys.filter fun key => !state.isQuarantined key.key).zip reports) written lost
  | [], _, _, _ => ⟨[], [], by simp [mainEntries], .slnil, by simp, by simp, by simp⟩
  | key :: keys, reports, entries, dropped => by
    cases hq : state.isQuarantined key.key with
    | true =>
      rw [mainEntries_quarantined hq, List.filter_cons_of_neg (by simp [hq])]
      obtain ⟨written, lost, heq, hpieces⟩ := exists_pieces task state plan records keys reports
        (entries ++ encodeKey task.handlers plan key records none) dropped
      refine ⟨(key, encodeKey task.handlers plan key records none) :: written, lost, ?_, hpieces.quarantine hq⟩
      rw [heq, List.flatMap_cons, List.append_assoc]
    | false =>
      rw [List.filter_cons_of_pos (by simp [hq])]
      cases reports with
      | nil =>
        rw [mainEntries, if_neg (by simp [hq])]
        obtain ⟨written, lost, heq, hpieces⟩ := exists_pieces task state plan records keys [] entries dropped
        rw [List.zip_nil_right] at hpieces ⊢
        exact ⟨written, lost, heq, hpieces.skip hq⟩
      | cons report reports =>
        rw [List.zip_cons_cons]
        cases hf : report.failure with
        | none =>
          rw [mainEntries_done hq hf]
          obtain ⟨written, lost, heq, hpieces⟩ := exists_pieces task state plan records keys reports entries dropped
          exact ⟨[] ++ written, [] ++ lost, heq, hpieces.append hq (List.nil_sublist _) (by simp) (by simp [hf])⟩
        | some f =>
          rcases mainEntries_failed hq hf with hstep | hstep
          · obtain ⟨written, lost, heq, hpieces⟩ := exists_pieces task state plan records keys reports entries
              (dropped ++ encodeKey task.handlers plan key records (some f))
            refine ⟨[] ++ written, [(key, encodeKey task.handlers plan key records (some f))] ++ lost, ?_,
              hpieces.append hq (List.nil_sublist _) (by simp) (by simp [hf])⟩
            rw [hstep, heq, List.append_assoc]
            rfl
          · obtain ⟨written, lost, heq, hpieces⟩ := exists_pieces task state plan records keys reports
              (entries ++ encodeKey task.handlers plan key records (some f)) dropped
            refine ⟨[(key, encodeKey task.handlers plan key records (some f))] ++ written, [] ++ lost, ?_,
              hpieces.append hq (List.Sublist.refl _) ?_ (by simp [hf])⟩
            · rw [hstep, heq, List.append_assoc]
              rfl
            · rintro piece hp
              obtain rfl := List.mem_singleton.mp hp
              exact Or.inr ⟨report, f, List.mem_singleton_self _, hf, rfl⟩

section Written

variable {task : PartitionTask I P O} {marking : task.handlers.Marking} {state : RetryState (Traced P)}
  {batch : List (PolledMessage I (Traced P))} {t : List (TaskEvent I (Traced P) (Traced O))}
  {reports : List (KeyReport (Traced P))}
  (hnd : ((parseMain batch).flatMap (·.payload.2)).Nodup)
  (h : (task.traced marking).executeMain state batch t (some reports))
include h

/-- The execution of a key with its report. -/
theorem exists_execution {key : KeyPlan UInt64} {report : KeyReport (Traced P)}
    (hreport : (key, report) ∈ (directKeys state batch).zip reports) :
    ∃ u, (∀ c ∈ u, TaskEvent.execute (I := I) key.key c ∈ t) ∧
      executeKey (task.handlers.traced marking) (mainPlan batch) key (parseMain batch) u (some report) ∧
      ∀ e ∈ t, ∀ c, e.call = some c → c ∈ u ∨ ∃ key' ∈ directKeys state batch, key' ≠ key ∧
        ∀ a ∈ c.offsets, ∃ r ∈ parseMain batch, r.headers.key = key'.key ∧ a ∈ r.payload.2 := by
  obtain ⟨parts, hparts, hall, hmem⟩ := Async.exists_parts_of_joinAll h
  rw [← hparts] at hreport
  obtain ⟨⟨_, v⟩, hpart, rfl⟩ := List.mem_map.mp hreport
  have hunique : (parts.map fun part => part.1.1).Nodup := by
    have hfst := congrArg (List.map Prod.fst) hparts
    rw [List.map_map] at hfst
    show (parts.map (Prod.fst ∘ Prod.fst)).Nodup
    rw [hfst, List.map_fst_zip (Async.exists_of_joinAll h).1.ge]
    exact (nodup_directKeys state batch).of_map
  obtain ⟨⟨u, hu, hv⟩, hsub⟩ := hall _ hpart
  dsimp only at hv
  subst hv
  refine ⟨u, fun c hc => hsub.subset (List.mem_map_of_mem hc), hu, fun e he c hc => ?_⟩
  obtain ⟨part, hp, he⟩ := hmem e he
  obtain ⟨hlabel, -⟩ := hall part hp
  by_cases hkey : part.1.1 = key
  · obtain rfl := List.inj_on_of_nodup_map hunique hp hpart hkey
    obtain ⟨c', hc', rfl⟩ := List.mem_map.mp he
    exact Or.inl (Option.some.inj hc ▸ hc')
  · have hdirect : part.1.1 ∈ directKeys state batch := by
      have := List.mem_map_of_mem (f := Prod.fst) hp
      rw [hparts] at this
      exact (List.of_mem_zip this).1
    exact Or.inr ⟨_, hdirect, hkey, fun a ha =>
      exists_of_mem_label (mem_directKeys.mp hdirect).1 hlabel he hc ha⟩

/-- The entries of a key, and the calls that did not hand them over. -/
theorem exists_of_written {key : KeyPlan UInt64} {entries : List (RetryEntry (Traced P))}
    (hkey : key ∈ (mainPlan batch).keys)
    (hw : (task.traced marking).Written state (mainPlan batch) (parseMain batch)
      ((directKeys state batch).zip reports) key entries) :
    (∃ failure, Reported (task.handlers.traced marking) (mainPlan batch) key (parseMain batch) failure ∧
        entries = encodeKey (task.handlers.traced marking) (mainPlan batch) key (parseMain batch) failure) ∧
      (((parseMain batch).flatMap (·.payload.2)).Nodup → ∀ entry ∈ entries, ∀ a ∈ entry.payload.2,
        ∀ e ∈ t, ∀ c, e.call = some c → c.handled → a ∉ c.offsets) := by
  rcases hw with ⟨hq, rfl⟩ | ⟨report, f, hreport, hf, rfl⟩
  · have hr : Reported (task.handlers.traced marking) (mainPlan batch) key (parseMain batch) none :=
      fun f hf => by cases hf
    refine ⟨⟨none, hr, rfl⟩, fun hnd entry hentry a ha e he c hc _ hac => ?_⟩
    obtain ⟨m, hm, u, o', hu, he⟩ := Async.exists_of_mem_joinAll h he
    obtain ⟨key', hkey', rfl⟩ := List.mem_map.mp hm
    obtain ⟨hkey', hdirect⟩ := mem_directKeys.mp hkey'
    obtain rfl := key_unique hnd hkey hkey' (mem_encodeKey hkey hr hentry ha).2
      (exists_of_mem_label hkey' hu he hc hac)
    rw [hdirect] at hq
    cases hq
  · obtain ⟨u, -, hu, hcalls⟩ := exists_execution h hreport
    have hr : Reported (task.handlers.traced marking) (mainPlan batch) key (parseMain batch) (some f) :=
      fun f' hf' => ⟨u, report, hu, hf.trans hf'⟩
    refine ⟨⟨some f, hr, rfl⟩, fun hnd entry hentry a ha e he c hc hh hac => ?_⟩
    rcases hcalls e he c hc with hcu | ⟨key', hkey', hne, hrecords⟩
    · exact not_handled_of_encoded hkey hu hnd hf hentry ha hcu hh hac
    · exact hne (key_unique hnd (mem_directKeys.mp hkey').1 hkey (hrecords a hac)
        (mem_encodeKey hkey hr hentry ha).2)

/-- **What is written of a main batch** stands for different records of it, none of which was in a call
that returned `Ok`. -/
theorem written_spec (hown : ∀ m ∈ batch, Own m)
    (hnd : ((parseMain batch).flatMap (·.payload.2)).Nodup) :
    (((task.traced marking).writeMain state batch reports).1.flatMap (·.payload.2)).Nodup ∧
      ∀ entry ∈ ((task.traced marking).writeMain state batch reports).1, ∀ a ∈ entry.payload.2,
        (∃ m ∈ batch, m.offset = a) ∧ ∀ e ∈ t, ∀ c, e.call = some c → c.handled → a ∉ c.offsets := by
  obtain ⟨pieces, lost, heq, hpieces⟩ := (task.traced marking).exists_pieces state (mainPlan batch)
    (parseMain batch) (mainPlan batch).keys reports [] []
  have hkeys := hpieces.ordered
  have hspec := fun piece (hp : piece ∈ pieces) => exists_of_written h
    (hkeys.subset (List.mem_map_of_mem (f := Prod.fst) hp)) (hpieces.entries piece hp)
  rw [writeMain, heq, List.nil_append]
  constructor
  · rw [List.flatMap_assoc]
    refine List.nodup_flatMap.mpr ⟨fun piece hp => ?_, ?_⟩
    · obtain ⟨⟨failure, hr, heq⟩, -⟩ := hspec piece hp
      rw [heq]
      exact nodup_encodeKey (hkeys.subset (List.mem_map_of_mem hp)) hr hnd
    · have hne : pieces.Pairwise fun piece piece' => piece.1 ≠ piece'.1 :=
        List.pairwise_map.mp ((Order.keys_nodup _).of_map.sublist hkeys)
      refine hne.imp_of_mem fun {piece piece'} hp hp' hne a ha ha' => hne ?_
      have hrecord : ∀ {piece}, piece ∈ pieces → a ∈ piece.2.flatMap (·.payload.2) →
          ∃ r ∈ parseMain batch, r.headers.key = piece.1.key ∧ a ∈ r.payload.2 := by
        intro piece hp ha
        obtain ⟨⟨failure, hr, heq⟩, -⟩ := hspec piece hp
        obtain ⟨entry, hentry, ha⟩ := List.mem_flatMap.mp ha
        rw [heq] at hentry
        exact (mem_encodeKey (hkeys.subset (List.mem_map_of_mem hp)) hr hentry ha).2
      exact key_unique hnd (hkeys.subset (List.mem_map_of_mem hp)) (hkeys.subset (List.mem_map_of_mem hp'))
        (hrecord hp ha) (hrecord hp' ha')
  · intro entry hentry a ha
    obtain ⟨piece, hp, hentry⟩ := List.mem_flatMap.mp hentry
    obtain ⟨⟨failure, hr, heq⟩, hnot⟩ := hspec piece hp
    refine ⟨?_, hnot hnd entry hentry a ha⟩
    rw [heq] at hentry
    obtain ⟨-, r, hr, -, ha⟩ := mem_encodeKey (hkeys.subset (List.mem_map_of_mem hp)) hr hentry ha
    exact exists_message hown hr ha

/-- **What becomes of a record of a main batch**: it is over, or it is written or dropped. -/
theorem served_or_written {good : P → Prop} {r : ParsedRecord (Traced P)} (hr : r ∈ parseMain batch)
    (hacc : Accepted task.handlers r.headers r.payload.1)
    (hrec : Recovers task.handlers marking good (parseMain batch) r) {a : ℕ} (ha : a ∈ r.payload.2) :
    Served (t.filterMap TaskEvent.call) a ∨
      (∃ entry ∈ ((task.traced marking).writeMain state batch reports).1,
        Represents task.handlers good a entry) ∨
        ∃ entry ∈ ((task.traced marking).writeMain state batch reports).2, a ∈ entry.payload.2 := by
  obtain ⟨i, hi⟩ := List.mem_iff_getElem?.mp hr
  obtain ⟨written, lost, heq, hpieces⟩ := (task.traced marking).exists_pieces state (mainPlan batch)
    (parseMain batch) (mainPlan batch).keys reports [] []
  rw [writeMain, heq, List.nil_append, List.nil_append]
  -- the key of the record
  have hmem : r.headers.key ∈ (mainPlan batch).keys.map KeyPlan.key := by
    refine (Groups.mem_keys_new _ _).mpr (List.mem_map.mpr ⟨_, List.mem_map_of_mem hr, rfl⟩)
  obtain ⟨key, hkey, hk⟩ := List.mem_map.mp hmem
  cases hq : state.isQuarantined key.key with
  | true =>
    obtain ⟨entry, hentry, hrep⟩ := represented_of_diverted hkey hi ha hrec hk.symm hacc
    exact Or.inr (Or.inl ⟨entry, List.mem_flatMap.mpr ⟨_, hpieces.diverted key hkey hq, hentry⟩, hrep⟩)
  | false =>
    have hdirect : key ∈ directKeys state batch := mem_directKeys.mpr ⟨hkey, hq⟩
    obtain ⟨report, hreport⟩ : ∃ report, (key, report) ∈ (directKeys state batch).zip reports := by
      obtain ⟨j, hj, rfl⟩ := List.getElem_of_mem hdirect
      have hlt : j < reports.length := (Async.exists_of_joinAll h).1 ▸ hj
      exact ⟨reports[j], List.mem_iff_getElem.mpr ⟨j, by simpa using ⟨hj, hlt⟩, List.getElem_zip⟩⟩
    obtain ⟨u, hsub, hu, -⟩ := exists_execution h hreport
    rcases served_or_represented hkey hi ha hrec hu hk.symm hacc with
      ⟨c, hc, hserved, hca⟩ | ⟨f, hf, entry, hentry, hrep⟩
    · exact Or.inl ⟨c, List.mem_filterMap.mpr ⟨_, hsub c hc, rfl⟩, hserved, hca⟩
    · rcases hpieces.failed key report f hreport hf with hp | hp
      · exact Or.inr (Or.inl ⟨entry, List.mem_flatMap.mpr ⟨_, hp, hentry⟩, hrep⟩)
      · exact Or.inr (Or.inr ⟨entry, List.mem_flatMap.mpr ⟨_, hp, hentry⟩, hrep.1⟩)

end Written

end PartitionTask

/-! ### A round of attempts -/

/-- The pending records stand for different records. -/
structure Apart (state : RetryState (Traced P)) : Prop where
  nodup : ∀ p ∈ state.pendingRecords, p.record.payload.2.Nodup
  unique : ∀ p ∈ state.pendingRecords, ∀ p' ∈ state.pendingRecords, ∀ a ∈ p.record.payload.2,
    a ∈ p'.record.payload.2 → p = p'

section Round

variable {handlers : HandlerList P O} {marking : handlers.Marking} {state : RetryState (Traced P)}
  {next now : ℕ} {due : List UInt64} {key : UInt64} {t : List (List ℕ × Call (Traced O))}

theorem mem_pending_of_queue {p : PendingRecord P} {state : RetryState P} (hp : p ∈ state.queue key) :
    p ∈ state.pendingRecords := RetryState.mem_pendingRecords_iff_queue.mpr ⟨key, hp⟩

theorem Apart.nodup_records (h : Apart state) (hvalid : state.Valid next) (key : UInt64) :
    ((state.records key).flatMap (·.payload.2)).Nodup := by
  rw [RetryState.records_eq, List.flatMap_map]
  refine List.nodup_flatMap.mpr ⟨fun p hp => h.nodup p (mem_pending_of_queue hp), ?_⟩
  refine (hvalid.of_queue key).1.imp_of_mem fun {p p'} hp hp' hlt a ha ha' => ?_
  rw [h.unique p (mem_pending_of_queue hp) p' (mem_pending_of_queue hp') a ha ha'] at hlt
  exact Nat.lt_irrefl _ hlt

/-- An attempt has nothing to do, or it executes the key of its plan. -/
theorem attemptRuns_cases {records : List (ParsedRecord (Traced P))}
    {o : Option (KeyReport (Traced P))} (h : attemptRuns (handlers.traced marking) records t o) :
    (t = [] ∧ ∀ report, o = some report → report = ⟨[], none⟩) ∨
      ∃ key ∈ (Plan.new (planRecords records)).keys,
        executeKeyWith (fun _ _ run => (runOne (handlers.traced marking) (Plan.new (planRecords records))
          records run).label (offsetsOf records ((Plan.new (planRecords records)).records run), ·))
            (Plan.new (planRecords records)) key t o := by
  cases hk : (Plan.new (planRecords records)).keys.head? with
  | none =>
    simp only [attemptRuns, hk] at h
    exact Or.inl h
  | some key =>
    simp only [attemptRuns, hk] at h
    exact Or.inr ⟨key, List.mem_of_mem_head? hk, h⟩

/-- The plan of an attempt, and its key. -/
theorem exists_of_attemptRuns {records : List (ParsedRecord (Traced P))}
    {o : Option (KeyReport (Traced P))} (h : attemptRuns (handlers.traced marking) records t o)
    {e : List ℕ × Call (Traced O)} (he : e ∈ t) : ∃ key ∈ (Plan.new (planRecords records)).keys,
      executeKeyWith (fun _ _ run => (runOne (handlers.traced marking) (Plan.new (planRecords records))
        records run).label (offsetsOf records ((Plan.new (planRecords records)).records run), ·))
          (Plan.new (planRecords records)) key t o := by
  rcases attemptRuns_cases h with ⟨rfl, -⟩ | h
  · cases he
  · exact h

theorem runOne_of_label {records : List (ParsedRecord (Traced P))} (_ : ℕ) (_ : Stage) (run : Run)
    (t : List (List ℕ × Call (Traced O))) (o : Option (RunResult (Traced P)))
    (h : (runOne (handlers.traced marking) (Plan.new (planRecords records)) records run).label
      (offsetsOf records ((Plan.new (planRecords records)).records run), ·) t o) :
    runOne (handlers.traced marking) (Plan.new (planRecords records)) records run (t.map Prod.snd) o := by
  obtain ⟨u, hu, rfl⟩ := h
  rw [List.map_map]
  exact (List.map_id u).symm ▸ hu

/-- The calls of an attempt hand over its records. -/
theorem exists_of_mem_attempt {records : List (ParsedRecord (Traced P))}
    {o : Option (KeyReport (Traced P))} (h : attemptRuns (handlers.traced marking) records t o)
    {e : List ℕ × Call (Traced O)} (he : e ∈ t) {a : ℕ} (ha : a ∈ e.2.offsets) :
    ∃ r ∈ records, a ∈ r.payload.2 := by
  obtain ⟨key, hkey, h⟩ := exists_of_attemptRuns h he
  obtain ⟨w, hw, ha⟩ := mem_execute runOne_of_label h he ha
  obtain ⟨r, hr, -, ha⟩ := exists_of_mem_runOffsets hkey hw ha
  exact ⟨r, hr, ha⟩

/-- A record of a completed run is over. -/
theorem served_of_attempt {records : List (ParsedRecord (Traced P))} {report : KeyReport (Traced P)}
    (h : attemptRuns (handlers.traced marking) records t (some report)) {i : ℕ} (hi : i ∈ report.completed)
    {r : ParsedRecord (Traced P)} (hr : records[i]? = some r) (hacc : Accepted handlers r.headers r.payload.1)
    {a : ℕ} (ha : a ∈ r.payload.2) : Served (t.map Prod.snd) a := by
  rcases attemptRuns_cases h with ⟨-, hnone⟩ | ⟨key, hkey, h⟩
  · rw [hnone report rfl] at hi
    cases hi
  · exact served_of_completed runOne_of_label hkey h hi hr hacc ha

theorem exists_pending_of_attempt {o : Option (KeyReport (Traced P))}
    (h : attemptRuns (handlers.traced marking) (state.records key) t o) {e : List ℕ × Call (Traced O)}
    (he : e ∈ t) {a : ℕ} (ha : a ∈ e.2.offsets) : ∃ p ∈ state.queue key, a ∈ p.record.payload.2 := by
  obtain ⟨r, hr, ha⟩ := exists_of_mem_attempt h he ha
  obtain ⟨p, hp, rfl⟩ := RetryState.mem_records.mp hr
  exact ⟨p, hp, ha⟩

variable {o : Option (RetryState (Traced P) × List Outcome)}

/-- A round of attempts is that of the due keys. -/
theorem exists_joinAll (h : runDueRuns (handlers.traced marking) state due now t o) :
    ∃ o', Async.joinAll (due.map fun key => attemptRuns (handlers.traced marking) (state.records key)) t o' ∧
      ∀ state' outcomes, o = some (state', outcomes) → ∃ reports, o' = some reports ∧ (state', outcomes) =
        finishReports now ((due.map fun key => (key, state.records key)).zip reports) state := by
  by_cases hdue : due = []
  · rw [runDueRuns, if_pos hdue] at h
    subst hdue
    obtain ⟨rfl, ho⟩ := h
    exact ⟨some [], Async.joinAll_nil_iff.mpr ⟨rfl, rfl⟩, fun state' outcomes hs => ⟨[], rfl, ho _ hs⟩⟩
  · simp only [runDueRuns, if_neg hdue, List.map_map] at h
    rcases h with ⟨h, rfl⟩ | ⟨reports, u, v, hu, ⟨rfl, ho⟩, rfl⟩
    · exact ⟨none, h, fun _ _ hs => by cases hs⟩
    · exact ⟨some reports, (List.append_nil u).symm ▸ hu, fun state' outcomes hs => ⟨reports, rfl, ho _ hs⟩⟩

/-- The calls of a round hand over pending records. -/
theorem exists_pending (h : runDueRuns (handlers.traced marking) state due now t o)
    {e : List ℕ × Call (Traced O)} (he : e ∈ t) {a : ℕ} (ha : a ∈ e.2.offsets) :
    ∃ p ∈ state.pendingRecords, a ∈ p.record.payload.2 := by
  obtain ⟨o', h, -⟩ := exists_joinAll h
  obtain ⟨m, hm, u, o', hu, he⟩ := Async.exists_of_mem_joinAll h he
  obtain ⟨key, hkey, rfl⟩ := List.mem_map.mp hm
  obtain ⟨p, hp, ha⟩ := exists_pending_of_attempt hu he ha
  exact ⟨p, mem_pending_of_queue hp, ha⟩

/-- The outcome of a report. -/
theorem exists_outcome {records : List (ParsedRecord P)} {report : KeyReport P} :
    ∀ {work : List ((UInt64 × List (ParsedRecord P)) × KeyReport P)} {state : RetryState P},
      ((key, records), report) ∈ work → ∃ outcome ∈ (finishReports now work state).2,
        outcome.key = key ∧ ∀ offset ∈ offsetsOf records report.completed, offset ∈ outcome.gone
  | ((key', records'), report') :: work, state, h => by
    rw [finishReports_cons]
    rcases List.mem_cons.mp h with heq | h
    · cases heq
      refine ⟨_, List.mem_cons_self, rfl, fun offset ho => ?_⟩
      unfold Outcome.gone
      split_ifs
      · exact List.mem_append_left _ ho
      · exact ho
    · obtain ⟨outcome, ho, hall⟩ := exists_outcome h
      exact ⟨outcome, List.mem_cons_of_mem _ ho, hall⟩

/-- The report of an outcome. -/
theorem exists_report {outcome : Outcome} :
    ∀ {work : List ((UInt64 × List (ParsedRecord P)) × KeyReport P)} {state : RetryState P},
      outcome ∈ (finishReports now work state).2 → ∃ entry ∈ work, outcome.key = entry.1.1 ∧
        outcome.resolved = offsetsOf entry.1.2 entry.2.completed
  | [], _, h => absurd h List.not_mem_nil
  | ((key, records), report) :: work, state, h => by
    rw [finishReports_cons] at h
    rcases List.mem_cons.mp h with rfl | h
    · exact ⟨_, List.mem_cons_self, rfl, rfl⟩
    · obtain ⟨entry, he, hall⟩ := exists_report h
      exact ⟨entry, List.mem_cons_of_mem _ he, hall⟩

/-- **A record that is resolved is over.** -/
theorem served_of_resolved (hvalid : state.Valid next) {state' : RetryState (Traced P)}
    {outcomes : List Outcome}
    (h : runDueRuns (handlers.traced marking) state due now t (some (state', outcomes)))
    {p : PendingRecord (Traced P)} (hp : p ∈ state.queue key) {outcome : Outcome} (ho : outcome ∈ outcomes)
    (hk : outcome.key = key) (hres : p.record.offset ∈ outcome.resolved)
    (hacc : Accepted handlers p.record.headers p.record.payload.1) {a : ℕ} (ha : a ∈ p.record.payload.2) :
    Served (t.map Prod.snd) a := by
  obtain ⟨o', hjoin, hreports⟩ := exists_joinAll h
  obtain ⟨reports, rfl, heq⟩ := hreports _ _ rfl
  obtain ⟨-, rfl⟩ := Prod.mk.inj heq
  obtain ⟨⟨⟨key', records⟩, report⟩, hentry, hkey, hresolved⟩ := exists_report ho
  rw [List.zip_map_left] at hentry
  obtain ⟨⟨k, report'⟩, hzip, hentry⟩ := List.mem_map.mp hentry
  obtain ⟨hrecords, rfl⟩ := Prod.mk.inj hentry
  obtain ⟨rfl, rfl⟩ := Prod.mk.inj hrecords
  dsimp only at hkey hresolved
  obtain rfl : key = k := hk.symm.trans hkey
  -- the attempt on the key
  obtain ⟨parts, hparts, hall, -⟩ := Async.exists_parts_of_joinAll hjoin
  rw [← hparts] at hzip
  obtain ⟨⟨_, u⟩, hpart, rfl⟩ := List.mem_map.mp hzip
  obtain ⟨hu, hsub⟩ := hall _ hpart
  -- the record is the one at its offset
  rw [hresolved] at hres
  obtain ⟨i, hi, r, hr, hoffset⟩ := mem_offsetsOf.mp hres
  obtain ⟨j, hj⟩ := List.mem_iff_getElem?.mp (RetryState.mem_records.mpr ⟨p, hp, rfl⟩)
  obtain rfl := hvalid.index_unique hr hj hoffset
  obtain ⟨c, hc, hserved⟩ := served_of_attempt hu hi hj hacc ha
  exact ⟨c, (hsub.map Prod.snd).subset hc, hserved⟩

variable (hvalid : state.Valid next) (hapart : Apart state) (hdue : due.Nodup)
include hvalid hapart

section
include hdue

/-- **The calls of a round of attempts** hand over no record again that was in a call that returned
`Ok`. -/
theorem Apart.once_runDueRuns (h : runDueRuns (handlers.traced marking) state due now t o) :
    t.Pairwise fun e e' => e.2.Once e'.2 := by
  obtain ⟨o', h, -⟩ := exists_joinAll h
  refine Async.pairwise_joinAll hdue (fun key hkey u o' hu => ?_) (fun key hkey key' hkey' hne u o' u' o''
    hu hu' e he e' he' _ a ha ha' => hne ?_) h
  · cases u with
    | nil => exact .nil
    | cons e u =>
      obtain ⟨plan, hplan, hu⟩ := exists_of_attemptRuns hu List.mem_cons_self
      exact List.pairwise_map.mp (once_execute runOne_of_label hplan (hapart.nodup_records hvalid key) hu)
  · obtain ⟨p, hp, ha⟩ := exists_pending_of_attempt hu he ha
    obtain ⟨p', hp', ha'⟩ := exists_pending_of_attempt hu' he' ha'
    obtain rfl := hapart.unique p (mem_pending_of_queue hp) p' (mem_pending_of_queue hp') a ha ha'
    exact ((hvalid.of_queue key).2 p hp).1.symm.trans ((hvalid.of_queue key').2 p hp').1

end

/-- **What is pending after a round** was pending before, and in no call of the round that returned `Ok`,
unless a run failed after such a call. -/
theorem Apart.not_handled_of_pending {state' : RetryState (Traced P)} {outcomes : List Outcome}
    (h : runDueRuns (handlers.traced marking) state due now t (some (state', outcomes)))
    (hwhole : ∀ e e', [e, e'].Sublist t → e.2.handled → e'.2.retryable → e.1 ≠ e'.1)
    {p : PendingRecord (Traced P)} (hp : p ∈ state'.pendingRecords) : p ∈ state.pendingRecords ∧
      ∀ e ∈ t, e.2.handled → ∀ a ∈ e.2.offsets, a ∉ p.record.payload.2 := by
  obtain ⟨o', hjoin, ho⟩ := exists_joinAll h
  obtain ⟨reports, rfl, heq⟩ := ho _ _ rfl
  obtain ⟨rfl, -⟩ := Prod.mk.inj heq
  obtain ⟨key, hp⟩ := RetryState.mem_pendingRecords_iff_queue.mp hp
  obtain ⟨hp, hleft⟩ := (mem_queue_finishReports _ _).mp hp
  refine ⟨mem_pending_of_queue hp, fun e he hh a ha hap => ?_⟩
  obtain ⟨parts, hparts, hall, hmem⟩ := Async.exists_parts_of_joinAll hjoin
  obtain ⟨⟨⟨k, report⟩, u⟩, hpart, heu⟩ := hmem e he
  obtain ⟨hu, hsub⟩ := hall _ hpart
  dsimp only at hu hsub heu
  obtain ⟨p', hp', ha'⟩ := exists_pending_of_attempt hu heu ha
  obtain rfl := hapart.unique p (mem_pending_of_queue hp) p' (mem_pending_of_queue hp') a hap ha'
  obtain rfl : key = k := ((hvalid.of_queue key).2 p hp).1.symm.trans ((hvalid.of_queue k).2 p hp').1
  obtain ⟨plan, hplan, hu⟩ := exists_of_attemptRuns hu heu
  obtain ⟨i, hi⟩ := List.mem_iff_getElem?.mp (RetryState.mem_records.mpr ⟨p, hp, rfl⟩)
  rcases completed_of_handled runOne_of_label (hapart.nodup_records hvalid key) hu heu hh hi hap ha with
    hdone | ⟨e', hafter, hfailed, index, stage, run, v, o, ⟨w, -, rfl⟩, hev, hev'⟩
  · have hwork : ((key, state.records key), report) ∈
        (due.map fun key => (key, state.records key)).zip reports := by
      rw [List.zip_map_left]
      exact List.mem_map.mpr ⟨(key, report), hparts ▸ List.mem_map_of_mem hpart, rfl⟩
    obtain ⟨outcome, ho, hk, hgone⟩ := exists_outcome hwork
    exact hleft outcome ho hk (hgone _ (mem_offsetsOf.mpr ⟨i, hdone, _, hi, rfl⟩))
  · obtain ⟨c, -, rfl⟩ := List.mem_map.mp hev
    obtain ⟨c', -, rfl⟩ := List.mem_map.mp hev'
    exact hwhole _ _ (hafter.trans hsub) hh hfailed rfl

end Round

end Wakuwaku.Iggy.Consumer
