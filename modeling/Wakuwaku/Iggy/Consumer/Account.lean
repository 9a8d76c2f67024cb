import Wakuwaku.Iggy.Consumer.Work
import Mathlib.Data.List.Perm.Basic

/-! # What encoding a failed key writes

Encoding the failure of a key writes what each part of its work has left (`encodeKey_failed`): nothing
of a run that completed, the remainder of a run that failed, and the reduced records of a run that
was not started. The three make up the records of the key, so that nothing of a failing key is lost,
or both completed and written back (`executed_and_encoded`). -/

namespace Wakuwaku.Iggy.Consumer

open Wakuwaku.Iggy.Events Wakuwaku.Iggy.Partition Wakuwaku.Iggy.Consumer.Execution

variable {P O : Type}

/-- The result of a run in a trace; a run that was not started has none. -/
def resultOf (t : List (Started P)) (w : Work) : Option (RunResult P) :=
  (t.find? (·.work = w)).bind (·.result)

/-- What became of a run. -/
inductive Fate where
  | completed
  | failed
  | unstarted
  deriving DecidableEq, Repr

/-- The fate of a run with a result, or without one. -/
def Fate.of : Option (RunResult P) → Fate
  | some .done => .completed
  | some (.failed _ _) => .failed
  | none => .unstarted

/-- The records of the runs of a key with one fate. -/
def recordsWith (plan : Plan UInt64) (key : KeyPlan UInt64) (t : List (Started P)) (fate : Fate) :
    List ℕ :=
  ((workOf plan key).filter fun w => .of (resultOf t w) = fate).flatMap fun w => plan.records w.run

/-- What is left of a run: nothing if it completed, its remainder if it failed, and its reduced records
if it was not started. -/
def remaining (handlers : HandlerList P O) (plan : Plan UInt64) (records : List (ParsedRecord P))
    (t : List (Started P)) (w : Work) : List P :=
  match resultOf t w with
  | some .done => []
  | some (.failed _ remainder) => remainder
  | none => reduce handlers plan records w.run

namespace Account

variable {handlers : HandlerList P O} {plan : Plan UInt64} {records : List (ParsedRecord P)}

/-! ### Looking up the failed runs -/

theorem swapRemove_perm {α : Type} {l : List α} {i : ℕ} (hi : i < l.length) :
    (swapRemove l i).Perm (l.eraseIdx i) := by
  obtain ⟨init, last, rfl⟩ := (List.eq_nil_or_concat l).resolve_left (by rintro rfl; simp at hi)
  rw [List.concat_eq_append] at *
  have hswap : swapRemove (init ++ [last]) i = ((init ++ [last]).set i last).dropLast := by
    simp [swapRemove]
  rw [hswap]
  rw [List.length_append, List.length_singleton] at hi
  rcases Nat.lt_or_ge i init.length with h | h
  · rw [List.set_append_left i _ h, List.dropLast_concat, List.eraseIdx_append_of_lt_length h]
    exact (List.set_perm_cons_eraseIdx h last).trans (List.perm_append_singleton _ _).symm
  · obtain rfl : i = init.length := by omega
    rw [List.set_append_right _ _ h, List.eraseIdx_append_of_length_le h]
    simp

theorem find?_of_nodup {α β : Type} [DecidableEq β] {f : α → β} {l : List α} (hl : (l.map f).Nodup)
    {a : α} (ha : a ∈ l) : l.find? (fun b => f b = f a) = some a := by
  cases h : l.find? (fun b => f b = f a) with
  | none => simpa using List.find?_eq_none.mp h a ha
  | some b =>
    have hb := List.mem_of_find?_eq_some h
    have hfb : f b = f a := by simpa using List.find?_some h
    rw [List.inj_on_of_nodup_map hl hb ha hfb]

/-- Taking out one failed run leaves the lookup of the others as it is. -/
theorem find?_swapRemove {failed : List (FailedRun P)} (hnd : (failed.map (·.stage)).Nodup)
    {stage stage' : Stage} (hne : stage' ≠ stage) {i : ℕ} (hi : i < failed.length)
    (hs : failed[i].stage = stage) :
    (swapRemove failed i).find? (·.stage = stage') = failed.find? (·.stage = stage') := by
  have hperm := swapRemove_perm hi
  have hcons : (failed[i] :: swapRemove failed i).Perm failed :=
    (hperm.cons _).trans (List.getElem_cons_eraseIdx_perm hi)
  have hnd' : ((swapRemove failed i).map (·.stage)).Nodup :=
    (List.nodup_cons.mp ((hcons.map (·.stage)).nodup_iff.mpr hnd)).2
  cases h : failed.find? (·.stage = stage') with
  | none =>
    refine List.find?_eq_none.mpr fun r hr => ?_
    exact List.find?_eq_none.mp h r (hcons.mem_iff.mp (List.mem_cons_of_mem _ hr))
  | some r =>
    have hr : r.stage = stage' := by simpa using List.find?_some h
    have hm : r ∈ swapRemove failed i := by
      rcases List.mem_cons.mp (hcons.mem_iff.mpr (List.mem_of_find?_eq_some h)) with rfl | hm
      · exact absurd (hr.symm.trans hs) hne
      · exact hm
    rw [← hr]
    exact find?_of_nodup hnd' hm

/-! ### The entries of the failed segment -/

variable (handlers plan records) in
/-- What a run of the failed segment has left. -/
def leftAt (failed : List (FailedRun P)) (kind : StageKind) (stage : Stage) (run : Run) : List P :=
  if stage.kind.toNat < kind.toNat then []
  else if stage.kind = kind then ((failed.find? (·.stage = stage)).map (·.remainder)).getD []
  else reduce handlers plan records run

@[simp] theorem pushRun_nil (key : UInt64) (kind : StageKind) (run : Run) :
    pushRun handlers key kind run [] = [] := by
  unfold pushRun
  cases handlers.associativity run.tag <;> rfl

theorem encodeFailed_eq (key : UInt64) (kind : StageKind) {failed₀ : List (FailedRun P)} :
    ∀ {stages : List (Stage × Run)} {failed : List (FailedRun P)}, (stages.map Prod.fst).Nodup →
      (failed.map (·.stage)).Nodup →
      (∀ a ∈ stages, failed.find? (·.stage = a.1) = failed₀.find? (·.stage = a.1)) →
        encodeFailed handlers plan records key kind stages failed =
          stages.flatMap fun a => pushRun handlers key a.1.kind a.2
            (leftAt handlers plan records failed₀ kind a.1 a.2)
  | [], _, _, _, _ => rfl
  | (stage, run) :: rest, failed, hs, hf, hfind => by
    rw [List.map_cons, List.nodup_cons] at hs
    have hrest := fun a ha => hfind a (List.mem_cons_of_mem _ ha)
    have ih := encodeFailed_eq key kind hs.2 hf hrest
    rw [encodeFailed, List.flatMap_cons]
    by_cases h1 : stage.kind.toNat < kind.toNat
    · have hl : leftAt handlers plan records failed₀ kind stage run = [] := if_pos h1
      simp only [failedPayloads, if_pos h1, hl, pushRun_nil, ih]
    by_cases h2 : stage.kind = kind
    · have hl : leftAt handlers plan records failed₀ kind stage run =
          ((failed.find? (·.stage = stage)).map (·.remainder)).getD [] := by
        rw [leftAt, if_neg h1, if_pos h2, ← hfind (stage, run) List.mem_cons_self]
      simp only [failedPayloads, if_neg h1, if_pos h2, hl]
      cases hp : failed.findIdx? (·.stage = stage) with
      | none =>
        have hnone : failed.find? (·.stage = stage) = none := by
          simpa using hp
        simp only [hnone, Option.map_none, Option.getD_none, pushRun_nil, ih]
      | some position =>
        obtain ⟨hlt, hstage, -⟩ := List.findIdx?_eq_some_iff_getElem.mp hp
        have hstage : failed[position].stage = stage := by simpa using hstage
        have hsome : failed.find? (·.stage = stage) = some failed[position] := by
          rw [← hstage]
          exact find?_of_nodup hf (List.getElem_mem hlt)
        have hperm : (failed[position] :: swapRemove failed position).Perm failed :=
          ((swapRemove_perm hlt).cons _).trans (List.getElem_cons_eraseIdx_perm hlt)
        have hne : ∀ a ∈ rest, a.1 ≠ stage := fun a ha he => hs.1 (List.mem_map.mpr ⟨a, ha, he⟩)
        have ih' := encodeFailed_eq key kind hs.2
          (List.nodup_cons.mp ((hperm.map (·.stage)).nodup_iff.mpr hf)).2
          fun a ha => (find?_swapRemove hf (hne a ha) hlt hstage).trans (hrest a ha)
        simp only [List.getElem?_eq_getElem hlt, hsome, Option.map_some, Option.getD_some, ih']
    · have hl : leftAt handlers plan records failed₀ kind stage run =
          reduce handlers plan records run := by rw [leftAt, if_neg h1, if_neg h2]
      simp only [failedPayloads, if_neg h1, if_neg h2, hl, ih]

/-! ### The entries of a key -/

theorem encodeSegment_eq (key : UInt64) (segment : Segment) (index : ℕ) :
    encodeSegment handlers plan records key segment = (workAt plan segment index).flatMap fun w =>
      pushRun handlers key w.stage.kind w.run (reduce handlers plan records w.run) := by
  rw [encodeSegment, workAt, List.flatMap_map]

theorem flatMap_encodeSegment (key : UInt64) : ∀ (segments : List Segment) (index : ℕ),
    segments.flatMap (encodeSegment handlers plan records key) =
      (workFrom plan segments index).flatMap fun w =>
        pushRun handlers key w.stage.kind w.run (reduce handlers plan records w.run)
  | [], _ => rfl
  | segment :: rest, index => by
    rw [List.flatMap_cons, workFrom, List.flatMap_append, encodeSegment_eq key segment index,
      flatMap_encodeSegment key rest (index + 1)]

variable (handlers plan records) in
/-- What a run of a failed key has left, by what the failure says. -/
def leftOf (f : KeyFailure P) (kind : StageKind) (w : Work) : List P :=
  if w.segment < f.segment then []
  else if w.segment = f.segment then leftAt handlers plan records f.failedRuns kind w.stage w.run
  else reduce handlers plan records w.run

variable (handlers plan records) in
theorem encode_from (key : UInt64) (f : KeyFailure P) (kind : StageKind)
    (hnd : (f.failedRuns.map (·.stage)).Nodup) : ∀ (segments : List Segment) (index : ℕ),
      index ≤ f.segment → (match segments.drop (f.segment - index) with
        | [] => []
        | segment :: rest =>
          encodeFailed handlers plan records key kind (stagesOf plan segment) f.failedRuns ++
            rest.flatMap (encodeSegment handlers plan records key)) =
        (workFrom plan segments index).flatMap fun w =>
          pushRun handlers key w.stage.kind w.run (leftOf handlers plan records f kind w)
  | [], _, _ => by simp [workFrom]
  | segment :: rest, index, hle => by
    rw [workFrom, List.flatMap_append]
    rcases Nat.lt_or_ge index f.segment with hlt | hge
    · obtain ⟨n, hn⟩ : ∃ n, f.segment - index = n + 1 := ⟨f.segment - index - 1, by omega⟩
      have hskip : (workAt plan segment index).flatMap (fun w =>
          pushRun handlers key w.stage.kind w.run (leftOf handlers plan records f kind w)) = [] := by
        refine List.flatMap_eq_nil_iff.mpr fun w hw => ?_
        rw [leftOf, if_pos (by rw [segment_workAt hw]; exact hlt), pushRun_nil]
      rw [hskip, List.nil_append, ← encode_from key f kind hnd rest (index + 1) hlt, hn,
        show f.segment - (index + 1) = n by omega]
      rfl
    · obtain rfl : index = f.segment := by omega
      rw [Nat.sub_self, List.drop_zero]
      refine congrArg₂ (· ++ ·) ?_ ?_
      · rw [encodeFailed_eq key kind (stage_injective_stagesOf segment) hnd fun _ _ => rfl, workAt,
          List.flatMap_map]
        refine List.flatMap_congr fun a _ => ?_
        rw [leftOf, if_neg (Nat.lt_irrefl _), if_pos rfl]
      · rw [flatMap_encodeSegment key rest (f.segment + 1)]
        refine List.flatMap_congr fun w hw => ?_
        have := (segment_workFrom hw).1
        rw [leftOf, if_neg (by omega), if_neg (by omega)]

/-- **What encoding a failure writes**, run by run. -/
theorem encodeKey_failure {key : KeyPlan UInt64} {f : KeyFailure P} {first : FailedRun P}
    (hfirst : f.failedRuns.head? = some first) (hnd : (f.failedRuns.map (·.stage)).Nodup) :
    encodeKey handlers plan key records (some f) = (workOf plan key).flatMap fun w =>
      pushRun handlers key.key w.stage.kind w.run
        (leftOf handlers plan records f first.stage.kind w) := by
  have h := encode_from handlers plan records key.key f first.stage.kind hnd (plan.segmentsOf key) 0 (Nat.zero_le _)
  rw [workOf, ← h, Nat.sub_zero]
  simp only [encodeKey, hfirst]
  cases (plan.segmentsOf key).drop f.segment <;> rfl

/-- What diverting a key writes, run by run. -/
theorem encodeKey_none {key : KeyPlan UInt64} :
    encodeKey handlers plan key records none = (workOf plan key).flatMap fun w =>
      pushRun handlers key.key w.stage.kind w.run (reduce handlers plan records w.run) :=
  flatMap_encodeSegment key.key _ 0

/-! ### Reading the trace -/

theorem flatMap_filter {α β : Type} {p : α → Bool} {f : α → List β} : ∀ {l : List α},
    (∀ a ∈ l, p a = false → f a = []) → (l.filter p).flatMap f = l.flatMap f
  | [], _ => rfl
  | a :: l, h => by
    have ih := flatMap_filter (l := l) fun b hb => h b (List.mem_cons_of_mem _ hb)
    cases hp : p a with
    | true => rw [List.filter_cons_of_pos hp, List.flatMap_cons, List.flatMap_cons, ih]
    | false =>
      rw [List.filter_cons_of_neg (by simp [hp]), List.flatMap_cons, h a List.mem_cons_self hp,
        List.nil_append, ih]

section Trace

variable {key : KeyPlan UInt64} {t : List (Started P)} {results : List (Work × RunResult P)}
  {failure : Option (KeyFailure P)} {w : Work} {r : RunResult P}

theorem nodup_workOf (plan : Plan UInt64) (key : KeyPlan UInt64) : (workOf plan key).Nodup :=
  List.Nodup.of_map _ (nodup_workFrom _ _)

variable (ran : Ran plan (workOf plan key) results failure)
  (ht : t.Perm (results.map fun e => ⟨e.1, some e.2⟩))
include ran

omit ht in
theorem exists_filter : ∃ p : Work → Bool, results.map Prod.fst = (workOf plan key).filter p := by
  cases hf : failure with
  | none => exact ⟨fun _ => true, by rw [(ran.all hf).1, List.filter_true]⟩
  | some f =>
    obtain ⟨kind, h, -⟩ := ran.upTo f hf
    exact ⟨_, h⟩

omit ht in
theorem sublist_results : (results.map Prod.fst).Sublist (workOf plan key) := by
  obtain ⟨p, hp⟩ := exists_filter ran
  rw [hp]
  exact List.filter_sublist

omit ht in
theorem nodup_results : (results.map fun e => (e.1.segment, e.1.stage)).Nodup := by
  have h := (sublist_results ran).map fun w : Work => (w.segment, w.stage)
  rw [List.map_map] at h
  exact (nodup_workFrom _ _).sublist h

omit ht in
theorem result_unique {e e' : Work × RunResult P} (he : e ∈ results) (he' : e' ∈ results)
    (hseg : e.1.segment = e'.1.segment) (hstage : e.1.stage = e'.1.stage) : e = e' :=
  List.inj_on_of_nodup_map (nodup_results ran) he he' (by simp [hseg, hstage])

include ht

omit ran in
theorem exists_result {e : Started P} (he : e ∈ t) : ∃ r, (e.work, r) ∈ results ∧ e.result = some r := by
  obtain ⟨e', he', rfl⟩ := List.mem_map.mp (ht.mem_iff.mp he)
  exact ⟨_, he', rfl⟩

/-- No run is started twice. -/
theorem nodup_started : (t.map (·.work)).Nodup := by
  refine (ht.map (·.work)).nodup_iff.mpr ?_
  rw [List.map_map]
  exact (nodup_workOf plan key).sublist (sublist_results ran)

/-- What was started is work of the key, and has returned. -/
theorem started_mem {e : Started P} (he : e ∈ t) : e.work ∈ workOf plan key ∧ e.result.isSome := by
  obtain ⟨r, hr, hres⟩ := exists_result ht he
  exact ⟨(sublist_results ran).subset (List.mem_map_of_mem hr), by rw [hres]; rfl⟩

/-- No run is started after a stage with a failed run. -/
theorem not_before_started {e e' : Started P} (he : e ∈ t) (he' : e' ∈ t)
    (hfailed : Fate.of e.result = .failed) : ¬ e.work.Before e'.work := by
  intro hbefore
  obtain ⟨r, hr, hres⟩ := exists_result ht he
  obtain ⟨r', hr', -⟩ := exists_result ht he'
  have hne : r ≠ .done := by
    rintro rfl
    rw [hres] at hfailed
    cases hfailed
  cases failure with
  | none => exact hne ((ran.all rfl).2 _ hr)
  | some f =>
    obtain ⟨kind, hresults, hkind, -⟩ := ran.upTo f rfl
    obtain ⟨hseg, hk⟩ := hkind _ hr hne
    have hw' : e'.work ∈ results.map Prod.fst := List.mem_map_of_mem hr'
    rw [hresults, List.mem_filter, decide_eq_true_eq] at hw'
    simp only at hseg hk
    rw [Work.Before, hseg, hk] at hbefore
    omega

theorem resultOf_mem (h : (w, r) ∈ results) : resultOf t w = some r := by
  have hm : (⟨w, some r⟩ : Started P) ∈ t := ht.mem_iff.mpr (List.mem_map.mpr ⟨_, h, rfl⟩)
  rw [resultOf, find?_of_nodup (nodup_started ran ht) hm]
  rfl

omit ran in
theorem resultOf_not_mem (h : w ∉ results.map Prod.fst) : resultOf t w = none := by
  have hnone : t.find? (·.work = w) = none := by
    refine List.find?_eq_none.mpr fun e he => ?_
    obtain ⟨e', he', rfl⟩ := List.mem_map.mp (ht.mem_iff.mp he)
    simpa using fun hw => h (List.mem_map.mpr ⟨e', he', hw⟩)
  rw [resultOf, hnone]
  rfl

/-- Collecting from the runs that were started is collecting from the work. -/
theorem flatMap_results {β : Type} {g : Work → Option (RunResult P) → List β}
    (hg : ∀ w, g w none = []) : results.flatMap (fun e => g e.1 (some e.2)) =
      (workOf plan key).flatMap fun w => g w (resultOf t w) := by
  have hmap : results.flatMap (fun e => g e.1 (some e.2)) =
      (results.map Prod.fst).flatMap fun w => g w (resultOf t w) := by
    rw [List.flatMap_map]
    exact List.flatMap_congr fun e he => by rw [resultOf_mem ran ht he]
  obtain ⟨p, hp⟩ := exists_filter ran
  rw [hmap, hp]
  refine flatMap_filter fun w hw hpw => ?_
  rw [resultOf_not_mem ht, hg]
  rw [hp, List.mem_filter]
  exact fun h => absurd h.2 (by simp [hpw])

omit ran ht in
theorem recordsWith_eq (fate : Fate) : recordsWith plan key t fate =
    (workOf plan key).flatMap fun w => if .of (resultOf t w) = fate then plan.records w.run else [] := by
  rw [recordsWith, List.flatMap_congr fun w (hw : w ∈ _) => (if_pos (by
    simpa using (List.mem_filter.mp hw).2)).symm]
  exact flatMap_filter fun w _ hw => if_neg (by simpa using hw)

theorem completed_eq : results.flatMap (fun e => completedBy plan e.1.run e.2) =
    recordsWith plan key t .completed := by
  rw [recordsWith_eq, ← flatMap_results ran ht (g := fun w o =>
    if .of o = Fate.completed then plan.records w.run else []) fun w => rfl]
  refine List.flatMap_congr fun e _ => ?_
  cases e.2 <;> rfl

theorem failed_eq : (results.filterMap fun e => failedBy plan e.1.stage e.1.run e.2).flatMap
    (·.records) = recordsWith plan key t .failed := by
  rw [recordsWith_eq, ← flatMap_results ran ht (g := fun w o =>
    if .of o = Fate.failed then plan.records w.run else []) fun w => rfl, List.filterMap_eq_flatMap_toList,
    List.flatMap_assoc]
  refine List.flatMap_congr fun e _ => ?_
  cases e.2 <;> simp [failedBy, Fate.of]

/-- The records of the failed runs that are reported. -/
theorem failedRuns_eq : (failure.toList.flatMap fun f => f.failedRuns.flatMap (·.records)) =
    recordsWith plan key t .failed := by
  rw [← failed_eq ran ht]
  cases failure with
  | none =>
    have hnil : results.filterMap (fun e => failedBy plan e.1.stage e.1.run e.2) = [] := by
      refine List.filterMap_eq_nil_iff.mpr fun e he => ?_
      rw [(ran.all rfl).2 e he]
      rfl
    rw [hnil]
    rfl
  | some f =>
    obtain ⟨-, -, -, hfailed, -⟩ := ran.upTo f rfl
    rw [← hfailed, Option.toList_some, List.flatMap_singleton]

/-- Nothing failed if and only if every run completed. -/
theorem failure_eq_none_iff :
    failure = none ↔ ∀ w ∈ workOf plan key, resultOf t w = some .done := by
  constructor
  · intro hf w hw
    obtain ⟨hall, hdone⟩ := ran.all hf
    rw [← hall] at hw
    obtain ⟨e, he, rfl⟩ := List.mem_map.mp hw
    rw [resultOf_mem ran ht he, hdone e he]
  · intro hall
    cases failure with
    | none => rfl
    | some f =>
      obtain ⟨-, -, -, -, e, he, hne⟩ := ran.upTo f rfl
      have hw := (sublist_results ran).subset (List.mem_map_of_mem he)
      have := (resultOf_mem ran ht he).symm.trans (hall e.1 hw)
      exact absurd (Option.some.inj this) hne

omit ran ht in
/-- Every run has one of the three fates. -/
theorem perm_recordsWith : (recordsWith plan key t .completed ++ recordsWith plan key t .failed ++
    recordsWith plan key t .unstarted).Perm ((workOf plan key).flatMap fun w => plan.records w.run) := by
  have hsplit : ∀ l : List Work,
      ((l.filter fun w => Fate.of (resultOf t w) = .completed) ++
        (l.filter fun w => Fate.of (resultOf t w) = .failed) ++
          (l.filter fun w => Fate.of (resultOf t w) = .unstarted)).Perm l := by
    intro l
    induction l with
    | nil => exact .nil
    | cons w l ih =>
      rw [List.filter_cons, List.filter_cons, List.filter_cons]
      cases h : Fate.of (resultOf t w) with
      | completed => simpa using ih
      | failed =>
        rw [List.append_assoc] at ih
        simpa using List.perm_middle.trans (ih.cons w)
      | unstarted => simpa using List.perm_middle.trans (ih.cons w)
  have h := (hsplit (workOf plan key)).flatMap_right fun w => plan.records w.run
  rwa [List.flatMap_append, List.flatMap_append] at h

omit ht in
theorem mem_failedRuns {f : KeyFailure P} (hf : failure = some f) {x : FailedRun P} :
    x ∈ f.failedRuns ↔ ∃ w error remainder, (w, .failed error remainder) ∈ results ∧
      w.segment = f.segment ∧ x = ⟨w.stage, plan.records w.run, remainder⟩ := by
  obtain ⟨kind, -, hkind, hfailed, -⟩ := ran.upTo f hf
  simp only [hfailed, List.mem_filterMap, failedBy_eq_some]
  constructor
  · rintro ⟨⟨w, r⟩, he, error, remainder, rfl, rfl⟩
    exact ⟨w, error, remainder, he, (hkind _ he (by simp)).1, rfl⟩
  · rintro ⟨w, error, remainder, he, -, rfl⟩
    exact ⟨_, he, error, remainder, rfl, rfl⟩

omit ht in
/-- The failed runs are told apart by their stage. -/
theorem nodup_failedRuns {f : KeyFailure P} (hf : failure = some f) :
    (f.failedRuns.map (·.stage)).Nodup := by
  obtain ⟨kind, -, hkind, hfailed, -⟩ := ran.upTo f hf
  have hnd := nodup_results ran
  rw [List.Nodup, List.pairwise_map] at hnd
  rw [hfailed, List.Nodup, List.pairwise_map, List.pairwise_filterMap]
  refine hnd.imp_of_mem fun {e e'} he he' hne x hx x' hx' heq => hne ?_
  obtain ⟨_, _, hr, rfl⟩ := failedBy_eq_some.mp hx
  obtain ⟨_, _, hr', rfl⟩ := failedBy_eq_some.mp hx'
  rw [(hkind e he (by simp [hr])).1, (hkind e' he' (by simp [hr'])).1]
  exact congrArg _ heq

/-- The remainder that encoding finds for a run of the failed segment. -/
theorem remainder_eq {f : KeyFailure P} (hf : failure = some f) (h : (w, r) ∈ results)
    (hseg : w.segment = f.segment) :
    ((f.failedRuns.find? (·.stage = w.stage)).map (·.remainder)).getD [] =
      remaining handlers plan records t w := by
  rw [remaining, resultOf_mem ran ht h]
  cases hr : r with
  | done =>
    have hnone : f.failedRuns.find? (·.stage = w.stage) = none := by
      refine List.find?_eq_none.mpr fun x hx => ?_
      obtain ⟨w', error, remainder, he, hseg', rfl⟩ := (mem_failedRuns ran hf).mp hx
      intro hs
      have := result_unique ran he h (hseg'.trans hseg.symm) (by simpa using hs)
      rw [hr, Prod.mk.injEq] at this
      cases this.2
    rw [hnone]
    rfl
  | failed error remainder =>
    have hx := (mem_failedRuns ran hf).mpr ⟨w, error, remainder, hr ▸ h, hseg, rfl⟩
    rw [find?_of_nodup (nodup_failedRuns ran hf) hx]
    rfl

variable (handlers records) in
/-- What encoding the failure writes for a run is what the run has left. -/
theorem leftOf_eq {f : KeyFailure P} (hf : failure = some f) : ∃ first,
    f.failedRuns.head? = some first ∧ ∀ w ∈ workOf plan key,
      leftOf handlers plan records f first.stage.kind w = remaining handlers plan records t w := by
  obtain ⟨kind, hresults, hkind, hfailed, ⟨w₀, r₀⟩, he₀, hne₀⟩ := ran.upTo f hf
  obtain ⟨error, remainder, rfl⟩ : ∃ error remainder, r₀ = .failed error remainder := by
    cases r₀ with
    | done => exact absurd rfl hne₀
    | failed error remainder => exact ⟨error, remainder, rfl⟩
  have hx₀ := (mem_failedRuns ran hf).mpr ⟨w₀, error, remainder, he₀, (hkind _ he₀ hne₀).1, rfl⟩
  obtain ⟨first, rest, hcons⟩ := List.exists_cons_of_ne_nil (List.ne_nil_of_mem hx₀)
  have hfirst : first.stage.kind = kind := by
    obtain ⟨w, _, _, he, -, rfl⟩ := (mem_failedRuns ran hf).mp (hcons ▸ List.mem_cons_self)
    exact (hkind _ he (by simp)).2
  refine ⟨first, by rw [hcons]; rfl, fun w hw => ?_⟩
  have hmem : w ∈ results.map Prod.fst ↔ w.segment < f.segment ∨
      w.segment = f.segment ∧ w.stage.kind.toNat ≤ kind.toNat := by
    rw [hresults, List.mem_filter, decide_eq_true_eq, and_iff_right hw]
  rw [hfirst, leftOf]
  by_cases hw' : w ∈ results.map Prod.fst
  · obtain ⟨r, he⟩ : ∃ r, (w, r) ∈ results := by
      obtain ⟨e, he, rfl⟩ := List.mem_map.mp hw'
      exact ⟨e.2, he⟩
    -- before the failed stage everything completed
    have hbefore : (w.segment = f.segment → w.stage.kind ≠ kind) →
        remaining handlers plan records t w = [] := by
      intro hn
      have hr : r = .done := by
        by_contra hne
        exact hn (hkind _ he hne).1 (hkind _ he hne).2
      rw [remaining, resultOf_mem ran ht he, hr]
    rcases hmem.mp hw' with hlt | ⟨hseg, hle⟩
    · rw [if_pos hlt, hbefore fun hseg => absurd hseg (Nat.ne_of_lt hlt)]
    · rw [if_neg (by omega), if_pos hseg, leftAt]
      by_cases hk : w.stage.kind.toNat < kind.toNat
      · rw [if_pos hk, hbefore fun _ he => absurd (StageKind.toNat_inj.mpr he) (by omega)]
      · rw [if_neg hk, if_pos (StageKind.toNat_inj.mp (by omega)), remainder_eq ran ht hf he hseg]
  · have hrest : remaining handlers plan records t w = reduce handlers plan records w.run := by
      rw [remaining, resultOf_not_mem ht hw']
    rw [hmem] at hw'
    rw [hrest, if_neg (by omega)]
    by_cases hseg : w.segment = f.segment
    · rw [if_pos hseg, leftAt, if_neg (by omega),
        if_neg fun he => hw' (Or.inr ⟨hseg, by rw [he]⟩)]
    · rw [if_neg hseg]

end Trace

/-! ### The work of a planned key -/

theorem mem_workFrom : ∀ {segments : List Segment} {index : ℕ} {w : Work},
    w ∈ workFrom plan segments index → ∃ segment ∈ segments, (w.stage, w.run) ∈ stagesOf plan segment
  | segment :: rest, index, w, hw => by
    rcases List.mem_append.mp hw with hw | hw
    · obtain ⟨a, ha, rfl⟩ := List.mem_map.mp hw
      exact ⟨segment, List.mem_cons_self, ha⟩
    · obtain ⟨segment', hs, hw⟩ := mem_workFrom hw
      exact ⟨segment', List.mem_cons_of_mem _ hs, hw⟩

/-- The rank of the runs of a stage. -/
def rankOf : StageKind → Rank
  | .head => .head
  | .body => .body
  | .tail => .tail

/-- The stages of a segment are its ranked runs. -/
theorem map_stagesOf (segment : Segment) :
    (stagesOf plan segment).map (fun a => (rankOf a.1.kind, a.2)) = plan.ranked segment := by
  have hbody : ((plan.body segment).mapIdx fun i run => (Stage.body i, run)).map
      (fun a => (rankOf a.1.kind, a.2)) = (plan.body segment).map (Rank.body, ·) :=
    List.ext_getElem (by simp) fun i h1 h2 => by simp [Stage.kind, rankOf]
  simp only [stagesOf, Plan.ranked, List.map_append, hbody, List.map_map]
  rfl

theorem map_snd_stagesOf (segment : Segment) :
    (stagesOf plan segment).map Prod.snd = (plan.ranked segment).map Prod.snd := by
  rw [← map_stagesOf, List.map_map]
  rfl

theorem ranked_of_workOf {key : KeyPlan UInt64} {w : Work} (hw : w ∈ workOf plan key) :
    ∃ segment ∈ plan.segmentsOf key, (rankOf w.stage.kind, w.run) ∈ plan.ranked segment := by
  obtain ⟨segment, hseg, hstage⟩ := mem_workFrom hw
  refine ⟨segment, hseg, ?_⟩
  rw [← map_stagesOf]
  exact List.mem_map.mpr ⟨_, hstage, rfl⟩

theorem flatMap_workFrom : ∀ (segments : List Segment) (index : ℕ),
    (workFrom plan segments index).flatMap (fun w => plan.records w.run) =
      segments.flatMap fun segment => (plan.ranked segment).flatMap fun a => plan.records a.2
  | [], _ => rfl
  | segment :: rest, index => by
    have hsegment : (workAt plan segment index).flatMap (fun w => plan.records w.run) =
        (plan.ranked segment).flatMap fun a => plan.records a.2 := by
      rw [workAt, List.flatMap_map, ← List.flatMap_map Prod.snd, map_snd_stagesOf, List.flatMap_map]
    rw [workFrom, List.flatMap_append, List.flatMap_cons, hsegment, flatMap_workFrom rest]

/-- **The work of a key holds the records of the key**, each once. -/
theorem perm_workOf {records : List (PlanRecord UInt64)} {key : KeyPlan UInt64}
    (hkey : key ∈ (Plan.new records).keys) :
    ((workOf (Plan.new records) key).flatMap fun w => (Plan.new records).records w.run).Perm
      ((List.range records.length).filter fun i => (records[i]?).map PlanRecord.key = some key.key) := by
  rw [workOf, flatMap_workFrom]
  exact Order.perm_indices (Segments.ok_assignSegments records) (Build.built_new records) hkey

/-- Every run of a planned key holds a record, and all its records have its tag. -/
theorem records_of_workOf {records : List (PlanRecord UInt64)} {key : KeyPlan UInt64}
    (hkey : key ∈ (Plan.new records).keys) {w : Work} (hw : w ∈ workOf (Plan.new records) key) :
    (Plan.new records).records w.run ≠ [] ∧
      ∀ i ∈ (Plan.new records).records w.run, ∃ r, records[i]? = some r ∧ r.tag = w.run.tag := by
  obtain ⟨segment, hseg, hranked⟩ := ranked_of_workOf hw
  exact Order.records_of_ranked (Segments.ok_assignSegments records) (Build.built_new records) hkey
    hseg hranked

theorem tag_of_workOf {records : List (PlanRecord UInt64)} {key : KeyPlan UInt64}
    (hkey : key ∈ (Plan.new records).keys) {w : Work} (hw : w ∈ workOf (Plan.new records) key) :
    ∃ r ∈ records, r.tag = w.run.tag := by
  obtain ⟨hne, htag⟩ := records_of_workOf hkey hw
  obtain ⟨i, hi⟩ := List.exists_mem_of_ne_nil _ hne
  obtain ⟨r, hr, hrt⟩ := htag i hi
  exact ⟨r, List.mem_of_getElem? hr, hrt⟩

theorem pushRun_registered {key : UInt64} {kind : StageKind} {run : Run} {payloads : List P}
    (h : (handlers.find run.tag).isSome) :
    (pushRun handlers key kind run payloads).map (fun e => (e.headers.key, e.headers.tag, e.payload)) =
      payloads.map fun payload => (key, run.tag, payload) := by
  obtain ⟨registered, hr⟩ := Option.isSome_iff_exists.mp h
  have hzip : ((payloads.zip (stageOrderings kind payloads.length)).map Prod.fst) = payloads :=
    List.map_fst_zip (by simp [stageOrderings])
  simp only [pushRun, HandlerList.associativity_eq, hr, Option.map_some, List.map_map]
  conv_rhs => rw [← hzip, List.map_map]
  rfl

/-- The entries of a run carry its payloads. -/
theorem payload_pushRun {key : UInt64} {kind : StageKind} {run : Run} {payloads : List P}
    (h : (handlers.find run.tag).isSome) :
    (pushRun handlers key kind run payloads).map (·.payload) = payloads := by
  have hmap : (pushRun handlers key kind run payloads).map
      (fun e => (e.headers.key, e.headers.tag, e.payload)) =
        payloads.map fun payload => (key, run.tag, payload) := pushRun_registered h
  have := congrArg (List.map fun t => t.2.2) hmap
  rw [List.map_map, List.map_map] at this
  exact this.trans (List.map_id _)

/-- The entries of a run carry some of its payloads. -/
theorem sublist_pushRun (handlers : HandlerList P O) (key : UInt64) (kind : StageKind) (run : Run)
    (payloads : List P) :
    ((pushRun handlers key kind run payloads).map (·.payload)).Sublist payloads := by
  unfold pushRun
  cases handlers.associativity run.tag with
  | none => exact List.nil_sublist _
  | some associativity =>
    have h : (payloads.zip (stageOrderings kind payloads.length)).map Prod.fst = payloads :=
      List.map_fst_zip (by simp [stageOrderings])
    simp only [List.map_map, Function.comp_def, h]
    exact List.Sublist.refl _

/-! ### What is left to write -/

/-- An execution of the key reports the failure; a key without one is diverted. -/
def Reported (handlers : HandlerList P O) (plan : Plan UInt64) (key : KeyPlan UInt64)
    (records : List (ParsedRecord P)) (failure : Option (KeyFailure P)) : Prop :=
  ∀ f, failure = some f → ∃ t report, executeKey handlers plan key records t (some report) ∧
    report.failure = some f

variable (handlers plan records) in
/-- What is left of a run of a key that failed, or is diverted. -/
def unfinished (failure : Option (KeyFailure P)) (w : Work) : List P :=
  match failure with
  | none => reduce handlers plan records w.run
  | some f =>
    match f.failedRuns.head? with
    | none => []
    | some first => leftOf handlers plan records f first.stage.kind w

section Unfinished

variable {key : KeyPlan UInt64} {t : List (Started P)} {report : KeyReport P}

/-- **What is written for a key that failed or is diverted** is what is left of its runs. -/
theorem encodeKey_unfinished {failure : Option (KeyFailure P)}
    (h : Reported handlers plan key records failure) :
    encodeKey handlers plan key records failure = (workOf plan key).flatMap fun w =>
      pushRun handlers key.key w.stage.kind w.run (unfinished handlers plan records failure w) := by
  cases failure with
  | none => exact encodeKey_none
  | some f =>
    obtain ⟨t, report, ht, hf⟩ := h f rfl
    obtain ⟨s, hs, -⟩ := executeKey_start ht
    obtain ⟨results, hperm, -, ran : Ran plan (workOf plan key) _ _⟩ := key_ran hs
    obtain ⟨first, hfirst, -⟩ := leftOf_eq handlers records ran hperm hf
    rw [encodeKey_failure hfirst (nodup_failedRuns ran hf)]
    simp only [unfinished, hfirst]

variable (handlers records) in
/-- What is left of the runs of a failed key, read off its trace. -/
theorem unfinished_eq (h : executeKeyWith start plan key t (some report)) {f : KeyFailure P}
    (hf : report.failure = some f) {w : Work} (hw : w ∈ workOf plan key) :
    unfinished handlers plan records (some f) w = remaining handlers plan records t w := by
  obtain ⟨results, hperm, -, ran : Ran plan (workOf plan key) _ _⟩ := key_ran h
  obtain ⟨first, hfirst, hleft⟩ := leftOf_eq handlers records ran hperm hf
  simp only [unfinished, hfirst]
  exact hleft w hw

/-- What a failed run hands back is the end of its reduced records. -/
theorem remainder_suffix {run : Run} {u : List (Call O)} {error : String} {remainder : List P}
    (h : runOne handlers plan records run u (some (.failed error remainder))) :
    remainder <:+ reduce handlers plan records run := by
  rw [runOne, HandlerList.handleRun_eq] at h
  rw [reduce, HandlerList.reduceRun_eq]
  cases hh : handlers.find run.tag with
  | none =>
    rw [hh] at h
    cases (Async.pure_iff.mp h).2
  | some handler =>
    rw [hh] at h
    obtain ⟨start, rfl⟩ := handler.remainder_of_handleEvents h
    exact (List.drop_suffix _ _).filterMap _

/-- What is left of a run is the end of its reduced records. -/
theorem remaining_suffix (h : ∀ e ∈ t, ∃ r u, e.result = some r ∧
    runOne handlers plan records e.work.run u (some r)) (w : Work) :
    remaining handlers plan records t w <:+ reduce handlers plan records w.run := by
  rw [remaining, resultOf]
  cases hfind : t.find? (·.work = w) with
  | none => exact List.suffix_refl _
  | some e =>
    obtain ⟨r, u, hr, hu⟩ := h e (List.mem_of_find?_eq_some hfind)
    obtain rfl : e.work = w := by simpa using List.find?_some hfind
    rw [Option.bind_some, hr]
    cases r with
    | done => exact List.nil_suffix
    | failed error remainder => exact remainder_suffix hu

theorem unfinished_suffix {failure : Option (KeyFailure P)}
    (h : Reported handlers plan key records failure) {w : Work} (hw : w ∈ workOf plan key) :
    unfinished handlers plan records failure w <:+ reduce handlers plan records w.run := by
  cases failure with
  | none => exact List.suffix_refl _
  | some f =>
    obtain ⟨t, report, ht, hf⟩ := h f rfl
    obtain ⟨s, hs, hex⟩ := executeKey_start ht
    rw [unfinished_eq handlers records hs hf hw]
    refine remaining_suffix (fun e he => ?_) w
    obtain ⟨r, u, hr, -, hu⟩ := hex e he
    exact ⟨r, u, hr, hu⟩

end Unfinished

end Account

/-- **Executed and encoded work make up the work of a key.** Whatever its runs return, no run is
started after a stage with a failed run; the completed records, those of the failed runs and those
of the runs that were not started are the records of the key, each once; and encoding the failure
writes, in plan order, what each run has left, while diverting the key writes every run reduced. -/
theorem executed_and_encoded (handlers : HandlerList P O) (records : List (ParsedRecord P))
    (key : KeyPlan UInt64) (hkey : key ∈ (Plan.new (planRecords records)).keys)
    (registered : ∀ r ∈ records, (handlers.find r.headers.tag).isSome) :
    let plan := Plan.new (planRecords records)
    (∀ t report, executeKeyWith start plan key t (some report) →
      (∀ e ∈ t, e.work ∈ workOf plan key ∧ e.result.isSome) ∧ (t.map (·.work)).Nodup ∧
      (∀ e ∈ t, ∀ e' ∈ t, Fate.of e.result = .failed → ¬ e.work.Before e'.work) ∧
      (report.failure = none ↔ ∀ w ∈ workOf plan key, resultOf t w = some .done) ∧
      report.completed = recordsWith plan key t .completed ∧
      (report.failure.toList.flatMap fun f => f.failedRuns.flatMap (·.records)) =
        recordsWith plan key t .failed ∧
      (recordsWith plan key t .completed ++ recordsWith plan key t .failed ++
        recordsWith plan key t .unstarted).Perm ((List.range records.length).filter fun i =>
          (records[i]?).map (·.headers.key) = some key.key) ∧
      ∀ f, report.failure = some f → (encodeKey handlers plan key records (some f)).map
          (fun e => (e.headers.key, e.headers.tag, e.payload)) =
        (workOf plan key).flatMap fun w =>
          (remaining handlers plan records t w).map fun payload => (key.key, w.run.tag, payload)) ∧
    (encodeKey handlers plan key records none).map
        (fun e => (e.headers.key, e.headers.tag, e.payload)) =
      (workOf plan key).flatMap fun w =>
        (reduce handlers plan records w.run).map fun payload => (key.key, w.run.tag, payload) := by
  intro plan
  have htags : ∀ w ∈ workOf plan key, (handlers.find w.run.tag).isSome := by
    intro w hw
    obtain ⟨r, hr, htag⟩ := Account.tag_of_workOf hkey hw
    obtain ⟨record, hrecord, rfl⟩ := List.mem_map.mp hr
    exact htag ▸ registered record hrecord
  have hpayloads : ∀ left : Work → List P,
      ((workOf plan key).flatMap fun w => pushRun handlers key.key w.stage.kind w.run (left w)).map
        (fun e => (e.headers.key, e.headers.tag, e.payload)) =
      (workOf plan key).flatMap fun w => (left w).map fun payload => (key.key, w.run.tag, payload) := by
    intro left
    rw [List.map_flatMap]
    exact List.flatMap_congr fun w hw => Account.pushRun_registered (htags w hw)
  refine ⟨fun t report h => ?_, ?_⟩
  · obtain ⟨results, ht, hcomp, ran : Ran plan (workOf plan key) _ _⟩ := key_ran h
    refine ⟨fun e he => Account.started_mem ran ht he, Account.nodup_started ran ht,
      fun e he e' he' => Account.not_before_started ran ht he he', ?_, ?_, ?_, ?_, ?_⟩
    · exact Account.failure_eq_none_iff ran ht
    · rw [hcomp, List.nil_append, Account.completed_eq ran ht]
    · exact Account.failedRuns_eq ran ht
    · refine Account.perm_recordsWith.trans ((Account.perm_workOf hkey).trans ?_)
      simp [planRecords, Function.comp_def]
    · intro f hf
      obtain ⟨first, hfirst, hleft⟩ := Account.leftOf_eq handlers records ran ht hf
      rw [Account.encodeKey_failure hfirst (Account.nodup_failedRuns ran hf), ← hpayloads]
      exact congrArg _ (List.flatMap_congr fun w hw => by rw [hleft w hw])
  · rw [Account.encodeKey_none, hpayloads]

/-- A key with a head run, two body runs and a tail run. -/
def batch : List (ParsedRecord ℕ) :=
  [⟨0, ⟨⟨1⟩, 7, ⟨.acquire, .nonAssociative⟩⟩, 10⟩, ⟨1, ⟨⟨2⟩, 7, ⟨.relaxed, .nonAssociative⟩⟩, 20⟩,
    ⟨2, ⟨⟨3⟩, 7, ⟨.relaxed, .nonAssociative⟩⟩, 30⟩, ⟨3, ⟨⟨4⟩, 7, ⟨.release, .nonAssociative⟩⟩, 40⟩]

def batchHandlers : HandlerList ℕ ℕ :=
  (((HandlerList.new (.plain ⟨1⟩ .nonAssociative)).push (.plain ⟨2⟩ .nonAssociative)).push
    (.plain ⟨3⟩ .nonAssociative)).push (.plain ⟨4⟩ .nonAssociative)

example : (workOf (Plan.new (planRecords batch)) ⟨7, ⟨0, 1⟩⟩).map (·.stage) =
    [.head, .body 0, .body 1, .tail] := by decide

/-- The head run is done, then a body run fails. -/
def batchStarts : List (Started ℕ) :=
  [⟨⟨0, .head, ⟨⟨1⟩, ⟨0, 1⟩⟩⟩, some .done⟩,
    ⟨⟨0, .body 0, ⟨⟨2⟩, ⟨1, 2⟩⟩⟩, some (.failed "timeout" [20])⟩,
    ⟨⟨0, .body 1, ⟨⟨3⟩, ⟨2, 3⟩⟩⟩, some .done⟩]

def batchFailure : KeyFailure ℕ := ⟨0, "timeout", [⟨.body 0, [1], [20]⟩]⟩

theorem execute_batch : executeKeyWith start (Plan.new (planRecords batch)) ⟨7, ⟨0, 1⟩⟩ batchStarts
    (some ⟨[0, 2], some batchFailure⟩) := by
  have hsegments : (Plan.new (planRecords batch)).segmentsOf ⟨7, ⟨0, 1⟩⟩ =
      [⟨some 0, ⟨1, 3⟩, some 3⟩] := by decide
  have hhead : (Plan.new (planRecords batch)).head ⟨some 0, ⟨1, 3⟩, some 3⟩ =
      some ⟨⟨1⟩, ⟨0, 1⟩⟩ := by decide
  have hbody : (Plan.new (planRecords batch)).body ⟨some 0, ⟨1, 3⟩, some 3⟩ =
      [⟨⟨2⟩, ⟨1, 2⟩⟩, ⟨⟨3⟩, ⟨2, 3⟩⟩] := by decide
  generalize hplan : Plan.new (planRecords batch) = plan at *
  have horder : plan.order = [0, 1, 2, 3] := by rw [← hplan]; decide
  rw [executeKeyWith, hsegments]
  refine Async.bind_iff.mpr ⟨⟨some "timeout", [⟨.body 0, [1], [20]⟩], [0, 2]⟩, batchStarts, [], ?_,
    Async.pure_iff.mpr ⟨rfl, rfl⟩, rfl⟩
  refine Async.bind_iff.mpr ⟨⟨none, [], [0]⟩, [_], batchStarts.tail, ?_, Async.bind_iff.mpr
    ⟨⟨some "timeout", [⟨.body 0, [1], [20]⟩], [0, 2]⟩, batchStarts.tail, [], ?_, Async.pure_iff.mpr ⟨rfl, rfl⟩,
      rfl⟩, rfl⟩
  · rw [hhead, executeSingle_some rfl]
    refine Async.bind_iff.mpr ⟨.done, [_], [], Async.call_iff.mpr rfl, Async.pure_iff.mpr ⟨rfl, ?_⟩, rfl⟩
    simp [StageOutcome.settle, Plan.records, Range.slice, horder]
  · rw [hbody, executeBody_ok rfl]
    refine Async.bind_iff.mpr ⟨[.failed "timeout" [20], .done], [_, _], [],
      Async.joinAll_cons_iff.mpr ⟨[_], [_], _, _, Async.call_iff.mpr rfl, Async.joinAll_cons_iff.mpr ⟨[_], [], _, [],
        Async.call_iff.mpr rfl, Async.joinAll_nil_iff.mpr ⟨rfl, rfl⟩, .nil_right _, rfl⟩,
          .append _ _, rfl⟩, Async.pure_iff.mpr ⟨rfl, ?_⟩, rfl⟩
    simp [StageOutcome.settle, Plan.records, Range.slice, horder]

/-- The remainder of the failed run and the tail run are written back. -/
theorem executed_and_encoded_batch :
    (encodeKey batchHandlers (Plan.new (planRecords batch)) ⟨7, ⟨0, 1⟩⟩ batch (some batchFailure)).map
      (fun e => (e.headers.key, e.headers.tag, e.payload)) = [(7, ⟨2⟩, 20), (7, ⟨4⟩, 40)] := by
  have h := executed_and_encoded batchHandlers batch ⟨7, ⟨0, 1⟩⟩ (by decide) (by decide)
  obtain ⟨-, -, -, -, -, -, -, hencode⟩ := h.1 _ _ execute_batch
  rw [hencode _ rfl]
  decide

end Wakuwaku.Iggy.Consumer
