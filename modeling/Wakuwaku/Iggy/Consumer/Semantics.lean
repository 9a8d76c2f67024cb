import Wakuwaku.Reorder
import Wakuwaku.Iggy.Partition.Order
import Wakuwaku.Iggy.Consumer.Returns

/-! # Executing a plan means applying the log

Here a handler applies an event to a state, so an event is observed as its effect `S → S`. A run
has the effect of its records (`runEffects_sound`), a key has the effect of its runs in plan order
(`executeSegments_effect`), and the plan of a batch has the effect of the log (`execute_refines_log`): what
the plan reorders commutes. -/

namespace Wakuwaku.Iggy.Consumer

open Wakuwaku.Iggy.Events Wakuwaku.Iggy.Partition Wakuwaku.Reorder

variable {P S : Type}

/-- The part of a record its handler gets. -/
def ParsedRecord.run (record : ParsedRecord P) : RunRecord P :=
  ⟨record.payload, record.headers.properties.associativity⟩

/-- What the event of a record does. A record that is dropped does nothing. -/
def effectOf (handlers : HandlerList P (S → S)) (record : ParsedRecord P) : S → S :=
  match handlers.find record.headers.tag with
  | none => id
  | some h => ((h.decodeOne record.run).map h.observe).getD id

/-- Apply the events of a log one by one. -/
def applyLog (handlers : HandlerList P (S → S)) (records : List (ParsedRecord P)) (s : S) : S :=
  records.foldl (fun s record => effectOf handlers record s) s

/-- Apply the chunks that the handlers were called with. -/
def applyCalls (t : List (Call (S → S))) (s : S) : S :=
  t.foldl (fun s call => call.chunk.foldl (fun s event => event s) s) s

/-- What the events of a batch are promised to do: records of different keys commute, so do relaxed
records of one key with different types, and every type keeps the law of its marker on the events of
one key. -/
structure Lawful (handlers : HandlerList P (S → S)) (records : List (ParsedRecord P)) : Prop where
  keys : ∀ x ∈ records, ∀ y ∈ records, x.headers.key ≠ y.headers.key →
    Function.Commute (effectOf handlers x) (effectOf handlers y)
  relaxed : ∀ x ∈ records, ∀ y ∈ records, x.headers.key = y.headers.key →
    x.headers.tag ≠ y.headers.tag → x.headers.properties.atomicLevel = .relaxed →
      y.headers.properties.atomicLevel = .relaxed →
        Function.Commute (effectOf handlers x) (effectOf handlers y)
  marker : ∀ tag h, handlers.find tag = some h → ∃ m : Marker h.Target, h.algebra = m.algebra ∧
    ∀ key, ∃ events : h.Target → Prop, m.Law h.observe events ∧ ∀ x ∈ records, x.headers.key = key →
      x.headers.tag = tag → ∀ e, h.decodeOne x.run = some e → events e

namespace Semantics

variable {handlers : HandlerList P (S → S)} {plan : Plan UInt64} {records : List (ParsedRecord P)}

theorem applyLog_eq : applyLog handlers records = runAll (records.map (effectOf handlers)) := by
  funext s
  rw [applyLog, runAll, List.foldl_map]

theorem applyCalls_eq (t : List (Call (S → S))) : applyCalls t = runAll (t.flatMap (·.chunk)) := by
  rw [← runAll_flatMap]
  funext s
  rw [applyCalls, runAll, List.foldl_map]
  rfl

variable (handlers records) in
/-- The effect of the record at an index. -/
def effectAt (i : ℕ) : S → S := ((records[i]?).map (effectOf handlers)).getD id

/-! ### One run -/

variable (handlers plan records) in
/-- The effects of the reduced events of a run. -/
def runEffects (run : Run) : List (S → S) :=
  match handlers.find run.tag with
  | none => []
  | some h => (h.decode (runRecords plan records run)).map h.observe

section Handle

variable {h : Registered P (S → S)} {t : List (Call (S → S))}

theorem all_handleChunk (chunk : List h.Target) :
    Async.All (fun call => call.chunk = chunk.map h.observe) (h.handleChunk chunk) := by
  have hcall : Async.All (fun call => call.chunk = chunk.map h.observe) (h.handle chunk) :=
    Async.all_call fun _ => rfl
  exact Async.all_loop (fun _ => hcall.bind fun _ => Async.all_pure _) ()

theorem all_handleEvents (run : List (RunRecord P)) :
    Async.All (fun call => ∀ f ∈ call.chunk, f ∈ (h.decode run).map h.observe)
      (h.handleEvents run) := by
  refine Async.all_loop (fun start => ?_) 0
  unfold Registered.handleFrom
  split_ifs with hlt
  · refine Async.All.bind (fun t o ht e he f hf => ?_) fun _ => Async.all_pure _
    rw [all_handleChunk _ t o ht e he] at hf
    obtain ⟨event, hevent, rfl⟩ := List.mem_map.mp hf
    exact List.mem_map_of_mem (List.mem_of_mem_drop (List.mem_of_mem_take hevent))
  · exact Async.all_pure _

/-- A chunk whose calls all succeed is handed over once. -/
theorem handleChunk_ok {chunk : List h.Target} {o : Option String}
    (ht : h.handleChunk chunk t (some o)) (hok : ∀ call ∈ t, call.result = some (.ok ())) :
    o = none ∧ t.flatMap (·.chunk) = chunk.map h.observe := by
  have hbody : ∀ {u r}, (do let result ← h.handle chunk; return Registered.afterHandle result :
      Async (Call (S → S)) (Unit ⊕ Option String)) u (some r) →
        (∀ call ∈ u, call.result = some (.ok ())) →
          r = .inr none ∧ u.flatMap (·.chunk) = chunk.map h.observe := by
    intro u r hu hok
    obtain ⟨result, u', v, hu', hv, rfl⟩ := Async.bind_iff.mp hu
    obtain rfl := Async.call_iff.mp hu'
    obtain rfl : result = .ok () := Option.some.inj (hok _ List.mem_cons_self)
    obtain ⟨rfl, rfl⟩ := Async.pure_iff.mp hv
    simp [Registered.afterHandle]
  cases ht with
  | done hb =>
    obtain ⟨ho, hu⟩ := hbody hb hok
    exact ⟨Sum.inr.inj ho, hu⟩
  | again hb hl =>
    obtain ⟨ho, -⟩ := hbody hb fun call hc => hok call (List.mem_append_left _ hc)
    cases ho

theorem handleFrom_ok {events : List h.Target} {start : ℕ} {r : ℕ ⊕ RunResult P}
    (ht : h.handleFrom events start t (some r)) (hok : ∀ call ∈ t, call.result = some (.ok ())) :
    r = .inr .done ∧ t = [] ∧ events.length ≤ start ∨
      ∃ stop, r = .inl stop ∧ t.flatMap (·.chunk) ++ (events.drop stop).map h.observe =
        (events.drop start).map h.observe := by
  unfold Registered.handleFrom at ht
  split_ifs at ht with hlt
  · obtain ⟨error, u, v, hu, hv, rfl⟩ := Async.bind_iff.mp ht
    obtain ⟨rfl, hr⟩ := Async.pure_iff.mp hv
    rw [List.append_nil] at hok ⊢
    obtain ⟨rfl, hchunk⟩ := handleChunk_ok hu hok
    refine Or.inr ⟨_, hr, ?_⟩
    have hdrop : events.drop (min (start + h.maxBatch) events.length) =
        (events.drop start).drop (min (start + h.maxBatch) events.length - start) := by
      rw [List.drop_drop]
      congr 1
      omega
    rw [hchunk, hdrop, ← List.map_append, List.take_append_drop]
  · obtain ⟨rfl, rfl⟩ := Async.pure_iff.mp ht
    exact Or.inl ⟨rfl, rfl, Nat.le_of_not_lt hlt⟩

/-- A run whose calls all succeed is handed over event by event. -/
theorem handleEvents_ok {run : List (RunRecord P)} {result : RunResult P}
    (ht : h.handleEvents run t (some result)) (hok : ∀ call ∈ t, call.result = some (.ok ())) :
    result = .done ∧ t.flatMap (·.chunk) = (h.decode run).map h.observe := by
  have hloop : ∀ {start : ℕ} {o : Option (RunResult P)} {t : List (Call (S → S))},
      Async.loop (h.handleFrom (h.decode run)) start t o → o = some result →
        (∀ call ∈ t, call.result = some (.ok ())) →
          result = .done ∧ t.flatMap (·.chunk) = ((h.decode run).drop start).map h.observe := by
    intro start o t hl
    induction hl with
    | stop hb => intro ho; cases ho
    | done hb =>
      rintro ⟨⟩ hok
      rcases handleFrom_ok hb hok with ⟨hr, rfl, hle⟩ | ⟨stop, hr, -⟩
      · rw [List.drop_eq_nil_of_le hle]
        exact ⟨Sum.inr.inj hr, rfl⟩
      · cases hr
    | again hb hl ih =>
      intro ho hok
      rcases handleFrom_ok hb (fun call hc => hok call (List.mem_append_left _ hc)) with
        ⟨hr, -⟩ | ⟨stop, hr, hchunk⟩
      · cases hr
      · obtain ⟨hdone, hrest⟩ := ih ho fun call hc => hok call (List.mem_append_right _ hc)
        rw [List.flatMap_append, hrest, ← hchunk, Sum.inl.inj hr]
        exact ⟨hdone, rfl⟩
  simpa using hloop ht rfl hok

end Handle

/-- The records of a run have its tag and one key. -/
def Uniform (records : List (ParsedRecord P)) (plan : Plan UInt64) (key : UInt64) (run : Run) : Prop :=
  ∀ i ∈ plan.records run, ∃ x, records[i]? = some x ∧ x.headers.key = key ∧ x.headers.tag = run.tag

section Run

variable {key : UInt64} {run : Run} {h : Registered P (S → S)}

theorem runRecords_eq (run : Run) : runRecords plan records run =
    (plan.records run).filterMap fun i => records[i]?.map ParsedRecord.run := rfl

theorem effectAt_registered (hu : Uniform records plan key run) (hf : handlers.find run.tag = some h)
    {i : ℕ} (hi : i ∈ plan.records run) : ∃ x, records[i]? = some x ∧
      effectAt handlers records i = ((h.decodeOne x.run).map h.observe).getD id := by
  obtain ⟨x, hx, -, htag⟩ := hu i hi
  refine ⟨x, hx, ?_⟩
  rw [effectAt, hx, Option.map_some, Option.getD_some]
  unfold effectOf
  rw [htag, hf]

/-- The events of a run are those of its records. -/
theorem mem_events (hu : Uniform records plan key run) (hf : handlers.find run.tag = some h)
    {e : h.Target} (he : e ∈ (runRecords plan records run).filterMap h.decodeOne) :
    ∃ i ∈ plan.records run, ∃ x, records[i]? = some x ∧ h.decodeOne x.run = some e ∧
      effectAt handlers records i = h.observe e := by
  obtain ⟨r, hr, hdec⟩ := List.mem_filterMap.mp he
  rw [runRecords_eq] at hr
  obtain ⟨i, hi, hmap⟩ := List.mem_filterMap.mp hr
  obtain ⟨x, hx, rfl⟩ := Option.map_eq_some_iff.mp hmap
  obtain ⟨x', hx', heff⟩ := effectAt_registered hu hf hi
  obtain rfl : x' = x := Option.some.inj (hx'.symm.trans hx)
  exact ⟨i, hi, x', hx, hdec, by rw [heff, hdec]; rfl⟩

theorem runAll_events (hu : Uniform records plan key run) (hf : handlers.find run.tag = some h) :
    runAll (((runRecords plan records run).filterMap h.decodeOne).map h.observe) =
      runAll ((plan.records run).map (effectAt handlers records)) := by
  rw [runRecords_eq]
  have hlist : ∀ l : List ℕ, (∀ i ∈ l, i ∈ plan.records run) →
      runAll (((l.filterMap fun i => records[i]?.map ParsedRecord.run).filterMap h.decodeOne).map
        h.observe) = runAll (l.map (effectAt handlers records)) := by
    intro l
    induction l with
    | nil => intro _; rfl
    | cons i l ih =>
      intro hl
      obtain ⟨x, hx, heff⟩ := effectAt_registered hu hf (hl i List.mem_cons_self)
      have ih := ih fun j hj => hl j (List.mem_cons_of_mem _ hj)
      rw [List.filterMap_cons_some (by rw [hx]; rfl), List.map_cons, runAll_cons, heff, ← ih]
      cases hdec : h.decodeOne x.run with
      | none => rw [List.filterMap_cons_none hdec]; rfl
      | some e => rw [List.filterMap_cons_some hdec]; rfl
  exact hlist _ fun _ hi => hi

variable (law : Lawful handlers records)
include law

/-- The events of a run keep the law of the marker of their type. -/
theorem law_of_run (hu : Uniform records plan key run) (hf : handlers.find run.tag = some h) :
    ∃ (m : Marker h.Target) (events : h.Target → Prop), h.algebra = m.algebra ∧ m.Law h.observe events ∧
      ∀ e ∈ (runRecords plan records run).filterMap h.decodeOne, events e := by
  obtain ⟨m, hm, hlaw⟩ := law.marker _ h hf
  obtain ⟨events, hlaw, hevents⟩ := hlaw key
  refine ⟨m, events, hm, hlaw, fun e he => ?_⟩
  obtain ⟨i, hi, x, hx, hdec, -⟩ := mem_events hu hf he
  obtain ⟨x', hx', hkey, htag⟩ := hu i hi
  obtain rfl : x' = x := Option.some.inj (hx'.symm.trans hx)
  exact hevents x' (List.mem_of_getElem? hx) hkey htag e hdec

/-- **Handing over a reduced run** has the effect of its records. -/
theorem runEffects_sound (hu : Uniform records plan key run) :
    runAll (runEffects handlers plan records run) =
      runAll ((plan.records run).map (effectAt handlers records)) := by
  unfold runEffects
  cases hf : handlers.find run.tag with
  | none =>
    have hid : ∀ l : List ℕ, (∀ i ∈ l, i ∈ plan.records run) →
        runAll (l.map (effectAt handlers records)) = id := by
      intro l
      induction l with
      | nil => intro _; rfl
      | cons i l ih =>
        intro hl
        obtain ⟨x, hx, -, htag⟩ := hu i (hl i List.mem_cons_self)
        have heff : effectAt handlers records i = id := by
          rw [effectAt, hx, Option.map_some, Option.getD_some]
          unfold effectOf
          rw [htag, hf]
        rw [List.map_cons, runAll_cons, heff, ih fun j hj => hl j (List.mem_cons_of_mem _ hj)]
        rfl
    exact (hid _ fun _ hi => hi).symm
  | some h =>
    obtain ⟨m, events, hm, hlaw, hes⟩ := law_of_run law hu hf
    rw [← runAll_events hu hf]
    funext s
    have hsound := Marker.reduce_sound hlaw hes s
    rw [← hm] at hsound
    simp only [runAll, List.foldl_map]
    exact hsound

/-- What commutes with the records of a run commutes with its reduced events. -/
theorem commute_runEffects (hu : Uniform records plan key run) {g : S → S}
    (hg : ∀ i ∈ plan.records run, Function.Commute (effectAt handlers records i) g) :
    ∀ f ∈ runEffects handlers plan records run, Function.Commute f g := by
  intro f hfm
  unfold runEffects at hfm
  cases hf : handlers.find run.tag with
  | none => rw [hf] at hfm; cases hfm
  | some h =>
    rw [hf] at hfm
    obtain ⟨e, he, rfl⟩ := List.mem_map.mp hfm
    obtain ⟨m, events, hm, hlaw, hes⟩ := law_of_run law hu hf
    rw [Registered.decode, hm] at he
    refine Marker.commute_reduce hlaw hes (fun a ha => ?_) e he
    obtain ⟨i, hi, x, -, -, heff⟩ := mem_events hu hf ha
    rw [← heff]
    exact hg i hi

end Run

/-! ### Handling the runs of a plan -/

theorem all_runOne (run : Run) :
    Async.All (fun call => ∀ f ∈ call.chunk, f ∈ runEffects handlers plan records run)
      (runOne handlers plan records run) := by
  unfold runOne runEffects
  rw [HandlerList.handleRun_eq]
  cases handlers.find run.tag with
  | none => exact Async.all_pure _
  | some h => exact all_handleEvents _

theorem runOne_ok {run : Run} {t : List (Call (S → S))} {result : RunResult P}
    (ht : runOne handlers plan records run t (some result))
    (hok : ∀ call ∈ t, call.result = some (.ok ())) :
    result = .done ∧ t.flatMap (·.chunk) = runEffects handlers plan records run := by
  unfold runOne at ht
  unfold runEffects
  rw [HandlerList.handleRun_eq] at ht
  cases hf : handlers.find run.tag with
  | none =>
    rw [hf] at ht
    obtain ⟨rfl, rfl⟩ := Async.pure_iff.mp ht
    exact ⟨rfl, rfl⟩
  | some h =>
    rw [hf] at ht
    exact handleEvents_ok ht hok

/-! ### Stages, segments and keys -/

/-- A run handed over without a failure has the effect of its records. -/
theorem runOne_effect (law : Lawful handlers records) {key : UInt64} {run : Run}
    (hu : Uniform records plan key run) {t : List (Call (S → S))} {result : RunResult P}
    (ht : runOne handlers plan records run t (some result))
    (hok : ∀ call ∈ t, call.result = some (.ok ())) :
    result = .done ∧ runAll (t.flatMap (·.chunk)) =
      runAll ((plan.records run).map (effectAt handlers records)) := by
  obtain ⟨hdone, hchunks⟩ := runOne_ok ht hok
  exact ⟨hdone, by rw [hchunks, runEffects_sound law hu]⟩

/-- Two independent runs have calls that commute. -/
theorem commute_runOne (law : Lawful handlers records) {k k' : UInt64} {A B : Run}
    (hA : Uniform records plan k A) (hB : Uniform records plan k' B)
    (hc : ∀ i ∈ plan.records A, ∀ j ∈ plan.records B,
      Function.Commute (effectAt handlers records i) (effectAt handlers records j)) :
    ∀ f ∈ runEffects handlers plan records A, ∀ g ∈ runEffects handlers plan records B,
      Function.Commute f g := by
  intro f hf g hg
  refine commute_runEffects law hA (fun i hi => ?_) f hf
  exact (commute_runEffects law hB (fun j hj => (hc i hi j hj).symm) g hg).symm

section Stages

variable (law : Lawful handlers records) {key : UInt64} {before after : StageOutcome P}
  {t : List (Call (S → S))} (hb : before.error = none) (hok : ∀ call ∈ t, call.result = some (.ok ()))
include law hb hok

theorem executeSingle_effect {stage : Stage} {run : Option Run}
    (hu : ∀ r ∈ run, Uniform records plan key r)
    (h : executeSingle (fun _ run => runOne handlers plan records run) plan stage run before t
      (some after)) : after.error = none ∧ runAll (t.flatMap (·.chunk)) =
        runAll ((run.toList.flatMap plan.records).map (effectAt handlers records)) := by
  cases run with
  | none =>
    rw [executeSingle_none] at h
    obtain ⟨rfl, rfl⟩ := Async.pure_iff.mp h
    exact ⟨hb, rfl⟩
  | some run =>
    rw [executeSingle_some hb] at h
    obtain ⟨result, u, v, hr, hv, rfl⟩ := Async.bind_iff.mp h
    obtain ⟨rfl, rfl⟩ := Async.pure_iff.mp hv
    rw [List.append_nil] at hok ⊢
    obtain ⟨rfl, heff⟩ := runOne_effect law (hu run rfl) hr hok
    refine ⟨hb, ?_⟩
    simpa using heff

theorem executeBody_effect {body : List Run} (hu : ∀ r ∈ body, Uniform records plan key r)
    (hc : body.Pairwise fun A B => ∀ i ∈ plan.records A, ∀ j ∈ plan.records B,
      Function.Commute (effectAt handlers records i) (effectAt handlers records j))
    (h : executeBody (fun _ run => runOne handlers plan records run) plan body before t
      (some after)) : after.error = none ∧ runAll (t.flatMap (·.chunk)) =
        runAll ((body.flatMap plan.records).map (effectAt handlers records)) := by
  rw [executeBody_ok hb] at h
  obtain ⟨results, u, v, hj, hv, rfl⟩ := Async.bind_iff.mp h
  obtain ⟨rfl, rfl⟩ := Async.pure_iff.mp hv
  rw [List.append_nil] at hok ⊢
  have hmap : (body.mapIdx fun _ run => runOne handlers plan records run) =
      body.map (runOne handlers plan records) := List.ext_getElem (by simp) fun i h1 h2 => by simp
  rw [hmap] at hj
  obtain ⟨hdone, heff⟩ := @runAll_joinAll S _ _ _ _ (·.chunk) _
    (fun run => runAll ((plan.records run).map (effectAt handlers records))) (· = .done) _ _ _
    (fun run hrun t result ht hok => runOne_effect law (hu run hrun) ht hok) (hc.imp_of_mem
      fun {A B} hA hB hAB u o v o' hu' hv' e he f hf e' he' g hg =>
        commute_runOne law (hu A hA) (hu B hB) hAB f (all_runOne A u o hu' e he f hf) g
          (all_runOne B v o' hv' e' he' g hg)) hj hok
  constructor
  · exact Returns.settle_done hb fun e he => hdone _
      (List.of_mem_zip (List.fst_mem_of_mem_zipIdx he)).2
  · rw [heff, List.map_flatMap, ← runAll_flatMap]

end Stages

/-- The runs of a segment hold records of the key, and its body runs are independent. -/
structure Independent (handlers : HandlerList P (S → S)) (plan : Plan UInt64)
    (records : List (ParsedRecord P)) (key : UInt64) (segment : Segment) : Prop where
  uniform : ∀ a ∈ plan.ranked segment, Uniform records plan key a.2
  body : (plan.body segment).Pairwise fun A B => ∀ i ∈ plan.records A, ∀ j ∈ plan.records B,
    Function.Commute (effectAt handlers records i) (effectAt handlers records j)

/-- The indices of the records of a segment, in plan order. -/
def indicesOf (plan : Plan UInt64) (segment : Segment) : List ℕ :=
  (plan.ranked segment).flatMap fun a => plan.records a.2

theorem indicesOf_eq (segment : Segment) : indicesOf plan segment =
    (plan.head segment).toList.flatMap plan.records ++ (plan.body segment).flatMap plan.records ++
      (plan.tail segment).toList.flatMap plan.records := by
  simp only [indicesOf, Plan.ranked, List.flatMap_append, List.flatMap_map]

theorem executeSegment_effect (law : Lawful handlers records) {key : UInt64} {segment : Segment}
    (hi : Independent handlers plan records key segment) {completed : List ℕ}
    {t : List (Call (S → S))} {outcome : StageOutcome P}
    (h : executeSegment (fun _ run => runOne handlers plan records run) plan segment completed t
      (some outcome)) (hok : ∀ call ∈ t, call.result = some (.ok ())) :
    outcome.error = none ∧ runAll (t.flatMap (·.chunk)) =
      runAll ((indicesOf plan segment).map (effectAt handlers records)) := by
  obtain ⟨o₁, u, v', hu, hv', rfl⟩ := Async.bind_iff.mp h
  obtain ⟨o₂, v, x, hv, hx, rfl⟩ := Async.bind_iff.mp hv'
  simp only [List.mem_append] at hok
  have hrun : ∀ (rank : Rank) (run : Run), (rank, run) ∈ plan.ranked segment →
      Uniform records plan key run := fun _ _ hm => hi.uniform _ hm
  obtain ⟨h1, e1⟩ := executeSingle_effect law rfl (fun call hc => hok call (Or.inl hc))
    (fun r hr => hrun .head r (by simp [Plan.ranked, Option.mem_def.mp hr])) hu
  obtain ⟨h2, e2⟩ := executeBody_effect law h1 (fun call hc => hok call (Or.inr (Or.inl hc)))
    (fun r hr => hrun .body r (by simp [Plan.ranked, hr])) hi.body hv
  obtain ⟨h3, e3⟩ := executeSingle_effect law h2 (fun call hc => hok call (Or.inr (Or.inr hc)))
    (fun r hr => hrun .tail r (by simp [Plan.ranked, Option.mem_def.mp hr])) hx
  refine ⟨h3, ?_⟩
  rw [indicesOf_eq, List.map_append, List.map_append, List.flatMap_append, List.flatMap_append,
    runAll_append, runAll_append, runAll_append, runAll_append, e1, e2, e3, Function.comp_assoc]

/-- **A key without a failure** has the effect of its records, in plan order. -/
theorem executeSegments_effect (law : Lawful handlers records) {key : UInt64} :
    ∀ {segments : List Segment} {index : ℕ} {completed : List ℕ} {t : List (Call (S → S))}
      {report : KeyReport P}, (∀ s ∈ segments, Independent handlers plan records key s) →
      executeSegments (fun _ _ run => runOne handlers plan records run) plan segments index completed t
        (some report) → (∀ call ∈ t, call.result = some (.ok ())) →
      report.failure = none ∧ runAll (t.flatMap (·.chunk)) =
        runAll ((segments.flatMap (indicesOf plan)).map (effectAt handlers records))
  | [], _, _, _, _, _, h, _ => by
    obtain ⟨rfl, rfl⟩ := Async.pure_iff.mp h
    exact ⟨rfl, rfl⟩
  | segment :: rest, index, completed, t, report, hi, h, hok => by
    obtain ⟨outcome, u, v, hu, hv, rfl⟩ := Async.bind_iff.mp h
    simp only [List.mem_append] at hok
    obtain ⟨herr, e1⟩ := executeSegment_effect law (hi segment List.mem_cons_self) hu
      fun call hc => hok call (Or.inl hc)
    rw [herr] at hv
    obtain ⟨hrep, e2⟩ := executeSegments_effect law (fun s hs => hi s (List.mem_cons_of_mem _ hs)) hv
      fun call hc => hok call (Or.inr hc)
    refine ⟨hrep, ?_⟩
    rw [List.flatMap_cons, List.map_append, List.flatMap_append, runAll_append, runAll_append, e1, e2]

section Calls

variable {ε : Type} {p : ε → Prop}

theorem all_executeSingle {run1 : Stage → Run → Async ε (RunResult P)} {stage : Stage}
    {run : Option Run} (h : ∀ r ∈ run, Async.All p (run1 stage r)) (outcome : StageOutcome P) :
    Async.All p (executeSingle run1 plan stage run outcome) := by
  cases he : outcome.error with
  | some error => rw [executeSingle_failed he]; exact Async.all_pure _
  | none =>
    cases run with
    | none => rw [executeSingle_none]; exact Async.all_pure _
    | some run =>
      rw [executeSingle_some he]
      exact (h run rfl).bind fun _ => Async.all_pure _

theorem all_executeBody {run1 : Stage → Run → Async ε (RunResult P)} {body : List Run}
    (h : ∀ st, ∀ r ∈ body, Async.All p (run1 st r)) (outcome : StageOutcome P) :
    Async.All p (executeBody run1 plan body outcome) := by
  cases he : outcome.error with
  | some error => rw [executeBody_failed he]; exact Async.all_pure _
  | none =>
    rw [executeBody_ok he]
    refine (Async.all_joinAll fun m hm => ?_).bind fun _ => Async.all_pure _
    obtain ⟨i, hi, rfl⟩ := List.mem_mapIdx.mp hm
    exact h _ _ (List.getElem_mem hi)

/-- What holds of every event of every run of a key holds of its execution. -/
theorem all_executeSegments {run1 : ℕ → Stage → Run → Async ε (RunResult P)} :
    ∀ {segments : List Segment} (index : ℕ) (completed : List ℕ),
      (∀ i st, ∀ s ∈ segments, ∀ a ∈ plan.ranked s, Async.All p (run1 i st a.2)) →
        Async.All p (executeSegments run1 plan segments index completed)
  | [], _, _, _ => Async.all_pure _
  | segment :: rest, index, completed, h => by
    have hsegment : ∀ st, ∀ a ∈ plan.ranked segment, Async.All p (run1 index st a.2) :=
      fun st => h index st segment List.mem_cons_self
    refine Async.All.bind ?_ fun outcome => ?_
    · refine (all_executeSingle (fun r hr => ?_) _).bind fun o₁ =>
        (all_executeBody (fun st r hr => ?_) o₁).bind fun o₂ => all_executeSingle (fun r hr => ?_) o₂
      · exact hsegment _ (.head, r) (by simp [Plan.ranked, Option.mem_def.mp hr])
      · exact hsegment _ (.body, r) (by simp [Plan.ranked, hr])
      · exact hsegment _ (.tail, r) (by simp [Plan.ranked, Option.mem_def.mp hr])
    · cases outcome.error with
      | some error => exact Async.all_pure _
      | none =>
        exact all_executeSegments (index + 1) _ fun i st s hs => h i st s (List.mem_cons_of_mem _ hs)

end Calls

/-! ### The plan of a batch -/

/-- The record at an index, as the planner sees it and as it is. -/
theorem planRecords_getElem? {i : ℕ} {r : PlanRecord UInt64} (h : (planRecords records)[i]? = some r) :
    ∃ x, records[i]? = some x ∧
      r = ⟨x.headers.key, x.headers.tag, x.headers.properties.atomicLevel⟩ := by
  rw [planRecords, List.getElem?_map, Option.map_eq_some_iff] at h
  obtain ⟨x, hx, rfl⟩ := h
  exact ⟨x, hx, rfl⟩

theorem effectAt_eq {i : ℕ} {x : ParsedRecord P} (hx : records[i]? = some x) :
    effectAt handlers records i = effectOf handlers x := by
  rw [effectAt, hx]
  rfl

theorem uniform_of_ranked {kp : KeyPlan UInt64} (hkp : kp ∈ (Plan.new (planRecords records)).keys)
    {segment : Segment} (hseg : segment ∈ (Plan.new (planRecords records)).segmentsOf kp)
    {a : Rank × Run} (ha : a ∈ (Plan.new (planRecords records)).ranked segment) :
    Uniform records (Plan.new (planRecords records)) kp.key a.2 := by
  have h := Segments.ok_assignSegments (planRecords records)
  have hb := Build.built_new (planRecords records)
  intro i hi
  obtain ⟨r, hr, htag⟩ := (Order.records_of_ranked h hb hkp hseg ha).2 i hi
  obtain ⟨x, hx, rfl⟩ := planRecords_getElem? hr
  have hmem := (Order.perm_indices h hb hkp).mem_iff.mp
    (List.mem_flatMap.mpr ⟨segment, hseg, List.mem_flatMap.mpr ⟨a, ha, hi⟩⟩)
  rw [List.mem_filter, hr, decide_eq_true_eq] at hmem
  exact ⟨x, hx, Option.some.inj hmem.2, htag⟩

/-- The body runs of a segment commute. -/
theorem independent_of_lawful (law : Lawful handlers records) {kp : KeyPlan UInt64}
    (hkp : kp ∈ (Plan.new (planRecords records)).keys) {segment : Segment}
    (hseg : segment ∈ (Plan.new (planRecords records)).segmentsOf kp) :
    Independent handlers (Plan.new (planRecords records)) records kp.key segment := by
  refine ⟨fun a ha => uniform_of_ranked hkp hseg ha, ?_⟩
  obtain ⟨hrel, htags⟩ := Order.body_relaxed (Segments.ok_assignSegments (planRecords records))
    (Build.built_new (planRecords records)) hkp hseg
  refine htags.imp_of_mem fun {A B} hA hB hne i hi j hj => ?_
  have hbody : ∀ {C : Run}, C ∈ (Plan.new (planRecords records)).body segment →
      ∀ k ∈ (Plan.new (planRecords records)).records C, ∃ x, records[k]? = some x ∧
        x.headers.key = kp.key ∧ x.headers.tag = C.tag ∧
          x.headers.properties.atomicLevel = .relaxed := by
    intro C hC k hk
    obtain ⟨x, hx, hkey, htag⟩ := uniform_of_ranked hkp hseg (a := (.body, C)) (by simp [Plan.ranked, hC])
      k hk
    obtain ⟨r, hr, -, ho⟩ := hrel C hC k hk
    obtain ⟨x', hx', rfl⟩ := planRecords_getElem? hr
    obtain rfl : x' = x := Option.some.inj (hx'.symm.trans hx)
    exact ⟨x', hx, hkey, htag, ho⟩
  obtain ⟨x, hx, hxk, hxt, hxo⟩ := hbody hA i hi
  obtain ⟨y, hy, hyk, hyt, hyo⟩ := hbody hB j hj
  rw [effectAt_eq hx, effectAt_eq hy]
  exact law.relaxed x (List.mem_of_getElem? hx) y (List.mem_of_getElem? hy) (hxk.trans hyk.symm)
    (by rw [hxt, hyt]; exact hne) hxo hyo

/-- What the plan order swaps commutes. -/
theorem runAll_order (law : Lawful handlers records) :
    runAll ((Plan.new (planRecords records)).order.map (effectAt handlers records)) =
      runAll (records.map (effectOf handlers)) := by
  obtain ⟨hperm, hswaps⟩ := Order.order_swaps (planRecords records)
  have hlen : (planRecords records).length = records.length := by simp [planRecords]
  rw [hlen] at hperm
  have hsort : (Plan.new (planRecords records)).order.insertionSort (· ≤ ·) =
      List.range records.length := by
    refine List.Perm.eq_of_pairwise (fun a b _ _ => Nat.le_antisymm) (List.pairwise_insertionSort _ _)
      (List.pairwise_lt_range.imp Nat.le_of_lt) ((List.perm_insertionSort _ _).trans hperm)
  have hrange : (List.range records.length).map (effectAt handlers records) =
      records.map (effectOf handlers) := by
    refine List.ext_getElem (by simp) fun i h1 h2 => ?_
    simp only [List.length_map] at h2
    simp [effectAt_eq (List.getElem?_eq_getElem h2)]
  rw [← runAll_insertionSort, hsort, hrange]
  refine hswaps.imp_of_mem fun {i j} hi hj hsw hji => ?_
  obtain ⟨x, hx⟩ : ∃ x, records[i]? = some x :=
    ⟨_, List.getElem?_eq_getElem (List.mem_range.mp (hperm.mem_iff.mp hi))⟩
  obtain ⟨y, hy⟩ : ∃ y, records[j]? = some y :=
    ⟨_, List.getElem?_eq_getElem (List.mem_range.mp (hperm.mem_iff.mp hj))⟩
  rw [effectAt_eq hx, effectAt_eq hy]
  have hxm := List.mem_of_getElem? hx
  have hym := List.mem_of_getElem? hy
  by_cases hkey : x.headers.key = y.headers.key
  · obtain ⟨htag, hxo, hyo⟩ := hsw hji _ _ (by rw [planRecords, List.getElem?_map, hx]; rfl)
      (by rw [planRecords, List.getElem?_map, hy]; rfl) hkey
    exact law.relaxed x hxm y hym hkey htag hxo hyo
  · exact law.keys x hxm y hym hkey

end Semantics

/-- **Executing a plan means applying the log.** If no handler call fails, every execution of the keys
of a batch side by side leaves the state as the events of the batch do, one by one in log order. -/
theorem execute_refines_log (handlers : HandlerList P (S → S)) (records : List (ParsedRecord P))
    (law : Lawful handlers records) (t : List (Call (S → S))) (reports : List (KeyReport P))
    (ht : Async.joinAll ((Plan.new (planRecords records)).keys.map fun key =>
      executeKey handlers (Plan.new (planRecords records)) key records) t (some reports))
    (hok : ∀ call ∈ t, call.result = some (.ok ())) (s : S) :
    (∀ report ∈ reports, report.failure = none) ∧ applyCalls t s = applyLog handlers records s := by
  set plan := Plan.new (planRecords records) with hplan
  have hcalls : ∀ kp ∈ plan.keys, Async.All (fun call => ∀ f ∈ call.chunk,
      ∃ segment ∈ plan.segmentsOf kp, ∃ a ∈ plan.ranked segment,
        f ∈ Semantics.runEffects handlers plan records a.2) (executeKey handlers plan kp records) := by
    intro kp hkp
    refine Semantics.all_executeSegments 0 [] fun i st segment hseg a ha t o hr call hc f hf => ?_
    exact ⟨segment, hseg, a, ha, Semantics.all_runOne a.2 t o hr call hc f hf⟩
  obtain ⟨hreports, heff⟩ := @runAll_joinAll S _ _ _ _ (·.chunk) _
    (fun kp => runAll (((plan.segmentsOf kp).flatMap (Semantics.indicesOf plan)).map
      (Semantics.effectAt handlers records))) (·.failure = none) _ _ _
    (fun kp hkp t report hr hok => Semantics.executeSegments_effect law
      (fun segment hseg => Semantics.independent_of_lawful law hkp hseg) hr hok)
    ((List.pairwise_map.mp (Order.keys_nodup (planRecords records))).imp_of_mem
      fun {kp kp'} hkp hkp' hne u o v o' hu hv e he f hf e' he' g hg => by
        obtain ⟨segment, hseg, a, ha, hf⟩ := hcalls kp hkp u o hu e he f hf
        obtain ⟨segment', hseg', a', ha', hg⟩ := hcalls kp' hkp' v o' hv e' he' g hg
        have hu := Semantics.uniform_of_ranked hkp hseg ha
        have hu' := Semantics.uniform_of_ranked hkp' hseg' ha'
        refine Semantics.commute_runOne law hu hu' (fun i hi j hj => ?_) f hf g hg
        obtain ⟨x, hx, hxk, -⟩ := hu i hi
        obtain ⟨y, hy, hyk, -⟩ := hu' j hj
        rw [Semantics.effectAt_eq hx, Semantics.effectAt_eq hy]
        exact law.keys x (List.mem_of_getElem? hx) y (List.mem_of_getElem? hy)
          (by rw [hxk, hyk]; exact hne)) ht hok
  refine ⟨hreports, ?_⟩
  have horder : plan.keys.flatMap (fun kp => (plan.segmentsOf kp).flatMap (Semantics.indicesOf plan)) =
      plan.order := Order.flatMap_keys (Segments.ok_assignSegments (planRecords records))
        (Build.built_new (planRecords records))
  rw [Semantics.applyCalls_eq, heff, runAll_flatMap, ← List.map_flatMap, horder,
    Semantics.runAll_order law, Semantics.applyLog_eq]

/-- Events that raise a maximum. -/
def marks (tag : EventTypeTag) : Registered ℕ (ℕ → ℕ) where
  Target := ℕ
  tag
  topic := "marks"
  algebra := (Marker.idempotentCommutative natOrd).algebra
  fromBytes := .ok
  toBytes := .ok
  maxBatch := 1
  maxBatch_pos := Nat.one_pos
  observe := max

def markHandlers : HandlerList ℕ (ℕ → ℕ) := (HandlerList.new (marks ⟨1⟩)).push (marks ⟨2⟩)

/-- Two keys, two types of one key, and a mark that comes twice. -/
def markBatch : List (ParsedRecord ℕ) :=
  [⟨0, ⟨⟨1⟩, 7, ⟨.relaxed, .idempotentCommutative⟩⟩, 5⟩,
    ⟨1, ⟨⟨2⟩, 7, ⟨.relaxed, .idempotentCommutative⟩⟩, 8⟩,
    ⟨2, ⟨⟨1⟩, 7, ⟨.relaxed, .idempotentCommutative⟩⟩, 5⟩,
    ⟨3, ⟨⟨1⟩, 9, ⟨.acquire, .idempotentCommutative⟩⟩, 6⟩]

theorem lawful_markBatch : Lawful markHandlers markBatch := by
  have heff : ∀ x ∈ markBatch, effectOf markHandlers x = max x.payload := by
    intro x hx
    simp only [markBatch, List.mem_cons, List.not_mem_nil, or_false] at hx
    rcases hx with rfl | rfl | rfl | rfl <;> rfl
  have hcomm : ∀ x ∈ markBatch, ∀ y ∈ markBatch,
      Function.Commute (effectOf markHandlers x) (effectOf markHandlers y) := by
    intro x hx y hy
    rw [heff x hx, heff y hy]
    exact fun s => Nat.max_left_comm _ _ _
  refine ⟨fun x hx y hy _ => hcomm x hx y hy, fun x hx y hy _ _ _ _ => hcomm x hx y hy, ?_⟩
  intro tag h hf
  have hmark : h = marks tag := by
    rw [markHandlers, HandlerList.find, HandlerList.find] at hf
    split_ifs at hf with h2 h1
    · exact (Option.some.inj hf).symm.trans (congrArg marks h2.symm)
    · exact (Option.some.inj hf).symm.trans (congrArg marks h1.symm)
  subst hmark
  refine ⟨.idempotentCommutative natOrd, rfl, fun key => ⟨fun _ => True, ⟨?_, ?_, ?_⟩,
    fun _ _ _ _ _ _ => trivial⟩⟩
  · intro a _ s
    exact (Nat.max_assoc a a s).symm.trans (congrArg (max · s) (Nat.max_self a))
  · exact fun a b _ _ s => Nat.max_left_comm _ _ _
  · intro a b _ _ hab
    rw [beq_iff_eq.mp hab]

/-- However the marks are handed over, the state ends at the greatest. -/
theorem execute_refines_log_marks : ∃ (t : List (Call (ℕ → ℕ))) (reports : List (KeyReport ℕ)),
    Async.joinAll ((Plan.new (planRecords markBatch)).keys.map fun key =>
      executeKey markHandlers (Plan.new (planRecords markBatch)) key markBatch) t (some reports) ∧
        applyCalls t 0 = 8 := by
  obtain ⟨t, reports, ht, hok, -⟩ := @Returns.canReturn_execute _ _ markHandlers
    (Plan.new (planRecords markBatch)) markBatch (Plan.new (planRecords markBatch)).keys
  have hlog := execute_refines_log markHandlers markBatch lawful_markBatch t reports
  have hstate := (hlog ht hok 0).2
  exact ⟨t, reports, ht, hstate.trans rfl⟩

end Wakuwaku.Iggy.Consumer
