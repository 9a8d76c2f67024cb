import Wakuwaku.Iggy.Partition.Groups
import Wakuwaku.Iggy.Consumer.Account
import Wakuwaku.Iggy.Consumer.Chunks
import Wakuwaku.Iggy.Consumer.Traced

/-! # The records that handlers get

With traced payloads, a call says which records of the main log it hands over. The calls for a run
hand over no record again that was in a call that returned `Ok`; a run that is done leaves no record,
and a run that failed leaves the records of its remainder (`Handed`). The same is then true of the
execution of a key (`KeyHanded`). -/

namespace Wakuwaku.Iggy.Consumer

open Wakuwaku.Iggy.Events Wakuwaku.Iggy.Partition Wakuwaku.Iggy.Consumer.Chunks
open Wakuwaku.Iggy.Consumer.Execution Wakuwaku.Iggy.Consumer.Account

variable {P O : Type}

/-! ### Calls -/

/-- The offsets of the records that a call hands over. -/
def Call.offsets (call : Call (Traced O)) : List ℕ := call.chunk.flatMap Prod.snd

/-- The handler failed, and the run with it. -/
def Call.retryable (call : Call O) : Prop :=
  ∃ source, call.result = some (.error ⟨.retryable, source⟩)

/-- The second call hands over no record of the first, if that returned `Ok`. -/
def Call.Once (call call' : Call (Traced O)) : Prop :=
  call.handled → ∀ a ∈ call.offsets, a ∉ call'.offsets

/-- A record was handed over, and the handler took it or gave it up. -/
def Served (t : List (Call (Traced O))) (a : ℕ) : Prop :=
  ∃ c ∈ t, (c.handled ∨ c.dropped) ∧ a ∈ c.offsets

/-- A handler takes the payload: the tag is registered, the associativity is that of its type, and the
payload decodes. -/
def Accepted (handlers : HandlerList P O) (headers : EventHeaders) (payload : P) : Prop :=
  ∃ h, handlers.find headers.tag = some h ∧
    (h.decodeOne ⟨payload, headers.properties.associativity⟩).isSome

/-! ### One run -/

/-- What the calls for `events` hand over, with outcome `o`. -/
structure Handed (h : Registered P O) (events : List (Traced h.Target)) (t : List (Call (Traced O)))
    (o : Option (RunResult (Traced P))) : Prop where
  mem : ∀ c ∈ t, ∀ a ∈ c.offsets, a ∈ events.flatMap Prod.snd
  once : (events.flatMap Prod.snd).Nodup → t.Pairwise Call.Once
  done : o = some .done → ∀ a ∈ events.flatMap Prod.snd, Served t a
  failed : ∀ error remainder, o = some (.failed error remainder) →
    (∃ pre c, t = pre ++ [c] ∧ c.retryable) ∧ ∃ left, left <:+ events ∧ remainder = Traced.encoded h left ∧
      (∀ a ∈ events.flatMap Prod.snd, Served t a ∨ a ∈ left.flatMap Prod.snd) ∧
        ((events.flatMap Prod.snd).Nodup → ∀ c ∈ t, c.handled → ∀ a ∈ c.offsets,
          a ∉ left.flatMap Prod.snd)

theorem pairwise_of_split {α : Type} {r : α → α → Prop} {t : List α}
    (h : ∀ pre a post, t = pre ++ a :: post → ∀ b ∈ pre, r b a) : t.Pairwise r := by
  refine List.pairwise_iff_getElem.mpr fun i j hi hj hij => ?_
  refine h (t.take j) t[j] (t.drop (j + 1)) ?_ _ (List.mem_take_iff_getElem.mpr ⟨i, by omega, rfl⟩)
  rw [← List.drop_eq_getElem_cons hj, List.take_append_drop]

theorem nodup_of_subperm {α : Type} {l l' : List α} (h : l'.Nodup) (hs : l.Subperm l') : l.Nodup := by
  obtain ⟨l'', hperm, hsub⟩ := hs
  exact hperm.nodup_iff.mp (h.sublist hsub)

theorem filterMap_range {α : Type} (l : List α) : (List.range l.length).filterMap (l[·]?) = l := by
  have h : (List.range l.length).map (l[·]?) = l.map some := by
    refine List.ext_getElem (by simp) fun i hi hi' => ?_
    rw [List.getElem_map, List.getElem_map, List.getElem_range, List.getElem?_eq_getElem]
  have hid := congrArg (List.filterMap id) h
  rw [List.filterMap_map, List.filterMap_map] at hid
  exact hid.trans List.filterMap_some

/-- Indices in order select elements in order. -/
theorem sublist_filterMap {α : Type} {l : List α} {indices : List ℕ} (h : indices.Pairwise (· < ·)) :
    (indices.filterMap (l[·]?)).Sublist l := by
  have hsub : (indices.filter (· < l.length)).Sublist (List.range l.length) := by
    refine List.sublist_of_subperm_of_pairwise (r := (· < ·)) ?_ (h.filter _) List.pairwise_lt_range
    refine List.subperm_of_subset ((h.imp Nat.ne_of_lt).filter _) fun i hi => ?_
    exact List.mem_range.mpr (of_decide_eq_true (List.mem_filter.mp hi).2)
  have hsame : (indices.filter (· < l.length)).filterMap (l[·]?) = indices.filterMap (l[·]?) := by
    rw [List.filterMap_filter]
    refine List.filterMap_congr fun i _ => ?_
    by_cases hi : i < l.length
    · simp [hi]
    · simp [hi]
  have hselected := hsub.filterMap (l[·]?)
  rwa [hsame, filterMap_range] at hselected

section Run

variable {h : Registered P O} {m : Marker h.Target} {sort : List (Traced h.Target) → List (Traced h.Target)}
  {events : List (Traced h.Target)} {t : List (Call (Traced O))} {o : Option (RunResult (Traced P))}

variable (m sort) in
theorem offsets_observed (events : List (Traced h.Target)) :
    (events.map (h.traced m sort).observe).flatMap Prod.snd = events.flatMap Prod.snd := by
  show (events.map fun e => (h.observe e.1, e.2)).flatMap Prod.snd = _
  rw [List.flatMap_map]

/-- The records of the settled chunks. -/
theorem mem_settledEvents {a : ℕ} : a ∈ (settledEvents t).flatMap Prod.snd ↔
    ∃ c ∈ settled t, a ∈ c.offsets := by
  simp only [settledEvents, List.mem_flatMap, Call.offsets]
  constructor
  · rintro ⟨v, ⟨c, hc, hv⟩, ha⟩
    exact ⟨c, hc, v, hv, ha⟩
  · rintro ⟨c, hc, v, hv, ha⟩
    exact ⟨v, ⟨c, hc, hv⟩, ha⟩

theorem mem_settled {c : Call O} {t : List (Call O)} (hc : c ∈ t) (hh : c.handled) : c ∈ settled t :=
  List.mem_filter.mpr ⟨hc, by simp [not_transient (Or.inl hh)]⟩

/-- **The calls for a run** hand over its records as they tile it. -/
theorem Tiled.handed (ht : Tiled (h.traced m sort) events t o) : Handed h events t o := by
  have hslice : ∀ pre c post, t = pre ++ c :: post →
      ((settledEvents pre).flatMap Prod.snd ++ c.offsets).Sublist (events.flatMap Prod.snd) := by
    intro pre c post hsplit
    obtain ⟨rest, hrest⟩ := (ht.slice pre c post hsplit).2.2.2
    rw [← offsets_observed m sort events, ← hrest, List.flatMap_append, List.flatMap_append]
    exact List.sublist_append_left _ _
  refine ⟨fun c hc a ha => ?_, fun hnd => pairwise_of_split fun pre c post hsplit d hd hh a ha hca => ?_,
    fun hdone a ha => ?_, fun error remainder hfailed => ?_⟩
  · obtain ⟨pre, post, hsplit⟩ := List.append_of_mem hc
    exact (hslice pre c post hsplit).subset (List.mem_append_right _ ha)
  · have hda := mem_settledEvents.mpr ⟨d, mem_settled hd hh, ha⟩
    exact (List.nodup_append.mp (hnd.sublist (hslice pre c post hsplit))).2.2 a hda a hca rfl
  · obtain ⟨hall, hserved⟩ := ht.done hdone
    rw [← offsets_observed m sort events, ← hall] at ha
    obtain ⟨c, hc, hca⟩ := mem_settledEvents.mp ha
    exact ⟨c, (List.mem_filter.mp hc).1, hserved c hc, hca⟩
  · obtain ⟨pre, c, rfl, hc, hserved, htake, rfl⟩ := ht.failed error remainder hfailed
    set n := (settledEvents pre).length
    have hsettled : (settledEvents pre).flatMap Prod.snd = (events.take n).flatMap Prod.snd := by
      rw [htake]
      exact offsets_observed m sort _
    have hsplit : events.flatMap Prod.snd = (settledEvents pre).flatMap Prod.snd ++
        (events.drop n).flatMap Prod.snd := by
      rw [hsettled, ← List.flatMap_append, List.take_append_drop]
    refine ⟨⟨pre, c, rfl, error, hc⟩, events.drop n, List.drop_suffix _ _, Traced.encode_traced _,
      fun a ha => ?_, fun hnd d hd hh a ha hleft => ?_⟩
    · rw [hsplit] at ha
      refine (List.mem_append.mp ha).imp_left fun ha => ?_
      obtain ⟨d, hd, hda⟩ := mem_settledEvents.mp ha
      exact ⟨d, List.mem_append_left _ (List.mem_filter.mp hd).1, hserved d hd, hda⟩
    · rcases List.mem_append.mp hd with hd | hd
      · rw [hsplit] at hnd
        exact (List.nodup_append.mp hnd).2.2 a (mem_settledEvents.mpr ⟨d, mem_settled hd hh, ha⟩) a hleft rfl
      · obtain rfl := List.mem_singleton.mp hd
        rw [Call.handled, hc] at hh
        cases hh

end Run

/-! ### The records of the runs of a key -/

/-- The offsets a run stands for. -/
def runOffsets (plan : Plan UInt64) (batch : List (ParsedRecord (Traced P))) (run : Run) : List ℕ :=
  (runRecords plan batch run).flatMap (·.payload.2)

section Key

variable {handlers : HandlerList P O} {marking : handlers.Marking} {plan : Plan UInt64}
  {batch : List (ParsedRecord (Traced P))} {key : KeyPlan UInt64}

theorem mem_runOffsets {run : Run} {a : ℕ} : a ∈ runOffsets plan batch run ↔
    ∃ i ∈ plan.records run, ∃ r, batch[i]? = some r ∧ a ∈ r.payload.2 := by
  simp only [runOffsets, runRecords, List.mem_flatMap, List.mem_filterMap, Option.map_eq_some_iff]
  constructor
  · rintro ⟨record, ⟨i, hi, r, hr, rfl⟩, ha⟩
    exact ⟨i, hi, r, hr, ha⟩
  · rintro ⟨i, hi, r, hr, ha⟩
    exact ⟨_, ⟨i, hi, r, hr, rfl⟩, ha⟩

/-- Records with the same offset are the same. -/
theorem index_unique (hnd : (batch.flatMap (·.payload.2)).Nodup) {i j : ℕ}
    {r r' : ParsedRecord (Traced P)} (hi : batch[i]? = some r) (hj : batch[j]? = some r') {a : ℕ}
    (ha : a ∈ r.payload.2) (ha' : a ∈ r'.payload.2) : i = j := by
  obtain ⟨hlt, rfl⟩ := List.getElem?_eq_some_iff.mp hi
  obtain ⟨hlt', rfl⟩ := List.getElem?_eq_some_iff.mp hj
  have hpw := List.pairwise_iff_getElem.mp (List.nodup_flatMap.mp hnd).2
  rcases Nat.lt_trichotomy i j with hij | heq | hij
  · exact absurd ha' (hpw i j hlt hlt' hij ha)
  · exact heq
  · exact absurd ha (hpw j i hlt' hlt hij ha')

theorem nodup_runOffsets (hnd : (batch.flatMap (·.payload.2)).Nodup) {run : Run}
    (hrun : (plan.records run).Nodup) : (runOffsets plan batch run).Nodup := by
  have hr := (List.nodup_flatMap.mp hnd).1
  rw [runOffsets, runRecords]
  refine List.nodup_flatMap.mpr ⟨fun record hrec => ?_, List.pairwise_filterMap.mpr ?_⟩
  · obtain ⟨i, -, hi⟩ := List.mem_filterMap.mp hrec
    obtain ⟨r, hget, rfl⟩ := Option.map_eq_some_iff.mp hi
    exact hr r (List.mem_of_getElem? hget)
  · refine hrun.imp fun {i j} hne record hrec record' hrec' a ha ha' => hne ?_
    obtain ⟨r, hi, rfl⟩ := Option.map_eq_some_iff.mp hrec
    obtain ⟨r', hj, rfl⟩ := Option.map_eq_some_iff.mp hrec'
    exact index_unique hnd hi hj ha ha'

theorem nodup_records (hkey : key ∈ (Plan.new (planRecords batch)).keys) :
    ((workOf (Plan.new (planRecords batch)) key).flatMap fun w =>
      (Plan.new (planRecords batch)).records w.run).Nodup :=
  (perm_workOf hkey).nodup_iff.mpr (List.nodup_range.filter _)

/-- The runs of a key stand for different records. -/
theorem work_unique (hnd : (batch.flatMap (·.payload.2)).Nodup)
    (hkey : key ∈ (Plan.new (planRecords batch)).keys) {w w' : Work}
    (hw : w ∈ workOf (Plan.new (planRecords batch)) key)
    (hw' : w' ∈ workOf (Plan.new (planRecords batch)) key) {a : ℕ}
    (ha : a ∈ runOffsets (Plan.new (planRecords batch)) batch w.run)
    (ha' : a ∈ runOffsets (Plan.new (planRecords batch)) batch w'.run) : w = w' := by
  obtain ⟨i, hi, r, hr, ha⟩ := mem_runOffsets.mp ha
  obtain ⟨j, hj, r', hr', ha'⟩ := mem_runOffsets.mp ha'
  obtain rfl := index_unique hnd hr hr' ha ha'
  by_contra hne
  have hpw := (List.nodup_flatMap.mp (nodup_records hkey)).2
  have hsymm : Std.Symm (Function.onFun List.Disjoint
      fun w : Work => (Plan.new (planRecords batch)).records w.run) := ⟨fun _ _ h => h.symm⟩
  exact hpw.forall hw hw' hne hi hj

/-- **The calls for a run**, if its tag has a handler. -/
theorem handed_runOne {run : Run} {t : List (Call (Traced O))} {o : Option (RunResult (Traced P))}
    (h : runOne (handlers.traced marking) plan batch run t o) :
    match handlers.findMarked run.tag marking with
    | none => t = []
    | some m => Handed m.1 ((m.2.marker.traced m.2.sort).reduce
        (Traced.decoded m.1 (runRecords plan batch run))) t o := by
  rw [runOne, HandlerList.handleRun_eq, HandlerList.find_traced] at h
  cases hm : handlers.findMarked run.tag marking with
  | none =>
    rw [hm] at h
    exact h.1
  | some m =>
    rw [hm] at h
    have ht := Registered.handleEvents_tiled _ h
    rw [Traced.decode_traced m.2.algebra_eq] at ht
    exact ht.handed

/-- The records of a run have its tag. -/
theorem tag_of_run (hkey : key ∈ (Plan.new (planRecords batch)).keys) {w : Work}
    (hw : w ∈ workOf (Plan.new (planRecords batch)) key) {i : ℕ}
    (hi : i ∈ (Plan.new (planRecords batch)).records w.run) {r : ParsedRecord (Traced P)}
    (hr : batch[i]? = some r) : r.headers.tag = w.run.tag := by
  obtain ⟨r', hr', htag⟩ := (records_of_workOf hkey hw).2 i hi
  rw [planRecords, List.getElem?_map, hr] at hr'
  obtain rfl := Option.some.inj hr'
  exact htag

/-- The handler of a record, with its marker. -/
theorem Accepted.exists_marked {headers : EventHeaders} {payload : P}
    (h : Accepted handlers headers payload) (marking : handlers.Marking) :
    ∃ m, handlers.findMarked headers.tag marking = some m ∧
      (m.1.decodeOne ⟨payload, headers.properties.associativity⟩).isSome := by
  obtain ⟨h, hfind, hdecode⟩ := h
  rw [HandlerList.find_eq handlers marking] at hfind
  obtain ⟨m, hm, rfl⟩ := Option.map_eq_some_iff.mp hfind
  exact ⟨m, hm, hdecode⟩

/-- A record that decodes is part of a reduced event. -/
theorem mem_reduce {h : Registered P O} (m : Marked h) {run : Run} {i : ℕ} (hi : i ∈ plan.records run)
    {r : ParsedRecord (Traced P)} (hr : batch[i]? = some r)
    (hdecode : (h.decodeOne ⟨r.payload.1, r.headers.properties.associativity⟩).isSome) {a : ℕ}
    (ha : a ∈ r.payload.2) : a ∈ ((m.marker.traced m.sort).reduce
      (Traced.decoded h (runRecords plan batch run))).flatMap Prod.snd := by
  obtain ⟨event, hevent⟩ := Option.isSome_iff_exists.mp hdecode
  refine (Partition.Traced.perm_reduce m.sorts _).mem_iff.mpr (List.mem_flatMap.mpr
    ⟨(event, r.payload.2), List.mem_filterMap.mpr ⟨⟨r.payload, r.headers.properties.associativity⟩, ?_, ?_⟩, ha⟩)
  · exact List.mem_filterMap.mpr ⟨i, hi, by rw [hr]; rfl⟩
  · exact Option.map_eq_some_iff.mpr ⟨event, hevent, rfl⟩

/-- The events of a run stand for its records. -/
theorem subperm_reduce {h : Registered P O} (m : Marked h) (run : Run) :
    (((m.marker.traced m.sort).reduce (Traced.decoded h (runRecords plan batch run))).flatMap
      Prod.snd).Subperm (runOffsets plan batch run) :=
  (Partition.Traced.perm_reduce m.sorts _).subperm.trans (Traced.sublist_decoded _).subperm

theorem mem_runOne {run : Run} {t : List (Call (Traced O))} {o : Option (RunResult (Traced P))}
    (h : runOne (handlers.traced marking) plan batch run t o) {c : Call (Traced O)} (hc : c ∈ t) {a : ℕ}
    (ha : a ∈ c.offsets) : a ∈ runOffsets plan batch run := by
  have hh := handed_runOne h
  cases hm : handlers.findMarked run.tag marking with
  | none =>
    rw [hm] at hh
    rw [show t = [] from hh] at hc
    cases hc
  | some m =>
    rw [hm] at hh
    exact (subperm_reduce m.2 run).subset (hh.mem c hc a ha)

theorem once_runOne {run : Run} {t : List (Call (Traced O))} {o : Option (RunResult (Traced P))}
    (h : runOne (handlers.traced marking) plan batch run t o) (hnd : (runOffsets plan batch run).Nodup) :
    t.Pairwise Call.Once := by
  have hh := handed_runOne h
  cases hm : handlers.findMarked run.tag marking with
  | none =>
    rw [hm] at hh
    rw [show t = [] from hh]
    exact .nil
  | some m =>
    rw [hm] at hh
    exact hh.once (nodup_of_subperm hnd (subperm_reduce m.2 run))

end Key

/-! ### The execution of a key -/

section Execute

variable {ε : Type} {handlers : HandlerList P O} {marking : handlers.Marking}
  {batch : List (ParsedRecord (Traced P))} {key : KeyPlan UInt64}
  {run1 : ℕ → Stage → Run → Async ε (RunResult (Traced P))} {call : ε → Call (Traced O)} {t : List ε}
  (hrun : ∀ index stage run t o, run1 index stage run t o →
    runOne (handlers.traced marking) (Plan.new (planRecords batch)) batch run (t.map call) o)
  (hkey : key ∈ (Plan.new (planRecords batch)).keys)
include hrun

/-- An event of a run. -/
theorem exists_part {u : List (Work × ε)} {s : List (Started (Traced P))} (h : Parts run1 u s)
    (hs : (s.map (·.work)).Sublist (workOf (Plan.new (planRecords batch)) key)) {e : Work × ε} (he : e ∈ u) :
    ∃ x ∈ s, x.work = e.1 ∧ e.1 ∈ workOf (Plan.new (planRecords batch)) key ∧ e.2 ∈ eventsOf u e.1 ∧
      runOne (handlers.traced marking) (Plan.new (planRecords batch)) batch e.1.run
        ((eventsOf u e.1).map call) x.result := by
  obtain ⟨x, hx, hxe⟩ := List.mem_map.mp (h.started e he)
  refine ⟨x, hx, hxe, hs.subset (h.started e he), ?_, hxe ▸ hrun _ _ _ _ _ (h.run x hx)⟩
  exact List.mem_map.mpr ⟨e, List.mem_filter.mpr ⟨he, by simp⟩, rfl⟩

/-- A call for a key hands over records of the key. -/
theorem mem_execute {o : Option (KeyReport (Traced P))}
    (h : executeKeyWith run1 (Plan.new (planRecords batch)) key t o) {e : ε} (he : e ∈ t) {a : ℕ}
    (ha : a ∈ (call e).offsets) : ∃ w ∈ workOf (Plan.new (planRecords batch)) key,
      a ∈ runOffsets (Plan.new (planRecords batch)) batch w.run := by
  obtain ⟨u, s, rfl, hparts, hs, -⟩ := splits_segments _ 0 [] t o h
  obtain ⟨x, hx, rfl⟩ := List.mem_map.mp he
  obtain ⟨y, -, -, hw, hmem, hone⟩ := exists_part hrun hparts hs hx
  exact ⟨x.1, hw, mem_runOne hone (List.mem_map_of_mem hmem) ha⟩

include hkey

/-- **No record of a call that returned `Ok` is handed over again.** -/
theorem once_execute (hnd : (batch.flatMap (·.payload.2)).Nodup) {o : Option (KeyReport (Traced P))}
    (h : executeKeyWith run1 (Plan.new (planRecords batch)) key t o) : (t.map call).Pairwise Call.Once := by
  obtain ⟨u, s, rfl, hparts, hs, -⟩ := splits_segments _ 0 [] t o h
  rw [List.map_map, List.pairwise_map]
  refine List.pairwise_iff_forall_sublist.mpr fun {e e'} hsub => ?_
  have he : e ∈ u := hsub.subset (by simp)
  have he' : e' ∈ u := hsub.subset (by simp)
  obtain ⟨x, -, -, hw, hmem, hone⟩ := exists_part hrun hparts hs he
  obtain ⟨x', -, -, hw', hmem', hone'⟩ := exists_part hrun hparts hs he'
  by_cases hee : e.1 = e'.1
  · have hnodup := nodup_runOffsets hnd ((List.nodup_flatMap.mp (nodup_records hkey)).1 _ hw)
    have hboth : [e.2, e'.2].Sublist (eventsOf u e.1) := by
      have hf := (hsub.filter fun x => decide (x.1 = e.1)).map Prod.snd
      rwa [List.filter_cons_of_pos (by simp), List.filter_cons_of_pos (by simp [hee]), List.filter_nil] at hf
    exact List.pairwise_iff_forall_sublist.mp (once_runOne hone hnodup) (hboth.map call)
  · intro _ a ha ha'
    exact hee (work_unique hnd hkey hw hw' (mem_runOne hone (List.mem_map_of_mem hmem) ha)
      (mem_runOne hone' (List.mem_map_of_mem hmem') ha'))

omit hrun hkey in
/-- A run that fails does so after every call that returned `Ok`. -/
theorem failed_after {run : Run} {v : List ε} {error : String} {remainder : List (Traced P)}
    (h : runOne (handlers.traced marking) (Plan.new (planRecords batch)) batch run (v.map call)
      (some (.failed error remainder))) {e : ε} (he : e ∈ v) (hh : (call e).handled) :
    ∃ e', [e, e'].Sublist v ∧ (call e').retryable := by
  have hhanded := handed_runOne h
  cases hm : handlers.findMarked run.tag marking with
  | none =>
    simp only [hm, List.map_eq_nil_iff] at hhanded
    rw [hhanded] at he
    cases he
  | some m =>
    simp only [hm] at hhanded
    obtain ⟨⟨pre, c, hpre, hc⟩, -⟩ := hhanded.failed _ _ rfl
    obtain ⟨pre, last, rfl, rfl, hlast⟩ := List.map_eq_append_iff.mp hpre
    obtain ⟨e', last, rfl, rfl, hnil⟩ := List.map_eq_cons_iff.mp hlast
    obtain rfl := List.map_eq_nil_iff.mp hnil
    refine ⟨e', ?_, hc⟩
    rcases List.mem_append.mp he with hp | hp
    · exact (List.singleton_sublist.mpr hp).append (List.Sublist.refl [e'])
    · obtain ⟨source, hc⟩ := hc
      obtain rfl := List.mem_singleton.mp hp
      rw [Call.handled, hc] at hh
      cases hh

omit hrun hkey in
/-- An execution with a report: the results of its runs, and what they did. -/
theorem exists_results {report : KeyReport (Traced P)}
    (h : executeKeyWith run1 (Plan.new (planRecords batch)) key t (some report)) : ∃ u s results,
      u.map Prod.snd = t ∧ executeKeyWith start (Plan.new (planRecords batch)) key s (some report) ∧
      s.Perm (results.map fun e => ⟨e.1, some e.2⟩) ∧
      report.completed = results.flatMap (fun e => completedBy (Plan.new (planRecords batch)) e.1.run e.2) ∧
      Ran (Plan.new (planRecords batch)) (workOf (Plan.new (planRecords batch)) key) results report.failure ∧
      (∀ e ∈ results, run1 e.1.segment e.1.stage e.1.run (eventsOf u e.1) (some e.2)) ∧
      ∀ e ∈ u, ∃ r, (e.1, r) ∈ results := by
  obtain ⟨u, s, rfl, hparts, hs, ho⟩ := splits_segments _ 0 [] t _ h
  obtain ⟨results, hperm, hcompleted, hran⟩ := key_ran (ho report rfl)
  refine ⟨u, s, results, rfl, ho report rfl, hperm, hcompleted, hran, fun e he => ?_, fun e he => ?_⟩
  · have hx := hperm.mem_iff.mpr (List.mem_map_of_mem he)
    exact hparts.run _ hx
  · obtain ⟨x, hx, hxe⟩ := List.mem_map.mp (hparts.started e he)
    obtain ⟨⟨w, r⟩, hr, rfl⟩ := List.mem_map.mp (hperm.mem_iff.mp hx)
    exact ⟨r, hxe ▸ hr⟩

/-- **Every record of a completed run is over.** -/
theorem served_of_completed {report : KeyReport (Traced P)}
    (h : executeKeyWith run1 (Plan.new (planRecords batch)) key t (some report)) {i : ℕ}
    (hi : i ∈ report.completed) {r : ParsedRecord (Traced P)} (hr : batch[i]? = some r)
    (hacc : Accepted handlers r.headers r.payload.1) {a : ℕ} (ha : a ∈ r.payload.2) : Served (t.map call) a := by
  obtain ⟨u, s, results, rfl, -, -, hcompleted, hran, hresults, -⟩ := exists_results h
  rw [hcompleted] at hi
  obtain ⟨⟨w, result⟩, he, hi⟩ := List.mem_flatMap.mp hi
  cases result with
  | failed error remainder => cases hi
  | done =>
    have hw := (sublist_results hran).subset (List.mem_map_of_mem he)
    obtain ⟨m, hm, hdecode⟩ := hacc.exists_marked marking
    have hh := handed_runOne (hrun _ _ _ _ _ (hresults _ he))
    rw [tag_of_run hkey hw hi hr] at hm
    simp only [hm] at hh
    obtain ⟨c, hc, hserved, hca⟩ := hh.done rfl a (mem_reduce m.2 hi hr hdecode ha)
    obtain ⟨e, hmem, rfl⟩ := List.mem_map.mp hc
    obtain ⟨x, hx, rfl⟩ := List.mem_map.mp hmem
    exact ⟨_, List.mem_map_of_mem (List.mem_map_of_mem (List.mem_filter.mp hx).1), hserved, hca⟩

omit hkey in
/-- **A record that was in a call that returned `Ok`** is in a completed run, or the run failed after
the call. -/
theorem completed_of_handled (hnd : (batch.flatMap (·.payload.2)).Nodup) {report : KeyReport (Traced P)}
    (h : executeKeyWith run1 (Plan.new (planRecords batch)) key t (some report)) {e : ε} (he : e ∈ t)
    (hh : (call e).handled) {i : ℕ} {r : ParsedRecord (Traced P)} (hr : batch[i]? = some r) {a : ℕ}
    (ha : a ∈ r.payload.2) (hae : a ∈ (call e).offsets) : i ∈ report.completed ∨
      ∃ e', [e, e'].Sublist t ∧ (call e').retryable ∧ ∃ index stage run v o,
        run1 index stage run v o ∧ e ∈ v ∧ e' ∈ v := by
  obtain ⟨u, s, results, rfl, -, -, hcompleted, hran, hresults, hu⟩ := exists_results h
  obtain ⟨x, hx, rfl⟩ := List.mem_map.mp he
  obtain ⟨result, hres⟩ := hu x hx
  have hw := (sublist_results hran).subset (List.mem_map_of_mem hres)
  have hone := hrun _ _ _ _ _ (hresults _ hres)
  have hmem : x.2 ∈ eventsOf u x.1 := List.mem_map.mpr ⟨x, List.mem_filter.mpr ⟨hx, by simp⟩, rfl⟩
  have hsub : (eventsOf u x.1).Sublist (u.map Prod.snd) := List.filter_sublist.map _
  cases result with
  | done =>
    obtain ⟨j, hj, r', hr', ha'⟩ := mem_runOffsets.mp (mem_runOne hone (List.mem_map_of_mem hmem) hae)
    rw [index_unique hnd hr hr' ha ha', hcompleted]
    exact Or.inl (List.mem_flatMap.mpr ⟨_, hres, hj⟩)
  | failed error remainder =>
    obtain ⟨e', hafter, hfailed⟩ := failed_after hone hmem hh
    exact Or.inr ⟨e', hafter.trans hsub, hfailed, _, _, _, _, _, hresults _ hres, hmem,
      hafter.subset (by simp)⟩

end Execute

/-! ### What is written for a key -/

section Encode

variable {handlers : HandlerList P O} {marking : handlers.Marking}
  {batch : List (ParsedRecord (Traced P))} {key : KeyPlan UInt64}
  {failure : Option (KeyFailure (Traced P))}
  (hkey : key ∈ (Plan.new (planRecords batch)).keys)

/-- The records of the runs of a key are those of the key. -/
theorem mem_work_iff (hkey : key ∈ (Plan.new (planRecords batch)).keys) {i : ℕ} :
    (∃ w ∈ workOf (Plan.new (planRecords batch)) key, i ∈ (Plan.new (planRecords batch)).records w.run) ↔
      ∃ r, batch[i]? = some r ∧ r.headers.key = key.key := by
  rw [← List.mem_flatMap, (perm_workOf hkey).mem_iff, List.mem_filter, List.mem_range, decide_eq_true_eq,
    planRecords, List.getElem?_map]
  constructor
  · rintro ⟨-, hk⟩
    obtain ⟨r', hr', hk⟩ := Option.map_eq_some_iff.mp hk
    obtain ⟨r, hr, rfl⟩ := Option.map_eq_some_iff.mp hr'
    exact ⟨r, hr, hk⟩
  · rintro ⟨r, hr, hk⟩
    obtain ⟨hlt, -⟩ := List.getElem?_eq_some_iff.mp hr
    exact ⟨by simpa using hlt, by rw [hr]; exact congrArg some hk⟩

theorem headers_of_pushRun {handlers : HandlerList P O} {k : UInt64} {kind : StageKind} {run : Run}
    {payloads : List P} {entry : RetryEntry P} (he : entry ∈ pushRun handlers k kind run payloads) :
    entry.headers.key = k ∧ entry.headers.tag = run.tag ∧
      handlers.associativity run.tag = some entry.headers.properties.associativity ∧
        entry.payload ∈ payloads := by
  unfold pushRun at he
  cases ha : handlers.associativity run.tag with
  | none =>
    rw [ha] at he
    cases he
  | some associativity =>
    rw [ha] at he
    obtain ⟨e, hz, rfl⟩ := List.mem_map.mp he
    exact ⟨rfl, rfl, rfl, (List.of_mem_zip hz).1⟩

variable (hr : Reported (handlers.traced marking) (Plan.new (planRecords batch)) key batch failure)

include hr in
/-- What is left of a run stands for some of its records. -/
theorem subperm_unfinished {w : Work} (hw : w ∈ workOf (Plan.new (planRecords batch)) key) :
    ((unfinished (handlers.traced marking) (Plan.new (planRecords batch)) batch failure w).flatMap
      Prod.snd).Subperm (runOffsets (Plan.new (planRecords batch)) batch w.run) := by
  have hsuffix := (unfinished_suffix hr hw).sublist.flatMap Prod.snd
  refine hsuffix.subperm.trans ?_
  rw [reduce, Traced.reduceRun_traced]
  cases handlers.findMarked w.run.tag marking with
  | none => exact List.nil_subperm
  | some m => exact (Traced.sublist_encoded _).subperm.trans (subperm_reduce m.2 w.run)

include hr in
/-- An entry holds what is left of a run. -/
theorem exists_unfinished {entry : RetryEntry (Traced P)}
    (he : entry ∈ encodeKey (handlers.traced marking) (Plan.new (planRecords batch)) key batch failure) :
    ∃ w ∈ workOf (Plan.new (planRecords batch)) key, entry.headers.key = key.key ∧
      entry.payload ∈ unfinished (handlers.traced marking) (Plan.new (planRecords batch)) batch failure w := by
  rw [encodeKey_unfinished hr] at he
  obtain ⟨w, hw, he⟩ := List.mem_flatMap.mp he
  obtain ⟨hk, -, -, hp⟩ := headers_of_pushRun he
  exact ⟨w, hw, hk, hp⟩

include hr hkey in
/-- Entries of a key stand for records of the key. -/
theorem mem_encodeKey {entry : RetryEntry (Traced P)}
    (he : entry ∈ encodeKey (handlers.traced marking) (Plan.new (planRecords batch)) key batch failure)
    {a : ℕ} (ha : a ∈ entry.payload.2) :
    entry.headers.key = key.key ∧ ∃ r ∈ batch, r.headers.key = key.key ∧ a ∈ r.payload.2 := by
  obtain ⟨w, hw, hk, hp⟩ := exists_unfinished hr he
  have hmem := (subperm_unfinished hr hw).subset (List.mem_flatMap.mpr ⟨_, hp, ha⟩)
  obtain ⟨i, hi, r, hget, har⟩ := mem_runOffsets.mp hmem
  obtain ⟨r', hget', hrk⟩ := (mem_work_iff hkey).mp ⟨w, hw, hi⟩
  obtain rfl := Option.some.inj (hget.symm.trans hget')
  exact ⟨hk, r, List.mem_of_getElem? hget, hrk, har⟩

include hr hkey in
/-- No record is written twice. -/
theorem nodup_encodeKey (hnd : (batch.flatMap (·.payload.2)).Nodup) :
    ((encodeKey (handlers.traced marking) (Plan.new (planRecords batch)) key batch failure).flatMap
      (·.payload.2)).Nodup := by
  have hsub : ∀ w ∈ workOf (Plan.new (planRecords batch)) key,
      ((pushRun (handlers.traced marking) key.key w.stage.kind w.run (unfinished (handlers.traced marking)
        (Plan.new (planRecords batch)) batch failure w)).flatMap (·.payload.2)).Subperm
          (runOffsets (Plan.new (planRecords batch)) batch w.run) := by
    intro w hw
    have h := (sublist_pushRun (handlers.traced marking) key.key w.stage.kind w.run (unfinished
      (handlers.traced marking) (Plan.new (planRecords batch)) batch failure w)).flatMap Prod.snd
    rw [List.flatMap_map] at h
    exact h.subperm.trans (subperm_unfinished hr hw)
  rw [encodeKey_unfinished hr, List.flatMap_assoc]
  refine List.nodup_flatMap.mpr ⟨fun w hw => nodup_of_subperm (nodup_runOffsets hnd ?_) (hsub w hw), ?_⟩
  · exact (List.nodup_flatMap.mp (nodup_records hkey)).1 w hw
  · exact (nodup_workOf _ _).imp_of_mem fun hw hw' hne a ha ha' =>
      hne (work_unique hnd hkey hw hw' ((hsub _ hw).subset ha) ((hsub _ hw').subset ha'))

end Encode

section Failed

variable {handlers : HandlerList P O} {marking : handlers.Marking}
  {batch : List (ParsedRecord (Traced P))} {key : KeyPlan UInt64} {t : List (Call (Traced O))}
  {report : KeyReport (Traced P)}
  (hkey : key ∈ (Plan.new (planRecords batch)).keys)
  (h : executeKey (handlers.traced marking) (Plan.new (planRecords batch)) key batch t (some report))
include hkey h

/-- **What is written of a failed key was not taken.** -/
theorem not_handled_of_encoded (hnd : (batch.flatMap (·.payload.2)).Nodup) {f : KeyFailure (Traced P)}
    (hf : report.failure = some f) {entry : RetryEntry (Traced P)}
    (he : entry ∈ encodeKey (handlers.traced marking) (Plan.new (planRecords batch)) key batch (some f))
    {a : ℕ} (ha : a ∈ entry.payload.2) {c : Call (Traced O)} (hc : c ∈ t) (hh : c.handled) :
    a ∉ c.offsets := by
  intro hac
  have hr : Reported (handlers.traced marking) (Plan.new (planRecords batch)) key batch (some f) :=
    fun f' hf' => ⟨t, report, h, hf.trans hf'⟩
  obtain ⟨u, s, results, rfl, hs, hperm, -, hran, hresults, hu⟩ := exists_results h
  obtain ⟨w, hw, -, hp⟩ := exists_unfinished hr he
  have haw := (subperm_unfinished hr hw).subset (List.mem_flatMap.mpr ⟨_, hp, ha⟩)
  obtain ⟨x, hx, rfl⟩ := List.mem_map.mp hc
  obtain ⟨result, hres⟩ := hu x hx
  have hmem : x.2 ∈ eventsOf u x.1 := List.mem_map.mpr ⟨x, List.mem_filter.mpr ⟨hx, by simp⟩, rfl⟩
  have hone := hresults _ hres
  obtain rfl := work_unique hnd hkey hw ((sublist_results hran).subset (List.mem_map_of_mem hres)) haw
    (mem_runOne hone hmem hac)
  rw [unfinished_eq (handlers.traced marking) batch hs hf hw, remaining, resultOf_mem hran hperm hres] at hp
  cases result with
  | done => cases hp
  | failed error remainder =>
    have hhanded := handed_runOne hone
    cases hm : handlers.findMarked x.1.run.tag marking with
    | none =>
      simp only [hm] at hhanded
      rw [hhanded] at hmem
      cases hmem
    | some m =>
      simp only [hm] at hhanded
      obtain ⟨-, left, hleft, rfl, -, hnot⟩ := hhanded.failed _ _ rfl
      have hnodup := nodup_of_subperm (nodup_runOffsets hnd
        ((List.nodup_flatMap.mp (nodup_records hkey)).1 _ hw)) (subperm_reduce m.2 x.1.run)
      exact hnot hnodup _ hmem hh a hac
        ((Traced.sublist_encoded _).subset (List.mem_flatMap.mpr ⟨_, hp, ha⟩))

end Failed

/-! ### Records that can be written again -/

/-- In whatever run of records of the log a record is reduced, the event that stands for it can be
serialized, and what was written decodes and is `good`. -/
def Recovers (handlers : HandlerList P O) (marking : handlers.Marking) (good : P → Prop)
    (log : List (ParsedRecord (Traced P))) (r : ParsedRecord (Traced P)) : Prop :=
  ∀ m, handlers.findMarked r.headers.tag marking = some m →
    ∀ run : List (ParsedRecord (Traced P)), run.Sublist log →
      (∀ r' ∈ run, r'.headers.key = r.headers.key ∧ r'.headers.tag = r.headers.tag) →
        ∀ e ∈ (m.2.marker.traced m.2.sort).reduce (Traced.decoded m.1 (run.map fun r' =>
          ⟨r'.payload, r'.headers.properties.associativity⟩)), ∀ a ∈ r.payload.2, a ∈ e.2 →
            ∃ p, m.1.toBytes e.1 = .ok p ∧ (m.1.fromBytes p).toOption.isSome ∧ good p

theorem Recovers.mono {handlers : HandlerList P O} {marking : handlers.Marking} {good : P → Prop}
    {log log' : List (ParsedRecord (Traced P))} {r : ParsedRecord (Traced P)}
    (h : Recovers handlers marking good log' r) (hsub : log.Sublist log') :
    Recovers handlers marking good log r :=
  fun m hm run hrun => h m hm run (hrun.trans hsub)

/-- An entry stands for a record, and a handler takes it. -/
def Represents (handlers : HandlerList P O) (good : P → Prop) (a : ℕ) (entry : RetryEntry (Traced P)) : Prop :=
  a ∈ entry.payload.2 ∧ Accepted handlers entry.headers entry.payload.1 ∧ good entry.payload.1

section Represented

variable {handlers : HandlerList P O} {marking : handlers.Marking} {good : P → Prop}
  {batch : List (ParsedRecord (Traced P))} {key : KeyPlan UInt64}
  (hkey : key ∈ (Plan.new (planRecords batch)).keys)
  {i : ℕ} {r : ParsedRecord (Traced P)} (hget : batch[i]? = some r) {a : ℕ} (ha : a ∈ r.payload.2)
  (hrec : Recovers handlers marking good batch r) {w : Work}
  (hw : w ∈ workOf (Plan.new (planRecords batch)) key)
  (hi : i ∈ (Plan.new (planRecords batch)).records w.run)

include hkey hget ha hrec

include hw hi in
/-- The event that stands for a record is written. -/
theorem exists_encoded {m : (h : Registered P O) × Marked h}
    (hm : handlers.findMarked r.headers.tag marking = some m) {left : List (Traced m.1.Target)}
    (hleft : left <:+ (m.2.marker.traced m.2.sort).reduce
      (Traced.decoded m.1 (runRecords (Plan.new (planRecords batch)) batch w.run)))
    (hal : a ∈ left.flatMap Prod.snd) : ∃ q ∈ Traced.encoded m.1 left, a ∈ q.2 ∧
      (m.1.fromBytes q.1).toOption.isSome ∧ good q.1 := by
  obtain ⟨e, he, hae⟩ := List.mem_flatMap.mp hal
  set run := ((Plan.new (planRecords batch)).records w.run).filterMap (batch[·]?) with hrun
  have hrecords : runRecords (Plan.new (planRecords batch)) batch w.run =
      run.map fun r' => ⟨r'.payload, r'.headers.properties.associativity⟩ := by
    rw [hrun, List.map_filterMap]
    rfl
  have hsame : ∀ r' ∈ run, r'.headers.key = r.headers.key ∧ r'.headers.tag = r.headers.tag := by
    intro r' hr'
    obtain ⟨j, hj, hr'⟩ := List.mem_filterMap.mp hr'
    obtain ⟨r₁, hr₁, hk⟩ := (mem_work_iff hkey).mp ⟨w, hw, hi⟩
    obtain ⟨r₂, hr₂, hk'⟩ := (mem_work_iff hkey).mp ⟨w, hw, hj⟩
    obtain rfl := Option.some.inj (hget.symm.trans hr₁)
    obtain rfl := Option.some.inj (hr'.symm.trans hr₂)
    exact ⟨hk'.trans hk.symm, (tag_of_run hkey hw hj hr').trans (tag_of_run hkey hw hi hget).symm⟩
  have hsub : run.Sublist batch := by
    obtain ⟨segment, hsegment, hranked⟩ := ranked_of_workOf hw
    exact sublist_filterMap (Groups.runs_new _ key hkey segment hsegment _ hranked).1
  obtain ⟨p, hp, hdecodes, hgood⟩ :=
    hrec m hm run hsub hsame e (hrecords ▸ hleft.subset he) a ha hae
  refine ⟨(p, e.2), List.mem_filterMap.mpr ⟨e, he, ?_⟩, hae, hdecodes, hgood⟩
  rw [hp]
  rfl

include hw hi in
/-- What is left of a run and stands for a record is written to the retry partition. -/
theorem exists_represents {failure : Option (KeyFailure (Traced P))}
    (hr : Reported (handlers.traced marking) (Plan.new (planRecords batch)) key batch failure)
    {m : (h : Registered P O) × Marked h} (hm : handlers.findMarked r.headers.tag marking = some m)
    {left : List (Traced m.1.Target)} (hleft : left <:+ (m.2.marker.traced m.2.sort).reduce
      (Traced.decoded m.1 (runRecords (Plan.new (planRecords batch)) batch w.run)))
    (hal : a ∈ left.flatMap Prod.snd) (hu : unfinished (handlers.traced marking)
      (Plan.new (planRecords batch)) batch failure w = Traced.encoded m.1 left) :
    ∃ entry ∈ encodeKey (handlers.traced marking) (Plan.new (planRecords batch)) key batch failure,
      Represents handlers good a entry := by
  obtain ⟨q, hq, haq, hdecodes, hgood⟩ := exists_encoded hkey hget ha hrec hw hi hm hleft hal
  have htag := tag_of_run hkey hw hi hget
  rw [htag] at hm
  have hfind : (handlers.traced marking).find w.run.tag = some (m.1.traced m.2.marker m.2.sort) := by
    rw [HandlerList.find_traced, hm]
    rfl
  have hpayloads := @payload_pushRun _ _ (handlers.traced marking) key.key w.stage.kind w.run
    (Traced.encoded m.1 left) (by rw [hfind]; rfl)
  rw [← hpayloads] at hq
  obtain ⟨entry, hentry, rfl⟩ := List.mem_map.mp hq
  obtain ⟨-, htagentry, hassoc, -⟩ := headers_of_pushRun hentry
  refine ⟨entry, ?_, haq, ⟨m.1, ?_, ?_⟩, hgood⟩
  · rw [encodeKey_unfinished hr]
    exact List.mem_flatMap.mpr ⟨w, hw, hu.symm ▸ hentry⟩
  · rw [htagentry, HandlerList.find_eq handlers marking, hm]
    rfl
  · rw [HandlerList.associativity_eq, hfind, Option.map_some, Option.some.injEq] at hassoc
    have ha : (m.1.traced m.2.marker m.2.sort).algebra.associativity = m.1.algebra.associativity := by
      rw [m.2.algebra_eq]
      exact Marker.associativity_traced _ _
    unfold Registered.decodeOne
    rw [if_neg (by rw [← hassoc, ha]; exact not_not.mpr rfl)]
    exact hdecodes

/-- **A record of a diverted key is written to the retry partition.** -/
theorem represented_of_diverted (hk : r.headers.key = key.key)
    (hacc : Accepted handlers r.headers r.payload.1) :
    ∃ entry ∈ encodeKey (handlers.traced marking) (Plan.new (planRecords batch)) key batch none,
      Represents handlers good a entry := by
  obtain ⟨w, hw, hi⟩ := (mem_work_iff hkey).mpr ⟨r, hget, hk⟩
  obtain ⟨m, hm, hdecode⟩ := hacc.exists_marked marking
  refine exists_represents hkey hget ha hrec hw hi (fun f hf => by cases hf) hm (List.suffix_refl _)
    (mem_reduce m.2 hi hget hdecode ha) ?_
  rw [tag_of_run hkey hw hi hget] at hm
  rw [unfinished, reduce, Traced.reduceRun_traced, hm]

/-- **A record of an executed key** is over, or the key failed and it is written to the retry
partition. -/
theorem served_or_represented {t : List (Call (Traced O))} {report : KeyReport (Traced P)}
    (h : executeKey (handlers.traced marking) (Plan.new (planRecords batch)) key batch t (some report))
    (hk : r.headers.key = key.key) (hacc : Accepted handlers r.headers r.payload.1) : Served t a ∨
      ∃ f, report.failure = some f ∧
        ∃ entry ∈ encodeKey (handlers.traced marking) (Plan.new (planRecords batch)) key batch (some f),
          Represents handlers good a entry := by
  obtain ⟨w, hw, hi⟩ := (mem_work_iff hkey).mpr ⟨r, hget, hk⟩
  obtain ⟨m, hm, hdecode⟩ := hacc.exists_marked marking
  have hreduce := mem_reduce m.2 hi hget hdecode ha
  obtain ⟨u, s, results, rfl, hs, hperm, -, hran, hresults, -⟩ := exists_results h
  have hmarked := tag_of_run hkey hw hi hget ▸ hm
  -- what a failed key has left of the run
  have hleft : ∀ f, report.failure = some f → ∀ left : List (Traced m.1.Target),
      left <:+ (m.2.marker.traced m.2.sort).reduce
        (Traced.decoded m.1 (runRecords (Plan.new (planRecords batch)) batch w.run)) →
      a ∈ left.flatMap Prod.snd → remaining (handlers.traced marking) (Plan.new (planRecords batch)) batch s w =
        Traced.encoded m.1 left → ∃ f, report.failure = some f ∧
          ∃ entry ∈ encodeKey (handlers.traced marking) (Plan.new (planRecords batch)) key batch (some f),
            Represents handlers good a entry := by
    intro f hf left hleft hal hrem
    refine ⟨f, hf, exists_represents hkey hget ha hrec hw hi
      (fun f' hf' => ⟨_, report, h, hf.trans hf'⟩) hm hleft hal ?_⟩
    rw [unfinished_eq _ batch hs hf hw, hrem]
  by_cases hstarted : w ∈ results.map Prod.fst
  · obtain ⟨⟨w, result⟩, hres, rfl⟩ := List.mem_map.mp hstarted
    have hhanded := handed_runOne (hresults _ hres)
    simp only [hmarked] at hhanded
    have hsub : ∀ c ∈ eventsOf u w, c ∈ u.map Prod.snd := fun c hc => by
      obtain ⟨x, hx, rfl⟩ := List.mem_map.mp hc
      exact List.mem_map_of_mem (List.mem_filter.mp hx).1
    cases result with
    | done =>
      obtain ⟨c, hc, hserved, hac⟩ := hhanded.done rfl a hreduce
      exact Or.inl ⟨c, hsub c hc, hserved, hac⟩
    | failed error remainder =>
      obtain ⟨-, left, hsuffix, rfl, hall, -⟩ := hhanded.failed _ _ rfl
      rcases hall a hreduce with ⟨c, hc, hserved, hac⟩ | hal
      · exact Or.inl ⟨c, hsub c hc, hserved, hac⟩
      · cases hf : report.failure with
        | none => cases (hran.all hf).2 _ hres
        | some f =>
          refine Or.inr (hf ▸ hleft f hf left hsuffix hal ?_)
          rw [remaining, resultOf_mem hran hperm hres]
  · cases hf : report.failure with
    | none =>
      rw [(hran.all hf).1] at hstarted
      exact absurd hw hstarted
    | some f =>
      refine Or.inr (hf ▸ hleft f hf _ (List.suffix_refl _) hreduce ?_)
      rw [remaining, resultOf_not_mem hperm hstarted, reduce, Traced.reduceRun_traced, hmarked]

end Represented

end Wakuwaku.Iggy.Consumer
