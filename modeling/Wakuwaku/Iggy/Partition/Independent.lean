import Wakuwaku.Iggy.Partition.Groups

/-! # Keys are planned independently

The segments of a key are cut from its own records (`segmentsFor`), so planning these records alone
gives the same segments, whose indices count the records of the key instead of those of the batch
(`segments_alone`). -/

namespace Wakuwaku.Iggy.Partition

open Wakuwaku.Iggy.Events

variable {K : Type}

/-- A segment with other indices. -/
def SegmentView.renumber (f : ℕ → ℕ) (v : SegmentView) : SegmentView where
  head := v.head.map (Prod.map id (List.map f))
  body := v.body.map (Prod.map id (List.map f))
  tail := v.tail.map (Prod.map id (List.map f))

/-- The records of a segment, run by run. -/
def SegmentView.records (records : List (PlanRecord K)) (v : SegmentView) :
    Option (EventTypeTag × List (PlanRecord K)) × List (EventTypeTag × List (PlanRecord K)) ×
      Option (EventTypeTag × List (PlanRecord K)) :=
  (v.head.map (Prod.map id (List.filterMap (records[·]?))),
    v.body.map (Prod.map id (List.filterMap (records[·]?))),
    v.tail.map (Prod.map id (List.filterMap (records[·]?))))

namespace Independent

open Wakuwaku.Iggy.Partition.Order Wakuwaku.Iggy.Partition.Cuts Wakuwaku.Iggy.Partition.Groups

/-! ### Renumbering -/

variable (f : ℕ → ℕ)

/-- New indices for the records of a segment. -/
def renumbered (p : List (PlanRecord K × ℕ)) : List (PlanRecord K × ℕ) := p.map (Prod.map id f)

@[simp] theorem map_fst_renumbered (p : List (PlanRecord K × ℕ)) :
    (renumbered f p).map Prod.fst = p.map Prod.fst := by
  rw [renumbered, List.map_map]
  rfl

theorem runOfTag_renumbered (p : List (PlanRecord K × ℕ)) (t : EventTypeTag) :
    runOfTag (renumbered f p) t = Prod.map id (List.map f) (runOfTag p t) := by
  rw [runOfTag, renumbered, List.filter_map, List.map_map]
  refine congrArg (Prod.mk t) ?_
  show _ = List.map f (List.map Prod.snd _)
  rw [List.map_map]
  rfl

theorem grouped_renumbered (p : List (PlanRecord K × ℕ)) :
    grouped (renumbered f p) = (grouped p).renumber f := by
  have hrun : runOfTag (renumbered f p) = Prod.map id (List.map f) ∘ runOfTag p :=
    funext (runOfTag_renumbered f p)
  simp only [grouped, SegmentView.renumber, map_fst_renumbered, hrun, Option.map_map, List.map_map]

theorem cutInto_renumbered (l : List (PlanRecord K × ℕ)) :
    cutInto (fun p (r : PlanRecord K × ℕ) => startsNew (p.map Prod.fst) r.1) (renumbered f l) =
      (cutInto (fun p (r : PlanRecord K × ℕ) => startsNew (p.map Prod.fst) r.1) l).map (renumbered f) := by
  have h := cutInto_map (Prod.map id f)
    (fun p (r : PlanRecord K × ℕ) => startsNew (p.map Prod.fst) r.1) l
  simp only [List.map_map] at h
  exact h

variable {f} in
theorem records_renumber {sub records : List (PlanRecord K)} {v : SegmentView}
    (hf : ∀ i, i < sub.length → records[f i]? = sub[i]?)
    (hv : ∀ a ∈ v.head.toList ++ v.body ++ v.tail.toList, ∀ i ∈ a.2, i < sub.length) :
    (v.renumber f).records records = v.records sub := by
  have hrun : ∀ a : EventTypeTag × List ℕ, (∀ i ∈ a.2, i < sub.length) →
      Prod.map id (List.filterMap (records[·]?)) (Prod.map id (List.map f) a) =
        Prod.map id (List.filterMap (sub[·]?)) a := by
    intro a ha
    simp only [Prod.map, List.filterMap_map, id_eq]
    refine congrArg (Prod.mk a.1) (List.filterMap_congr fun i hi => hf i (ha i hi))
  simp only [List.mem_append, Option.mem_toList] at hv
  simp only [SegmentView.renumber, SegmentView.records, Option.map_map, List.map_map]
  refine congrArg₂ Prod.mk ?_ (congrArg₂ Prod.mk ?_ ?_)
  · exact Option.map_congr fun a ha => hrun a (hv a (Or.inl (Or.inl ha)))
  · exact List.map_congr_left fun a ha => hrun a (hv a (Or.inl (Or.inr ha)))
  · exact Option.map_congr fun a ha => hrun a (hv a (Or.inr ha))

/-! ### The records of one key -/

section Key

variable [DecidableEq K] {records : List (PlanRecord K)} {k : K}

/-- The index in the batch of each record of a key. -/
def indexIn (records : List (PlanRecord K)) (k : K) (i : ℕ) : ℕ :=
  ((recordsOf records k).map Prod.snd).getD i 0

theorem indexIn_eq {i : ℕ} (hi : i < (recordsOf records k).length) :
    indexIn records k i = (recordsOf records k)[i].2 := by
  simp [indexIn, List.getD_eq_getElem?_getD, hi]

theorem map_fst_recordsOf : (recordsOf records k).map Prod.fst = records.filter (·.key = k) := by
  have h := List.filter_map (f := Prod.fst) (p := fun r : PlanRecord K => decide (r.key = k))
    (l := records.zipIdx)
  rw [List.zipIdx_map_fst] at h
  exact h.symm

theorem recordsOf_alone : recordsOf (records.filter (·.key = k)) k = (records.filter (·.key = k)).zipIdx := by
  refine List.filter_eq_self.mpr fun p hp => ?_
  have hmem := List.mem_of_getElem? (List.mem_zipIdx_iff_getElem?.mp hp)
  exact (List.mem_filter.mp hmem).2

/-- The records of a key, from its records alone. -/
theorem recordsOf_eq : recordsOf records k =
    renumbered (indexIn records k) (recordsOf (records.filter (·.key = k)) k) := by
  rw [recordsOf_alone]
  refine List.ext_getElem ?_ fun i hi hi' => ?_
  · rw [renumbered, List.length_map, List.length_zipIdx, ← map_fst_recordsOf, List.length_map]
  · have hlt : i < (records.filter (·.key = k)).length := by
      rw [← map_fst_recordsOf, List.length_map]
      exact hi
    have hfst : (records.filter (·.key = k))[i] = (recordsOf records k)[i].1 := by
      simp only [← map_fst_recordsOf, List.getElem_map]
    simp only [renumbered, List.getElem_map, List.getElem_zipIdx, Prod.map, id_eq, hfst,
      Nat.zero_add, indexIn_eq hi]

theorem indexIn_spec {i : ℕ} (hi : i < (records.filter (·.key = k)).length) :
    records[indexIn records k i]? = (records.filter (·.key = k))[i]? := by
  have hi' : i < (recordsOf records k).length := by
    rw [← map_fst_recordsOf, List.length_map] at hi
    exact hi
  have hmem : ((recordsOf records k)[i].1, (recordsOf records k)[i].2) ∈ recordsOf records k :=
    List.getElem_mem hi'
  rw [indexIn_eq hi', (mem_recordsOf.mp hmem).1, ← map_fst_recordsOf, List.getElem?_map,
    List.getElem?_eq_getElem hi', Option.map_some]

theorem indexIn_lt {i j : ℕ} (hij : i < j) (hj : j < (records.filter (·.key = k)).length) :
    indexIn records k i < indexIn records k j := by
  have hj' : j < (recordsOf records k).length := by
    rw [← map_fst_recordsOf, List.length_map] at hj
    exact hj
  rw [indexIn_eq (hij.trans hj'), indexIn_eq hj']
  exact List.pairwise_iff_getElem.mp pairwise_recordsOf i j _ _ hij

end Key

/-! ### The result -/

section Result

variable [DecidableEq K] {records : List (PlanRecord K)} {k : K}

theorem segmentsFor_eq : segmentsFor records k =
    (segmentsFor (records.filter (·.key = k)) k).map (renumbered (indexIn records k)) := by
  rw [segmentsFor, recordsOf_eq, cutInto_renumbered, segmentsFor]

/-- The plan of the records of one key has that key only. -/
theorem keys_alone (hk : k ∈ records.map PlanRecord.key) :
    ∃ kp, (Plan.new (records.filter (·.key = k))).keys = [kp] ∧ kp.key = k := by
  have hiff : ∀ k', k' ∈ (Plan.new (records.filter (·.key = k))).keys.map KeyPlan.key ↔ k' = k := by
    intro k'
    rw [mem_keys_new, List.mem_map]
    constructor
    · rintro ⟨r, hr, rfl⟩
      simpa using (List.mem_filter.mp hr).2
    · rintro rfl
      obtain ⟨r, hr, rfl⟩ := List.mem_map.mp hk
      exact ⟨r, List.mem_filter.mpr ⟨hr, by simp⟩, rfl⟩
  have hperm := (List.perm_ext_iff_of_nodup (keys_nodup _) (List.nodup_singleton k)).mpr
    (fun k' => (hiff k').trans List.mem_singleton.symm)
  obtain ⟨kp, hkp, hkey⟩ := List.map_eq_singleton_iff.mp (List.perm_singleton.mp hperm)
  exact ⟨kp, hkp, hkey⟩

/-- The indices a plan shows are those of the records. -/
theorem lt_of_mem_view {kp : KeyPlan K} (hkp : kp ∈ (Plan.new records).keys) :
    ∀ v ∈ ((Plan.new records).segmentsOf kp).map (Plan.new records).segmentView,
      ∀ a ∈ v.head.toList ++ v.body ++ v.tail.toList, ∀ i ∈ a.2, i < records.length := by
  intro v hv a ha i hi
  obtain ⟨segment, hs, rfl⟩ := List.mem_map.mp hv
  have hruns := runs_new records kp hkp segment hs
  have hmap := congrArg (List.map Prod.snd) (map_ranked (Plan.new records) segment)
  simp only [List.map_append, List.map_map] at hmap
  have hid : ∀ (rank : Rank) (l : List (EventTypeTag × List ℕ)), l.map (Prod.snd ∘ (rank, ·)) = l :=
    fun rank l => List.map_id l
  rw [hid, hid, hid] at hmap
  rw [← hmap] at ha
  obtain ⟨b, hb, rfl⟩ := List.mem_map.mp ha
  obtain ⟨r, hr, -⟩ := (hruns b hb).2 i hi
  exact (List.getElem?_eq_some_iff.mp hr).1

/-- The segments of a key, from its records alone. -/
theorem views_alone {kp : KeyPlan K} (hkp : kp ∈ (Plan.new records).keys) :
    ((Plan.new records).segmentsOf kp).map (Plan.new records).segmentView =
      (segmentsFor (records.filter (·.key = kp.key)) kp.key).map fun p =>
        (grouped p).renumber (indexIn records kp.key) := by
  rw [segments_new records hkp, segmentsFor_eq, List.map_map]
  exact List.map_congr_left fun p _ => grouped_renumbered _ p

/-- A key of a plan, and the plan of its records. -/
theorem exists_alone {kp : KeyPlan K} (hkp : kp ∈ (Plan.new records).keys) :
    ∃ kp', (Plan.new (records.filter (·.key = kp.key))).keys = [kp'] ∧ kp'.key = kp.key ∧
      ((Plan.new (records.filter (·.key = kp.key))).segmentsOf kp').map
          (Plan.new (records.filter (·.key = kp.key))).segmentView =
        (segmentsFor (records.filter (·.key = kp.key)) kp.key).map grouped := by
  have hk := (mem_keys_new records kp.key).mp (List.mem_map_of_mem hkp)
  obtain ⟨kp', hkeys, hkey⟩ := keys_alone hk
  refine ⟨kp', hkeys, hkey, ?_⟩
  rw [segments_new _ (hkeys ▸ List.mem_singleton_self kp'), hkey]

/-- The runs of a key, record by record, from its records alone. -/
theorem records_alone {kp : KeyPlan K} (hkp : kp ∈ (Plan.new records).keys) :
    (((Plan.new records).segmentsOf kp).map fun segment =>
        ((Plan.new records).segmentView segment).records records) =
      (segmentsFor (records.filter (·.key = kp.key)) kp.key).map fun p =>
        (grouped p).records (records.filter (·.key = kp.key)) := by
  obtain ⟨kp', hkeys, -, hviews⟩ := exists_alone hkp
  have hlt := lt_of_mem_view (hkeys ▸ List.mem_singleton_self kp' :
    kp' ∈ (Plan.new (records.filter (·.key = kp.key))).keys)
  rw [hviews] at hlt
  have hmap := congrArg (List.map fun v => v.records records) (views_alone hkp)
  rw [List.map_map, List.map_map] at hmap
  refine hmap.trans (List.map_congr_left fun p hp => ?_)
  exact records_renumber (fun i hi => indexIn_spec hi) (hlt _ (List.mem_map_of_mem hp))

end Result

/-- **Keys do not influence each other's plan.** The segments of a key are those that its records
alone give, renumbered; so two batches with the same records of a key, whatever else is between
them, give it the same runs of records in the same segments. -/
theorem segments_alone [DecidableEq K] (records : List (PlanRecord K)) (kp : KeyPlan K)
    (hkp : kp ∈ (Plan.new records).keys) :
    (∃ kp', (Plan.new (records.filter (·.key = kp.key))).keys = [kp'] ∧ kp'.key = kp.key ∧
      ∃ f : ℕ → ℕ,
        (∀ i j, i < j → j < (records.filter (·.key = kp.key)).length → f i < f j) ∧
        (∀ i, i < (records.filter (·.key = kp.key)).length →
          records[f i]? = (records.filter (·.key = kp.key))[i]?) ∧
        ((Plan.new records).segmentsOf kp).map (Plan.new records).segmentView =
          ((Plan.new (records.filter (·.key = kp.key))).segmentsOf kp').map fun segment =>
            ((Plan.new (records.filter (·.key = kp.key))).segmentView segment).renumber f) ∧
    ∀ (other : List (PlanRecord K)) (kp' : KeyPlan K), kp' ∈ (Plan.new other).keys →
      kp'.key = kp.key → other.filter (·.key = kp.key) = records.filter (·.key = kp.key) →
        ((Plan.new other).segmentsOf kp').map (fun segment =>
            ((Plan.new other).segmentView segment).records other) =
          ((Plan.new records).segmentsOf kp).map fun segment =>
            ((Plan.new records).segmentView segment).records records := by
  constructor
  · obtain ⟨kp', hkeys, hkey, hviews⟩ := exists_alone hkp
    refine ⟨kp', hkeys, hkey, indexIn records kp.key, fun i j => indexIn_lt, fun i => indexIn_spec, ?_⟩
    have hmap := congrArg (List.map (SegmentView.renumber (indexIn records kp.key))) hviews
    rw [List.map_map, List.map_map] at hmap
    exact (views_alone hkp).trans hmap.symm
  · intro other kp' hkp' hkey hother
    have hrecords := records_alone hkp'
    rw [hkey, hother] at hrecords
    rw [hrecords, records_alone hkp]

/-- Two keys, the first of them cut in two. -/
def mixedLog : List (PlanRecord ℕ) :=
  [⟨0, ⟨1⟩, .relaxed⟩, ⟨7, ⟨2⟩, .release⟩, ⟨0, ⟨1⟩, .acquire⟩, ⟨7, ⟨1⟩, .relaxed⟩]

/-- The records of the second key alone are planned the same. -/
theorem segments_alone_mixed : ∃ kp ∈ (Plan.new mixedLog).keys, kp.key = 7 ∧
    ∃ f : ℕ → ℕ, ∃ kp', (Plan.new [⟨7, ⟨2⟩, .release⟩, ⟨7, ⟨1⟩, .relaxed⟩]).keys = [kp'] ∧
      ((Plan.new mixedLog).segmentsOf kp).map (Plan.new mixedLog).segmentView =
        ((Plan.new [⟨7, ⟨2⟩, .release⟩, ⟨7, ⟨1⟩, .relaxed⟩]).segmentsOf kp').map fun segment =>
          ((Plan.new [⟨7, ⟨2⟩, .release⟩, ⟨7, ⟨1⟩, .relaxed⟩]).segmentView segment).renumber f := by
  have hmem : 7 ∈ (Plan.new mixedLog).keys.map KeyPlan.key :=
    (mem_keys_new mixedLog 7).mpr (by simp [mixedLog])
  obtain ⟨kp, hkp, hkey⟩ := List.mem_map.mp hmem
  obtain ⟨⟨kp', hkeys, -, f, -, -, hsegments⟩, -⟩ := segments_alone mixedLog kp hkp
  have hsub : mixedLog.filter (·.key = kp.key) = [⟨7, ⟨2⟩, .release⟩, ⟨7, ⟨1⟩, .relaxed⟩] := by
    rw [hkey]
    rfl
  rw [hsub] at hkeys hsegments
  exact ⟨kp, hkp, hkey, f, kp', hkeys, hsegments⟩

end Independent

end Wakuwaku.Iggy.Partition
