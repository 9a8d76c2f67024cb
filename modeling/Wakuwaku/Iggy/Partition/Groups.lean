import Wakuwaku.Grouped
import Wakuwaku.Iggy.Partition.Cuts
import Wakuwaku.Iggy.Partition.Order

/-! # The groups of a plan

What a plan shows of a batch, in its own terms: its keys, the records in its segments and runs, where
segments are cut, which runs are heads and tails, and that its ranges are in bounds (`Plan.Groups`).
`Plan.new` gives such a plan (`groups_new`), as it is the intended grouping (`segments_new`). -/

namespace Wakuwaku.Iggy.Partition

open Wakuwaku.Iggy.Events

variable {K : Type}

/-! ### What a plan is to show -/

namespace Plan

variable (plan : Plan K) (records : List (PlanRecord K)) (segment : Segment)

/-- The indices of a segment, run by run. -/
def indices : List ℕ := (plan.ranked segment).flatMap fun a => plan.records a.2

/-- The first record of a segment in the log. -/
def First (r : PlanRecord K) : Prop :=
  ∃ i ∈ plan.indices segment, (∀ j ∈ plan.indices segment, i ≤ j) ∧ records[i]? = some r

/-- The last record of a segment in the log. -/
def Last (r : PlanRecord K) : Prop :=
  ∃ i ∈ plan.indices segment, (∀ j ∈ plan.indices segment, j ≤ i) ∧ records[i]? = some r

/-- The run holds all records of its type in the segment. -/
def HoldsType (run : Run) : Prop := ∀ i, i ∈ plan.records run ↔
  i ∈ plan.indices segment ∧ ∃ r, records[i]? = some r ∧ r.tag = run.tag

/-- `y` starts a new segment after `x`, which is in `segment` and the record of its key before. -/
def Parts (x y : PlanRecord K) : Prop :=
  x.ordering = .release ∨ (y.ordering = .acquire ∨ y.ordering = .acqRel) ∨
    y.ordering = .release ∧
      (∃ f, plan.First records segment f ∧ (f.ordering = .acquire ∨ f.ordering = .acqRel) ∧ f.tag = y.tag) ∧
      ∃ i ∈ plan.indices segment, ∃ r, records[i]? = some r ∧ r.tag ≠ y.tag

/-- The ranges stored in a plan are ranges of what they point into. -/
structure InBounds : Prop where
  keys : ∀ kp ∈ plan.keys, kp.segments.start ≤ kp.segments.stop ∧ kp.segments.stop ≤ plan.segments.length
  heads : ∀ segment ∈ plan.segments, ∀ i ∈ segment.head, i < plan.runs.length
  bodies : ∀ segment ∈ plan.segments,
    segment.body.start ≤ segment.body.stop ∧ segment.body.stop ≤ plan.runs.length
  tails : ∀ segment ∈ plan.segments, ∀ i ∈ segment.tail, i < plan.runs.length
  runs : ∀ run ∈ plan.runs, run.records.start ≤ run.records.stop ∧ run.records.stop ≤ plan.order.length
  order : ∀ i ∈ plan.order, i < records.length

/-- **The intended grouping of a batch.** -/
structure Groups [DecidableEq K] : Prop where
  /-- Every key once, in order of first appearance. -/
  keys : (∀ k, k ∈ plan.keys.map KeyPlan.key ↔ k ∈ records.map PlanRecord.key) ∧
    (plan.keys.map KeyPlan.key).Nodup ∧ (plan.keys.map KeyPlan.key).Pairwise fun k k' =>
      (records.map PlanRecord.key).idxOf k < (records.map PlanRecord.key).idxOf k'
  /-- Every index once. -/
  once : (plan.keys.flatMap fun kp => (plan.segmentsOf kp).flatMap plan.indices).Perm
    (List.range records.length)
  /-- The records of a run have the key and the tag they are listed under, and keep the log order. -/
  runs : ∀ kp ∈ plan.keys, ∀ segment ∈ plan.segmentsOf kp, ∀ a ∈ plan.ranked segment,
    (plan.records a.2).Pairwise (· < ·) ∧
      ∀ i ∈ plan.records a.2, ∃ r, records[i]? = some r ∧ r.key = kp.key ∧ r.tag = a.2.tag
  /-- At most one run of each type. -/
  types : ∀ kp ∈ plan.keys, ∀ segment ∈ plan.segmentsOf kp,
    ((plan.ranked segment).map (·.2.tag)).Nodup
  /-- Of two records of a key with none of it between them, the segments differ iff the second
  starts a new one. -/
  cut : ∀ kp ∈ plan.keys, ∀ (i j : ℕ) x y, i < j → records[i]? = some x → records[j]? = some y →
    x.key = kp.key → y.key = kp.key →
      (∀ (l : ℕ) z, i < l → l < j → records[l]? = some z → z.key ≠ kp.key) →
        ∀ (n n' : ℕ) segment segment', (plan.segmentsOf kp)[n]? = some segment → i ∈ plan.indices segment →
          (plan.segmentsOf kp)[n']? = some segment' → j ∈ plan.indices segment' →
            (n ≠ n' ↔ plan.Parts records segment x y)
  /-- A segment has a head iff it starts with an `Acquire` or `AcqRel`, whose type it holds. -/
  head : ∀ kp ∈ plan.keys, ∀ segment ∈ plan.segmentsOf kp,
    ((∃ run, plan.head segment = some run) ↔
      ∃ r, plan.First records segment r ∧ (r.ordering = .acquire ∨ r.ordering = .acqRel)) ∧
    ∀ run, plan.head segment = some run →
      (∃ r, plan.First records segment r ∧ r.tag = run.tag) ∧ plan.HoldsType records segment run
  /-- A segment has a tail iff it ends with a `Release` of another type than the head's. -/
  tail : ∀ kp ∈ plan.keys, ∀ segment ∈ plan.segmentsOf kp,
    ((∃ run, plan.tail segment = some run) ↔
      ∃ r, plan.Last records segment r ∧ r.ordering = .release ∧
        ∀ run, plan.head segment = some run → run.tag ≠ r.tag) ∧
    ∀ run, plan.tail segment = some run →
      (∃ r, plan.Last records segment r ∧ r.tag = run.tag) ∧ plan.HoldsType records segment run
  bounds : plan.InBounds records

end Plan

namespace Groups

open Wakuwaku.Iggy.Partition.Segments Wakuwaku.Iggy.Partition.Grouping
open Wakuwaku.Iggy.Partition.Build Wakuwaku.Iggy.Partition.Order Wakuwaku.Iggy.Partition.Cuts

/-! ### Keys -/

/-- The walk lists the keys in order of first appearance. -/
theorem firstSeen_keys [DecidableEq K] (records : List (PlanRecord K)) :
    FirstSeen (records.map PlanRecord.key) ((assignSegments records).keys.map KeyPlan.key) := by
  induction records using List.reverseRecOn with
  | nil => exact .nil
  | append_singleton pre r ih =>
    have h := ok_assignSegments pre
    obtain ⟨κ, s₀, m₀, hs⟩ := stepped r h
    have hfold : assignSegments (pre ++ [r]) = (assignSegments pre).step r := by
      simp only [assignSegments, List.foldl_append, List.foldl_cons, List.foldl_nil]
    rw [hfold, List.map_append (f := PlanRecord.key), List.map_singleton]
    rcases hs.keys with ⟨⟨o, ho⟩, hkeys⟩ | ⟨hnone, -, hkeys⟩
    · have hold : r.key ∈ pre.map PlanRecord.key := (ih.mem_iff _).mp
        (List.mem_map.mpr ⟨_, List.mem_of_getElem? (h.index _ _ _ ho), rfl⟩)
      rw [hkeys]
      exact ih.old hold
    · have hnew : r.key ∉ pre.map PlanRecord.key := fun hmem => by
        obtain ⟨r', hr', he⟩ := List.mem_map.mp hmem
        exact (h.slots _).mp hnone r' hr' he
      rw [hkeys, List.map_append (f := KeyPlan.key), List.map_singleton]
      exact ih.new hnew

/-! ### The types of a segment -/

/-- The types of a segment, in the order of its runs. -/
def tagsOf (q : List (PlanRecord K)) : List EventTypeTag :=
  (headTag q).toList ++ bodyTags q ++ (tailTag q).toList

section Tags

variable {q : List (PlanRecord K)} {t : EventTypeTag}

theorem headTag_eq_some : headTag q = some t ↔
    ∃ r, q.head? = some r ∧ r.ordering.acquires = true ∧ r.tag = t := by
  simp only [headTag, Option.map_eq_some_iff, Option.filter_eq_some_iff, and_assoc]

theorem releaseTag_eq_some : releaseTag q = some t ↔
    ∃ r, q.getLast? = some r ∧ r.ordering = .release ∧ r.tag = t := by
  simp only [releaseTag, Option.map_eq_some_iff, Option.filter_eq_some_iff, beq_iff_eq, and_assoc]

theorem tailTag_eq_some : tailTag q = some t ↔
    (∃ r, q.getLast? = some r ∧ r.ordering = .release ∧ r.tag = t) ∧ headTag q ≠ some t := by
  simp only [tailTag, Option.filter_eq_some_iff, releaseTag_eq_some, bne_iff_ne]

theorem mem_bodyTags : t ∈ bodyTags q ↔
    (∃ r ∈ q, r.tag = t) ∧ headTag q ≠ some t ∧ tailTag q ≠ some t := by
  simp only [bodyTags, List.mem_insertionSort, List.mem_dedup, List.mem_filter, List.mem_map,
    decide_eq_true_eq]

theorem mem_tagsOf : t ∈ tagsOf q ↔ ∃ r ∈ q, r.tag = t := by
  simp only [tagsOf, List.mem_append, Option.mem_toList, mem_bodyTags]
  constructor
  · rintro ((h | h) | h)
    · obtain ⟨r, hr, -, ht⟩ := headTag_eq_some.mp h
      exact ⟨r, List.mem_of_head? hr, ht⟩
    · exact h.1
    · obtain ⟨⟨r, hr, -, ht⟩, -⟩ := tailTag_eq_some.mp h
      exact ⟨r, List.mem_of_getLast? hr, ht⟩
  · intro h
    by_cases hh : headTag q = some t
    · exact Or.inl (Or.inl hh)
    · by_cases ht : tailTag q = some t
      · exact Or.inr ht
      · exact Or.inl (Or.inr ⟨h, hh, ht⟩)

theorem nodup_tagsOf : (tagsOf q).Nodup := by
  have hbody : (bodyTags q).Nodup := (List.perm_insertionSort _ _).nodup_iff.mpr (List.nodup_dedup _)
  unfold tagsOf
  refine List.nodup_append.mpr ⟨List.nodup_append.mpr ⟨?_, hbody, ?_⟩, ?_, ?_⟩
  · cases headTag q <;> simp
  · rintro t ht u hu rfl
    exact (mem_bodyTags.mp hu).2.1 (Option.mem_toList.mp ht)
  · cases tailTag q <;> simp
  · rintro t ht u hu rfl
    have hu := Option.mem_toList.mp hu
    rcases List.mem_append.mp ht with ht | ht
    · exact (tailTag_eq_some.mp hu).2 (Option.mem_toList.mp ht)
    · exact (mem_bodyTags.mp ht).2.2 hu

end Tags

/-! ### The records of a segment -/

section Segment

variable {plan : Plan K} {segment : Segment} {p : List (PlanRecord K × ℕ)}
  (hv : plan.segmentView segment = grouped p)
include hv

theorem map_runView_ranked : (plan.ranked segment).map (fun a => plan.runView a.2) =
    (tagsOf (p.map Prod.fst)).map (runOfTag p) := by
  have h := congrArg (List.map Prod.snd) (map_ranked plan segment)
  rw [hv] at h
  simp only [grouped, List.map_map, List.map_append, Option.toList_map] at h
  simp only [tagsOf, List.map_append]
  exact h

/-- A run holds the records of its type. -/
theorem records_ranked {a : Rank × Run} (ha : a ∈ plan.ranked segment) :
    plan.records a.2 = (p.filter (·.1.tag = a.2.tag)).map Prod.snd ∧
      a.2.tag ∈ tagsOf (p.map Prod.fst) := by
  have h : plan.runView a.2 ∈ (tagsOf (p.map Prod.fst)).map (runOfTag p) :=
    map_runView_ranked hv ▸ List.mem_map_of_mem ha
  obtain ⟨t, ht, he⟩ := List.mem_map.mp h
  obtain ⟨rfl, hr⟩ := Prod.mk.inj he
  exact ⟨hr.symm, ht⟩

theorem exists_ranked {t : EventTypeTag} (ht : t ∈ tagsOf (p.map Prod.fst)) :
    ∃ a ∈ plan.ranked segment, a.2.tag = t := by
  have h : runOfTag p t ∈ (plan.ranked segment).map fun a => plan.runView a.2 :=
    (map_runView_ranked hv).symm ▸ List.mem_map_of_mem ht
  obtain ⟨a, ha, he⟩ := List.mem_map.mp h
  exact ⟨a, ha, (Prod.mk.inj he).1⟩

theorem nodup_ranked : ((plan.ranked segment).map (·.2.tag)).Nodup := by
  have h := congrArg (List.map Prod.fst) (map_runView_ranked hv)
  rw [List.map_map, List.map_map] at h
  have hid : (tagsOf (p.map Prod.fst)).map (Prod.fst ∘ runOfTag p) = tagsOf (p.map Prod.fst) :=
    List.map_id _
  rw [hid] at h
  exact h ▸ nodup_tagsOf

/-- The indices of a segment are those of its records. -/
theorem mem_indices {i : ℕ} : i ∈ plan.indices segment ↔ ∃ r, (r, i) ∈ p := by
  simp only [Plan.indices, List.mem_flatMap]
  constructor
  · rintro ⟨a, ha, hi⟩
    rw [(records_ranked hv ha).1] at hi
    obtain ⟨⟨r, i⟩, hmem, rfl⟩ := List.mem_map.mp hi
    exact ⟨r, (List.mem_filter.mp hmem).1⟩
  · rintro ⟨r, hmem⟩
    have ht : r.tag ∈ tagsOf (p.map Prod.fst) := mem_tagsOf.mpr ⟨r, List.mem_map_of_mem hmem, rfl⟩
    obtain ⟨a, ha, htag⟩ := exists_ranked hv ht
    refine ⟨a, ha, ?_⟩
    rw [(records_ranked hv ha).1]
    exact List.mem_map.mpr ⟨(r, i), List.mem_filter.mpr ⟨hmem, by simp [htag]⟩, rfl⟩

variable {records : List (PlanRecord K)} (hp : ∀ r i, (r, i) ∈ p → records[i]? = some r)
include hp

theorem holdsType {a : Rank × Run} (ha : a ∈ plan.ranked segment) :
    plan.HoldsType records segment a.2 := by
  intro i
  rw [(records_ranked hv ha).1, mem_indices hv]
  simp only [List.mem_map, List.mem_filter, decide_eq_true_eq]
  constructor
  · rintro ⟨⟨r, i⟩, ⟨hmem, htag⟩, rfl⟩
    exact ⟨⟨r, hmem⟩, r, hp r i hmem, htag⟩
  · rintro ⟨⟨r, hmem⟩, r', hr', htag⟩
    obtain rfl : r = r' := Option.some.inj ((hp r i hmem).symm.trans hr')
    exact ⟨(r, i), ⟨hmem, htag⟩, rfl⟩

variable (hsorted : p.Pairwise (·.2 < ·.2))
include hsorted

theorem first_iff {r : PlanRecord K} :
    plan.First records segment r ↔ (p.map Prod.fst).head? = some r := by
  unfold Plan.First
  simp only [mem_indices hv]
  cases p with
  | nil => simp
  | cons a p =>
    obtain ⟨hlt, -⟩ := List.pairwise_cons.mp hsorted
    rw [List.map_cons, List.head?_cons, Option.some.injEq]
    constructor
    · rintro ⟨i, ⟨r', hmem⟩, hle, hr⟩
      obtain rfl : r' = r := Option.some.inj ((hp r' i hmem).symm.trans hr)
      rcases List.mem_cons.mp hmem with rfl | hmem
      · rfl
      · exact absurd (hle a.2 ⟨a.1, List.mem_cons_self⟩) (Nat.not_le_of_lt (hlt _ hmem))
    · rintro rfl
      refine ⟨a.2, ⟨a.1, List.mem_cons_self⟩, ?_, hp _ _ List.mem_cons_self⟩
      rintro j ⟨r', hmem⟩
      rcases List.mem_cons.mp hmem with he | hmem
      · rw [← he]
      · exact (hlt _ hmem).le

theorem last_iff {r : PlanRecord K} :
    plan.Last records segment r ↔ (p.map Prod.fst).getLast? = some r := by
  unfold Plan.Last
  simp only [mem_indices hv]
  rcases List.eq_nil_or_concat p with rfl | ⟨p, a, rfl⟩
  · simp
  rw [List.concat_eq_append] at hp hsorted ⊢
  have hlt : ∀ b ∈ p, b.2 < a.2 := fun b hb =>
    (List.pairwise_append.mp hsorted).2.2 b hb a List.mem_cons_self
  have ha : a ∈ p ++ [a] := List.mem_append_right _ List.mem_cons_self
  rw [List.map_append, List.map_singleton, List.getLast?_concat, Option.some.injEq]
  constructor
  · rintro ⟨i, ⟨r', hmem⟩, hle, hr⟩
    obtain rfl : r' = r := Option.some.inj ((hp r' i hmem).symm.trans hr)
    rcases List.mem_append.mp hmem with hmem | hmem
    · exact absurd (hle a.2 ⟨a.1, ha⟩) (Nat.not_le_of_lt (hlt _ hmem))
    · rw [← List.mem_singleton.mp hmem]
  · rintro rfl
    refine ⟨a.2, ⟨a.1, ha⟩, ?_, hp _ _ ha⟩
    rintro j ⟨r', hmem⟩
    rcases List.mem_append.mp hmem with hmem | hmem
    · exact (hlt _ hmem).le
    · rw [← List.mem_singleton.mp hmem]

/-- Whether a record starts a new segment, in terms of the plan. -/
theorem parts_iff {x y : PlanRecord K} : plan.Parts records segment x y ↔
    x.ordering = .release ∨ y.ordering.acquires = true ∨ y.ordering = .release ∧
      (∃ f, (p.map Prod.fst).head? = some f ∧ f.ordering.acquires = true ∧ f.tag = y.tag) ∧
        ∃ r ∈ p.map Prod.fst, r.tag ≠ y.tag := by
  have hother : (∃ i ∈ plan.indices segment, ∃ r, records[i]? = some r ∧ r.tag ≠ y.tag) ↔
      ∃ r ∈ p.map Prod.fst, r.tag ≠ y.tag := by
    simp only [mem_indices hv]
    constructor
    · rintro ⟨i, ⟨r', hmem⟩, r, hr, hne⟩
      obtain rfl : r' = r := Option.some.inj ((hp r' i hmem).symm.trans hr)
      exact ⟨r', List.mem_map_of_mem hmem, hne⟩
    · rintro ⟨r, hmem, hne⟩
      obtain ⟨⟨r, i⟩, hp', rfl⟩ := List.mem_map.mp hmem
      exact ⟨i, ⟨r, hp'⟩, r, hp r i hp', hne⟩
  simp only [Plan.Parts, first_iff hv hp hsorted, hother, acquires_iff]

omit hp hsorted in
theorem head_tag : (plan.head segment).map (·.tag) = headTag (p.map Prod.fst) := by
  have h := congrArg (Option.map Prod.fst ∘ SegmentView.head) hv
  simp only [Plan.segmentView, grouped, Function.comp_apply, Option.map_map] at h
  have hid : (headTag (p.map Prod.fst)).map (Prod.fst ∘ runOfTag p) = headTag (p.map Prod.fst) := by
    cases headTag (p.map Prod.fst) <;> rfl
  rw [hid] at h
  exact h

omit hp hsorted in
theorem tail_tag : (plan.tail segment).map (·.tag) = tailTag (p.map Prod.fst) := by
  have h := congrArg (Option.map Prod.fst ∘ SegmentView.tail) hv
  simp only [Plan.segmentView, grouped, Function.comp_apply, Option.map_map] at h
  have hid : (tailTag (p.map Prod.fst)).map (Prod.fst ∘ runOfTag p) = tailTag (p.map Prod.fst) := by
    cases tailTag (p.map Prod.fst) <;> rfl
  rw [hid] at h
  exact h

theorem head_shape : ((∃ run, plan.head segment = some run) ↔
    ∃ r, plan.First records segment r ∧ (r.ordering = .acquire ∨ r.ordering = .acqRel)) ∧
      ∀ run, plan.head segment = some run →
        (∃ r, plan.First records segment r ∧ r.tag = run.tag) ∧ plan.HoldsType records segment run := by
  have htag := head_tag hv
  simp only [first_iff hv hp hsorted, ← acquires_iff]
  constructor
  · constructor
    · rintro ⟨run, hrun⟩
      rw [hrun, Option.map_some] at htag
      obtain ⟨r, hr, ha, -⟩ := headTag_eq_some.mp htag.symm
      exact ⟨r, hr, ha⟩
    · rintro ⟨r, hr, ha⟩
      rw [headTag_eq_some.mpr ⟨r, hr, ha, rfl⟩, Option.map_eq_some_iff] at htag
      exact htag.imp fun _ h => h.1
  · intro run hrun
    have hmem : (Rank.head, run) ∈ plan.ranked segment := by simp [Plan.ranked, hrun]
    rw [hrun, Option.map_some] at htag
    obtain ⟨r, hr, -, ht⟩ := headTag_eq_some.mp htag.symm
    exact ⟨⟨r, hr, ht⟩, holdsType hv hp hmem⟩

theorem tail_shape : ((∃ run, plan.tail segment = some run) ↔
    ∃ r, plan.Last records segment r ∧ r.ordering = .release ∧
      ∀ run, plan.head segment = some run → run.tag ≠ r.tag) ∧
      ∀ run, plan.tail segment = some run →
        (∃ r, plan.Last records segment r ∧ r.tag = run.tag) ∧ plan.HoldsType records segment run := by
  have htag := tail_tag hv
  have hhead : ∀ t, headTag (p.map Prod.fst) ≠ some t ↔
      ∀ run, plan.head segment = some run → run.tag ≠ t := by
    intro t
    rw [← head_tag hv, ne_eq, Option.map_eq_some_iff]
    push Not
    rfl
  simp only [last_iff hv hp hsorted]
  constructor
  · constructor
    · rintro ⟨run, hrun⟩
      rw [hrun, Option.map_some] at htag
      obtain ⟨⟨r, hr, ho, ht⟩, hne⟩ := tailTag_eq_some.mp htag.symm
      exact ⟨r, hr, ho, (hhead _).mp (ht ▸ hne)⟩
    · rintro ⟨r, hr, ho, hne⟩
      rw [tailTag_eq_some.mpr ⟨⟨r, hr, ho, rfl⟩, (hhead _).mpr hne⟩, Option.map_eq_some_iff] at htag
      exact htag.imp fun _ h => h.1
  · intro run hrun
    have hmem : (Rank.tail, run) ∈ plan.ranked segment := by simp [Plan.ranked, hrun]
    rw [hrun, Option.map_some] at htag
    obtain ⟨⟨r, hr, -, ht⟩, -⟩ := tailTag_eq_some.mp htag.symm
    exact ⟨⟨r, hr, ht⟩, holdsType hv hp hmem⟩

end Segment

/-! ### Where a key is cut -/

theorem startsNew_iff {q : List (PlanRecord K)} {y : PlanRecord K} : startsNew q y = true ↔
    (∃ x, q.getLast? = some x ∧ x.ordering = .release) ∨ y.ordering.acquires = true ∨
      y.ordering = .release ∧ (∃ f, q.head? = some f ∧ f.ordering.acquires = true ∧ f.tag = y.tag) ∧
        ∃ r ∈ q, r.tag ≠ y.tag := by
  simp only [startsNew, Bool.or_eq_true, Bool.and_eq_true, Option.any_eq_true, List.any_eq_true,
    beq_iff_eq, bne_iff_ne, or_assoc, and_assoc]

/-- Two neighbours in an increasing list. -/
theorem exists_neighbours {α : Type} {l : List (α × ℕ)} (hl : l.Pairwise (·.2 < ·.2)) {a b : α × ℕ}
    (ha : a ∈ l) (hb : b ∈ l) (hab : a.2 < b.2) (hno : ∀ c ∈ l, a.2 < c.2 → ¬ c.2 < b.2) :
    ∃ pre post, l = pre ++ a :: b :: post := by
  obtain ⟨pre, post, rfl⟩ := List.append_of_mem ha
  obtain ⟨-, hpost, hpre⟩ := List.pairwise_append.mp hl
  obtain ⟨hlt, hpost⟩ := List.pairwise_cons.mp hpost
  have hbpost : b ∈ post := by
    rcases List.mem_append.mp hb with hb | hb
    · exact absurd (hpre b hb a List.mem_cons_self) (Nat.lt_asymm hab)
    · rcases List.mem_cons.mp hb with rfl | hb
      · exact absurd hab (Nat.lt_irrefl _)
      · exact hb
  obtain ⟨c, post, rfl⟩ := List.exists_cons_of_ne_nil (List.ne_nil_of_mem hbpost)
  rcases List.mem_cons.mp hbpost with rfl | hb'
  · exact ⟨pre, post, rfl⟩
  · have hcb : c.2 < b.2 := (List.pairwise_cons.mp hpost).1 b hb'
    exact absurd hcb (hno c (by simp) (hlt c List.mem_cons_self))

/-- An element is in one part only. -/
theorem part_unique {α : Type} {parts : List (List α)} (hnd : parts.flatten.Nodup) {n n' : ℕ}
    {p p' : List α} {a : α} (hn : parts[n]? = some p) (ha : a ∈ p) (hn' : parts[n']? = some p')
    (ha' : a ∈ p') : n = n' := by
  have hdis := (List.nodup_flatten.mp hnd).2
  obtain ⟨hlt, rfl⟩ := List.getElem?_eq_some_iff.mp hn
  obtain ⟨hlt', rfl⟩ := List.getElem?_eq_some_iff.mp hn'
  rcases Nat.lt_trichotomy n n' with h | h | h
  · exact absurd ha' (List.pairwise_iff_getElem.mp hdis n n' hlt hlt' h ha)
  · exact h
  · exact absurd ha (List.pairwise_iff_getElem.mp hdis n' n hlt' hlt h ha')

section Key

variable [DecidableEq K] {records : List (PlanRecord K)} {k : K}

theorem mem_recordsOf {r : PlanRecord K} {i : ℕ} :
    (r, i) ∈ recordsOf records k ↔ records[i]? = some r ∧ r.key = k := by
  simp only [recordsOf, List.mem_filter, List.mem_zipIdx_iff_getElem?, decide_eq_true_eq]

theorem pairwise_recordsOf : (recordsOf records k).Pairwise (·.2 < ·.2) := pairwise_zipIdx.filter _

/-- The parts of two neighbours of a key. -/
theorem segmentsFor_neighbours {i j : ℕ} {x y : PlanRecord K} (hx : (x, i) ∈ recordsOf records k)
    (hy : (y, j) ∈ recordsOf records k) (hij : i < j)
    (hno : ∀ c ∈ recordsOf records k, i < c.2 → ¬ c.2 < j) {n n' : ℕ}
    {p p' : List (PlanRecord K × ℕ)} (hn : (segmentsFor records k)[n]? = some p) (hi : (x, i) ∈ p)
    (hn' : (segmentsFor records k)[n']? = some p') (hj : (y, j) ∈ p') :
    n ≠ n' ↔ x.ordering = .release ∨ y.ordering.acquires = true ∨ y.ordering = .release ∧
      (∃ f, (p.map Prod.fst).head? = some f ∧ f.ordering.acquires = true ∧ f.tag = y.tag) ∧
        ∃ r ∈ p.map Prod.fst, r.tag ≠ y.tag := by
  obtain ⟨pre, post, hl⟩ := exists_neighbours pairwise_recordsOf hx hy hij hno
  have hnd : (segmentsFor records k).flatten.Nodup := by
    rw [segmentsFor, flatten_cutInto]
    exact pairwise_recordsOf.imp fun hlt he => by rw [he] at hlt; exact Nat.lt_irrefl _ hlt
  obtain ⟨parts, q, hlast, hcase⟩ := cutInto_neighbours
    (fun q (r : PlanRecord K × ℕ) => startsNew (q.map Prod.fst) r.1) pre (x, i) (y, j) post
  rw [← hl] at hcase
  have hmem : (x, i) ∈ q := List.mem_of_getLast? hlast
  have hlast' : (q.map Prod.fst).getLast? = some x := by rw [List.getLast?_map, hlast, Option.map_some]
  rcases hcase with ⟨hcut, more, rest, hparts⟩ | ⟨hjoin, more, rest, hparts, hmore⟩
  · -- the second record starts a new segment
    have hq : (segmentsFor records k)[parts.length]? = some q := by rw [segmentsFor, hparts]; simp
    have hq' : (segmentsFor records k)[parts.length + 1]? = some ((y, j) :: more) := by
      rw [segmentsFor, hparts]; simp
    obtain rfl := part_unique hnd hn hi hq hmem
    obtain rfl := part_unique hnd hn' hj hq' List.mem_cons_self
    obtain rfl : p = q := Option.some.inj (hn.symm.trans hq)
    have hstart := startsNew_iff.mp hcut
    simp only [hlast', Option.some.injEq, exists_eq_left'] at hstart
    exact ⟨fun _ => hstart, fun _ => (Nat.succ_ne_self _).symm⟩
  · -- the second record joins the segment, and is its last if it is a `Release`
    have hq : (segmentsFor records k)[parts.length]? = some (q ++ (y, j) :: more) := by
      rw [segmentsFor, hparts]; simp
    obtain rfl := part_unique hnd hn hi hq (List.mem_append_left _ hmem)
    obtain rfl := part_unique hnd hn' hj hq (List.mem_append_right _ List.mem_cons_self)
    obtain rfl : p = q ++ (y, j) :: more := Option.some.inj (hn.symm.trans hq)
    refine iff_of_false (fun hne => hne rfl) fun hparts => ?_
    rw [← Bool.not_eq_true, startsNew_iff] at hjoin
    simp only [hlast', Option.some.injEq, exists_eq_left'] at hjoin
    obtain ⟨c, q', hq'⟩ := List.exists_cons_of_ne_nil (List.ne_nil_of_mem hmem)
    rcases hparts with hx | hy | ⟨hy, hf, r, hr, hne⟩
    · exact hjoin (Or.inl hx)
    · exact hjoin (Or.inr (Or.inl hy))
    · refine hjoin (Or.inr (Or.inr ⟨hy, ?_, ?_⟩))
      · simpa [hq'] using hf
      · have hnil : more = [] := by
          cases more with
          | nil => rfl
          | cons c more =>
            have hc := hmore c rfl
            rw [← Bool.not_eq_true, startsNew_iff] at hc
            exact absurd (Or.inl ⟨y, by simp, hy⟩) hc
        rw [hnil, List.map_append, List.map_singleton] at hr
        rcases List.mem_append.mp hr with hr | hr
        · exact ⟨r, hr, hne⟩
        · exact absurd (congrArg PlanRecord.tag (List.mem_singleton.mp hr)) hne

end Key

/-! ### Bounds -/

section Bounds

variable {records : List (PlanRecord K)} {w : Walk K}

theorem length_runKeys (s : ℕ) : (runKeys records w s).length =
    (headKey w s).toList.length + (bodyKeys records w s).length + (tailKey w s).toList.length := by
  simp only [runKeys, List.length_append]

variable (records w) in
theorem bounds_segmentValue (base s : ℕ) :
    (∀ i ∈ (segmentValue records w base s).head, i < base + (runKeys records w s).length) ∧
      ((segmentValue records w base s).body.start ≤ (segmentValue records w base s).body.stop ∧
        (segmentValue records w base s).body.stop ≤ base + (runKeys records w s).length) ∧
      ∀ i ∈ (segmentValue records w base s).tail, i < base + (runKeys records w s).length := by
  rw [length_runKeys]
  refine ⟨fun i hi => ?_, ⟨Nat.le_add_right _ _, ?_⟩, fun i hi => ?_⟩
  · obtain ⟨a, ha, rfl⟩ := Option.map_eq_some_iff.mp hi
    simp only [ha, Option.toList_some, List.length_singleton]
    omega
  · simp only [segmentValue]
    omega
  · obtain ⟨a, ha, rfl⟩ := Option.map_eq_some_iff.mp hi
    simp only [ha, Option.toList_some, List.length_singleton]
    omega

theorem bounds_segmentsFrom : ∀ (ss : List ℕ) (base : ℕ), ∀ segment ∈ segmentsFrom records w base ss,
    (∀ i ∈ segment.head, i < base + (ss.flatMap (runKeys records w)).length) ∧
      (segment.body.start ≤ segment.body.stop ∧
        segment.body.stop ≤ base + (ss.flatMap (runKeys records w)).length) ∧
      ∀ i ∈ segment.tail, i < base + (ss.flatMap (runKeys records w)).length
  | [], _, segment, hseg => absurd hseg List.not_mem_nil
  | s :: ss, base, segment, hseg => by
    rw [List.flatMap_cons, List.length_append]
    rcases List.mem_cons.mp hseg with rfl | hseg
    · obtain ⟨h1, ⟨h2, h3⟩, h4⟩ := bounds_segmentValue records w base s
      exact ⟨fun i hi => (h1 i hi).trans_le (by omega), ⟨h2, by omega⟩,
        fun i hi => (h4 i hi).trans_le (by omega)⟩
    · obtain ⟨h1, ⟨h2, h3⟩, h4⟩ := bounds_segmentsFrom ss _ segment hseg
      exact ⟨fun i hi => (h1 i hi).trans_le (by omega), ⟨h2, by omega⟩,
        fun i hi => (h4 i hi).trans_le (by omega)⟩

theorem keyStart_add_le {κ : ℕ} (hκ : κ < w.keys.length) :
    keyStart w κ + (segmentsAt w κ).length ≤ (allSegments w).length := by
  have hsplit : List.range w.keys.length = List.range κ ++ κ :: (List.range' (κ + 1) (w.keys.length - κ - 1)) := by
    have h := List.range'_append_1 (s := 0) (m := κ) (n := w.keys.length - κ)
    rw [List.range_eq_range', List.range_eq_range', ← Nat.add_sub_cancel' hκ.le, ← h, Nat.zero_add]
    congr 1
    rw [Nat.add_sub_cancel_left, ← List.range'_succ]
    congr 1
    omega
  rw [allSegments, hsplit, List.flatMap_append, List.flatMap_cons, List.length_append,
    List.length_append, keyStart]
  omega

end Bounds

theorem inBounds_new [DecidableEq K] (records : List (PlanRecord K)) :
    (Plan.new records).InBounds records := by
  have h := ok_assignSegments records
  have hb := built_new records
  have hruns : (Plan.new records).runs.length = (allRuns records (assignSegments records)).length := by
    rw [hb.runs, length_toRuns]
  have hseg := @bounds_segmentsFrom _ records (assignSegments records) (allSegments (assignSegments records)) 0
  rw [← hb.segments, Nat.zero_add] at hseg
  constructor
  · intro kp hkp
    obtain ⟨κ, hκ⟩ := List.getElem?_of_mem hkp
    have hlt : κ < (assignSegments records).keys.length := by
      rw [← List.length_map KeyPlan.key, ← (keys_built h hb).1, List.length_map]
      exact (List.getElem?_eq_some_iff.mp hκ).1
    have hrange := extendKeys_range h _ le_rfl κ hlt
    rw [if_pos hlt, ← allSegments, ← hb.keys, hκ] at hrange
    rw [Option.some.inj hrange, hb.segments, length_segmentsFrom]
    exact ⟨Nat.le_add_right _ _, keyStart_add_le hlt⟩
  · intro segment hs i hi
    rw [hruns]
    exact (hseg segment hs).1 i hi
  · intro segment hs
    rw [hruns]
    exact (hseg segment hs).2.1
  · intro segment hs i hi
    rw [hruns]
    exact (hseg segment hs).2.2 i hi
  · intro run hrun
    rw [hb.runs] at hrun
    have hbound := bounds_toRuns _ _ run hrun
    rw [Nat.zero_add] at hbound
    rw [hb.order]
    exact hbound
  · intro i hi
    rw [hb.order] at hi
    obtain ⟨a, -, hi⟩ := List.mem_flatMap.mp hi
    exact (mem_members.mp hi).1

/-! ### The result -/

/-- A segment of the plan, and the segment of its key that it shows. -/
theorem exists_part [DecidableEq K] {records : List (PlanRecord K)} {kp : KeyPlan K}
    (hkp : kp ∈ (Plan.new records).keys) {n : ℕ} {segment : Segment}
    (hn : ((Plan.new records).segmentsOf kp)[n]? = some segment) :
    ∃ p, (segmentsFor records kp.key)[n]? = some p ∧
      (Plan.new records).segmentView segment = grouped p ∧
        (∀ r i, (r, i) ∈ p → records[i]? = some r ∧ r.key = kp.key) ∧ p.Pairwise (·.2 < ·.2) := by
  have h := congrArg (·[n]?) (segments_new records hkp)
  simp only [List.getElem?_map, hn, Option.map_some] at h
  obtain ⟨p, hp, hv⟩ := Option.map_eq_some_iff.mp h.symm
  have hsub := sublist_of_mem_cutInto (List.mem_of_getElem? hp)
  exact ⟨p, hp, hv.symm, fun r i hmem => mem_recordsOf.mp (hsub.subset hmem),
    pairwise_recordsOf.sublist hsub⟩

/-- A plan lists the keys of its records. -/
theorem mem_keys_new [DecidableEq K] (records : List (PlanRecord K)) (k : K) :
    k ∈ (Plan.new records).keys.map KeyPlan.key ↔ k ∈ records.map PlanRecord.key := by
  rw [(keys_built (ok_assignSegments records) (built_new records)).1]
  exact (firstSeen_keys records).mem_iff k

/-- The records of a run have the key and the tag they are listed under, and keep the log order. -/
theorem runs_new [DecidableEq K] (records : List (PlanRecord K)) : ∀ kp ∈ (Plan.new records).keys,
    ∀ segment ∈ (Plan.new records).segmentsOf kp, ∀ a ∈ (Plan.new records).ranked segment,
      ((Plan.new records).records a.2).Pairwise (· < ·) ∧ ∀ i ∈ (Plan.new records).records a.2,
        ∃ r, records[i]? = some r ∧ r.key = kp.key ∧ r.tag = a.2.tag := by
  intro kp hkp segment hs a ha
  obtain ⟨n, hn⟩ := List.getElem?_of_mem hs
  obtain ⟨p, -, hv, hp, hsorted⟩ := exists_part hkp hn
  rw [(records_ranked hv ha).1]
  refine ⟨List.pairwise_map.mpr (hsorted.filter _), fun i hi => ?_⟩
  obtain ⟨⟨r, i⟩, hmem, rfl⟩ := List.mem_map.mp hi
  obtain ⟨hmem, htag⟩ := List.mem_filter.mp hmem
  exact ⟨r, (hp r i hmem).1, (hp r i hmem).2, by simpa using htag⟩

/-- **A plan is exactly the intended grouping.** -/
theorem groups_new [DecidableEq K] (records : List (PlanRecord K)) :
    (Plan.new records).Groups records := by
  have h := ok_assignSegments records
  have hb := built_new records
  have hpart : ∀ kp ∈ (Plan.new records).keys, ∀ segment ∈ (Plan.new records).segmentsOf kp,
      ∃ p, (Plan.new records).segmentView segment = grouped p ∧
        (∀ r i, (r, i) ∈ p → records[i]? = some r ∧ r.key = kp.key) ∧ p.Pairwise (·.2 < ·.2) := by
    intro kp hkp segment hs
    obtain ⟨n, hn⟩ := List.getElem?_of_mem hs
    obtain ⟨p, -, hp⟩ := exists_part hkp hn
    exact ⟨p, hp⟩
  constructor
  · refine ⟨mem_keys_new records, keys_nodup records, ?_⟩
    rw [(keys_built h hb).1]
    exact (firstSeen_keys records).ordered
  · exact (flatMap_keys h hb) ▸ (order_swaps records).1
  · exact runs_new records
  · intro kp hkp segment hs
    obtain ⟨p, hv, -, -⟩ := hpart kp hkp segment hs
    exact nodup_ranked hv
  · intro kp hkp i j x y hij hx hy hkx hky hno n n' segment segment' hn hi hn' hj
    obtain ⟨p, hp, hv, hrec, hsorted⟩ := exists_part hkp hn
    obtain ⟨p', hp', hv', hrec', -⟩ := exists_part hkp hn'
    have hmem : (x, i) ∈ p := by
      obtain ⟨r, hr⟩ := (mem_indices hv).mp hi
      rwa [Option.some.inj (hx.symm.trans (hrec r i hr).1)]
    have hmem' : (y, j) ∈ p' := by
      obtain ⟨r, hr⟩ := (mem_indices hv').mp hj
      rwa [Option.some.inj (hy.symm.trans (hrec' r j hr).1)]
    rw [parts_iff hv (fun r i hr => (hrec r i hr).1) hsorted]
    refine segmentsFor_neighbours (mem_recordsOf.mpr ⟨hx, hkx⟩) (mem_recordsOf.mpr ⟨hy, hky⟩) hij ?_
      hp hmem hp' hmem'
    intro c hc hic hcj
    obtain ⟨hc, hkc⟩ := mem_recordsOf.mp hc
    exact hno c.2 c.1 hic hcj hc hkc
  · intro kp hkp segment hs
    obtain ⟨p, hv, hp, hsorted⟩ := hpart kp hkp segment hs
    exact head_shape hv (fun r i hr => (hp r i hr).1) hsorted
  · intro kp hkp segment hs
    obtain ⟨p, hv, hp, hsorted⟩ := hpart kp hkp segment hs
    exact tail_shape hv (fun r i hr => (hp r i hr).1) hsorted
  · exact inBounds_new records

end Groups

end Wakuwaku.Iggy.Partition
