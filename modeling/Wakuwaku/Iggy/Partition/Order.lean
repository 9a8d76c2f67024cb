import Wakuwaku.Iggy.Partition.Build
import Mathlib.Data.List.Flatten

/-! # The order a plan enforces

A record has a `Place` in the segments of its key, and one place precedes another if every
execution the plan allows processes it first. The planner keeps the log order of two records of one
key that share a type or of which one is a fence (`plan_order`). -/

namespace Wakuwaku.Iggy.Partition

open Wakuwaku.Iggy.Events

/-- The runs of a segment with their ranks, in plan order. -/
def Plan.ranked {K : Type} (plan : Plan K) (segment : Segment) : List (Rank × Run) :=
  (plan.head segment).toList.map (Rank.head, ·) ++ (plan.body segment).map (Rank.body, ·) ++
    (plan.tail segment).toList.map (Rank.tail, ·)

/-- Where a record ends up: its segment among those of its key, its run among those of the segment,
with the rank of the run, and its position in the run. -/
structure Place where
  segment : ℕ
  rank : Rank
  run : ℕ
  position : ℕ
  deriving DecidableEq, Repr

/-- The plan places record `i` at `p` among the segments of `key`. -/
def Plan.Placed {K : Type} (plan : Plan K) (key : KeyPlan K) (i : ℕ) (p : Place) : Prop :=
  ∃ segment, (plan.segmentsOf key)[p.segment]? = some segment ∧
    ∃ run, (plan.ranked segment)[p.run]? = some (p.rank, run) ∧
      (plan.records run)[p.position]? = some i

/-- `x` is processed before `y` in every execution the plan allows. -/
def Place.Precedes (x y : Place) : Prop :=
  x.segment < y.segment ∨ x.segment = y.segment ∧
    (x.run = y.run ∧ x.position < y.position ∨ x.rank.toNat < y.rank.toNat)

instance (x y : Place) : Decidable (x.Precedes y) := by unfold Place.Precedes; infer_instance

namespace Order

open Wakuwaku.Iggy.Partition.Segments Wakuwaku.Iggy.Partition.Grouping
open Wakuwaku.Iggy.Partition.Build

variable {K : Type}

/-! ### Positions in sorted lists -/

section Sorted

variable {α : Type} {r : α → α → Prop} {l : List α} {p q : ℕ} {a b : α}

theorem index_lt (hl : l.Pairwise r) (hr : ∀ a b, r a b → ¬ r b a) (ha : l[p]? = some a)
    (hb : l[q]? = some b) (hab : r a b) : p < q := by
  obtain ⟨hp, rfl⟩ := List.getElem?_eq_some_iff.mp ha
  obtain ⟨hq, rfl⟩ := List.getElem?_eq_some_iff.mp hb
  rcases Nat.lt_trichotomy p q with h | rfl | h
  · exact h
  · exact absurd hab (hr _ _ hab)
  · exact absurd hab (hr _ _ (List.pairwise_iff_getElem.mp hl q p hq hp h))

theorem index_eq (hl : l.Nodup) (ha : l[p]? = some a) (hb : l[q]? = some a) : p = q := by
  obtain ⟨hp, rfl⟩ := List.getElem?_eq_some_iff.mp ha
  obtain ⟨hq, he⟩ := List.getElem?_eq_some_iff.mp hb
  exact (hl.getElem_inj_iff.mp he).symm

end Sorted

/-! ### Places of a built plan -/

section Built

variable {records : List (PlanRecord K)} {w : Walk K} {plan : Plan K}

variable (plan) in
theorem map_ranked (segment : Segment) :
    (plan.ranked segment).map (fun a => (a.1, plan.runView a.2)) =
      (plan.segmentView segment).head.toList.map (Rank.head, ·) ++
        (plan.segmentView segment).body.map (Rank.body, ·) ++
          (plan.segmentView segment).tail.toList.map (Rank.tail, ·) := by
  simp only [Plan.ranked, Plan.segmentView, List.map_append, List.map_map, Option.toList_map]
  rfl

theorem ranked_viewOf (s : ℕ) : (viewOf records w s).head.toList.map (Rank.head, ·) ++
    (viewOf records w s).body.map (Rank.body, ·) ++
      (viewOf records w s).tail.toList.map (Rank.tail, ·) =
        (runKeys records w s).map fun a => (a.rank, runOf records w a) := by
  simp only [viewOf, runKeys, List.map_append, Option.toList_map, List.map_map]
  refine congrArg₂ _ (congrArg₂ _ ?_ ?_) ?_
  · refine List.map_congr_left fun a ha => ?_
    obtain ⟨m, t, -, -, rfl⟩ := mem_headKey.mp (Option.mem_toList.mp ha)
    rfl
  · refine List.map_congr_left fun a ha => ?_
    simp only [Function.comp_apply, (mem_bodyKeys.mp ha).2.2]
  · refine List.map_congr_left fun a ha => ?_
    obtain ⟨m, t, -, -, -, rfl⟩ := mem_tailKey.mp (Option.mem_toList.mp ha)
    rfl

variable (h : Ok records w) (hb : Built plan records w)
include h hb

/-- The place of a record follows its run key. -/
theorem placed_iff {κ : ℕ} {kp : KeyPlan K} (hkp : plan.keys[κ]? = some kp) {i : ℕ} {p : Place} :
    plan.Placed kp i p ↔ ∃ s a, (segmentsAt w κ)[p.segment]? = some s ∧
      (runKeys records w s)[p.run]? = some a ∧ a.rank = p.rank ∧
        (members records w a)[p.position]? = some i := by
  have hview := (keys_built h hb).2 κ kp hkp
  have hrank : ∀ {segment : Segment} {s : ℕ}, plan.segmentView segment = viewOf records w s →
      (plan.ranked segment).map (fun a => (a.1, plan.runView a.2)) =
        (runKeys records w s).map fun a => (a.rank, runOf records w a) := by
    intro segment s hs
    rw [map_ranked, hs, ranked_viewOf]
  constructor
  · rintro ⟨segment, hseg, run, hrun, hi⟩
    have h1 : ((plan.segmentsOf kp).map plan.segmentView)[p.segment]? =
        some (plan.segmentView segment) := by simp [hseg]
    rw [hview, List.getElem?_map, Option.map_eq_some_iff] at h1
    obtain ⟨s, hs, hsv⟩ := h1
    have h2 : ((plan.ranked segment).map (fun a => (a.1, plan.runView a.2)))[p.run]? =
        some (p.rank, plan.runView run) := by simp [hrun]
    rw [hrank hsv.symm, List.getElem?_map, Option.map_eq_some_iff] at h2
    obtain ⟨a, ha, hav⟩ := h2
    simp only [Prod.mk.injEq, runOf, Plan.runView] at hav
    exact ⟨s, a, hs, ha, hav.1, by rw [hav.2.2]; exact hi⟩
  · rintro ⟨s, a, hs, ha, hr, hi⟩
    have h1 : ((segmentsAt w κ).map (viewOf records w))[p.segment]? = some (viewOf records w s) := by
      simp [hs]
    rw [← hview, List.getElem?_map, Option.map_eq_some_iff] at h1
    obtain ⟨segment, hseg, hsv⟩ := h1
    have h2 : ((runKeys records w s).map fun a => (a.rank, runOf records w a))[p.run]? =
        some (a.rank, runOf records w a) := by simp [ha]
    rw [← hrank hsv, List.getElem?_map, Option.map_eq_some_iff] at h2
    obtain ⟨⟨rank, run⟩, hrun, hav⟩ := h2
    simp only [Prod.mk.injEq, runOf, Plan.runView] at hav
    exact ⟨segment, hseg, run, by rw [hrun, hav.1, hr], by rw [hav.2.2]; exact hi⟩

/-- Every record is placed among the segments of its key. -/
theorem exists_placed {i s : ℕ} {r : PlanRecord K} (hi : At records w i r s) :
    ∃ (κ : ℕ) (kp : KeyPlan K), plan.keys[κ]? = some kp ∧ kp.key = r.key ∧
      ∃ p, plan.Placed kp i p := by
  obtain ⟨m, o, hm, ho⟩ := h.seg _ _ _ hi
  have hidx := h.index _ _ _ ho
  have hkeys := (keys_built h hb).1
  have hk : (plan.keys.map KeyPlan.key)[m.key]? = some r.key := by
    rw [hkeys, List.getElem?_map, hidx]; rfl
  rw [List.getElem?_map, Option.map_eq_some_iff] at hk
  obtain ⟨kp, hkp, hkey⟩ := hk
  have hmem : runKey records w i ∈ runKeys records w s :=
    (mem_runKeys h).mpr ⟨⟨i, hi.lt, rfl⟩, by rw [runKey_at hi hm]⟩
  obtain ⟨p₁, hp₁, hs⟩ := List.getElem_of_mem (mem_segmentsAt.mpr ⟨m, hm, rfl⟩)
  obtain ⟨p₂, hp₂, ha⟩ := List.getElem_of_mem hmem
  obtain ⟨p₃, hp₃, hi'⟩ := List.getElem_of_mem (mem_members.mpr ⟨hi.lt, rfl⟩)
  refine ⟨m.key, kp, hkp, hkey, ⟨p₁, (runKey records w i).rank, p₂, p₃⟩, ?_⟩
  refine (placed_iff h hb hkp).mpr ⟨s, runKey records w i, ?_, ?_, rfl, ?_⟩
  · rw [List.getElem?_eq_getElem hp₁, hs]
  · rw [List.getElem?_eq_getElem hp₂, ha]
  · rw [List.getElem?_eq_getElem hp₃, hi']

/-- The records of a segment, run by run. -/
theorem flatMap_ranked {κ : ℕ} {kp : KeyPlan K} (hkp : plan.keys[κ]? = some kp) :
    ((plan.segmentsOf kp).flatMap fun segment =>
      (plan.ranked segment).flatMap fun a => plan.records a.2) =
        (segmentsAt w κ).flatMap fun s => (runKeys records w s).flatMap (members records w) := by
  have hview := (keys_built h hb).2 κ kp hkp
  have hsegment : ∀ segment, (plan.ranked segment).flatMap (fun a => plan.records a.2) =
      ((plan.segmentView segment).head.toList.map (Rank.head, ·) ++
        (plan.segmentView segment).body.map (Rank.body, ·) ++
          (plan.segmentView segment).tail.toList.map (Rank.tail, ·)).flatMap fun a => a.2.2 := by
    intro segment
    rw [← map_ranked, List.flatMap_map]
    rfl
  calc _ = ((plan.segmentsOf kp).map plan.segmentView).flatMap (fun v =>
        (v.head.toList.map (Rank.head, ·) ++ v.body.map (Rank.body, ·) ++
          v.tail.toList.map (Rank.tail, ·)).flatMap fun a => a.2.2) := by
        rw [List.flatMap_map]; exact List.flatMap_congr fun segment _ => hsegment segment
    _ = _ := by
        rw [hview, List.flatMap_map]
        refine List.flatMap_congr fun s _ => ?_
        rw [ranked_viewOf, List.flatMap_map]
        rfl

/-- Every run of a key holds the records of one run key. -/
theorem runKey_of_ranked {kp : KeyPlan K} (hkp : kp ∈ plan.keys) {segment : Segment}
    (hseg : segment ∈ plan.segmentsOf kp) {a : Rank × Run} (ha : a ∈ plan.ranked segment) :
    ∃ b, (∃ i < records.length, runKey records w i = b) ∧ b.rank = a.1 ∧ b.tag = a.2.tag ∧
      plan.records a.2 = members records w b := by
  obtain ⟨κ, hκ⟩ := List.getElem?_of_mem hkp
  have h1 : plan.segmentView segment ∈ (segmentsAt w κ).map (viewOf records w) := by
    rw [← (keys_built h hb).2 κ kp hκ]
    exact List.mem_map_of_mem hseg
  obtain ⟨s, hs, hview⟩ := List.mem_map.mp h1
  have h2 : (a.1, plan.runView a.2) ∈ (runKeys records w s).map fun b => (b.rank, runOf records w b) := by
    rw [← ranked_viewOf, hview, ← map_ranked]
    exact List.mem_map.mpr ⟨a, ha, rfl⟩
  obtain ⟨b, hbk, heq⟩ := List.mem_map.mp h2
  simp only [Prod.mk.injEq, runOf, Plan.runView] at heq
  exact ⟨b, ((mem_runKeys h).mp hbk).1, heq.1, heq.2.1, heq.2.2.symm⟩

/-- Every run of a key holds a record, and all its records have its tag. -/
theorem records_of_ranked {kp : KeyPlan K} (hkp : kp ∈ plan.keys) {segment : Segment}
    (hseg : segment ∈ plan.segmentsOf kp) {a : Rank × Run} (ha : a ∈ plan.ranked segment) :
    plan.records a.2 ≠ [] ∧ ∀ i ∈ plan.records a.2, ∃ r, records[i]? = some r ∧ r.tag = a.2.tag := by
  obtain ⟨b, ⟨i, hi, hik⟩, -, htag, hrec⟩ := runKey_of_ranked h hb hkp hseg ha
  rw [hrec, ← htag]
  refine ⟨List.ne_nil_of_mem (mem_members.mpr ⟨hi, hik⟩), fun j hj => ?_⟩
  obtain ⟨hlt, rfl⟩ := mem_members.mp hj
  obtain ⟨r, s', m, hat, -, -, hk⟩ := exists_runKey h hlt
  exact ⟨r, hat.1, by rw [hk]⟩

/-- **The records of a key** are those of its segments, each in one run. -/
theorem perm_indices {kp : KeyPlan K} [DecidableEq K] (hkp : kp ∈ plan.keys) :
    ((plan.segmentsOf kp).flatMap fun segment =>
      (plan.ranked segment).flatMap fun a => plan.records a.2).Perm
        ((List.range records.length).filter fun i => (records[i]?).map PlanRecord.key = some kp.key) := by
  obtain ⟨κ, hκ⟩ := List.getElem?_of_mem hkp
  have hkeys := (keys_built h hb).1
  rw [flatMap_ranked h hb hκ]
  have hnd : ((segmentsAt w κ).flatMap fun s =>
      (runKeys records w s).flatMap (members records w)).Nodup := by
    have hall : ((allRuns records w).flatMap (members records w)).Nodup := by
      rw [← order_eq h]
      exact (List.perm_insertionSort _ _).nodup_iff.mpr List.nodup_range
    rw [allRuns, List.flatMap_assoc] at hall
    have hκ' : κ < w.keys.length := by
      rw [← List.length_map KeyPlan.key, ← hkeys, List.length_map]
      exact (List.getElem?_eq_some_iff.mp hκ).1
    have hsub : (segmentsAt w κ).Sublist (allSegments w) := by
      rw [allSegments, List.flatMap_def]
      exact List.sublist_flatten_of_mem (List.mem_map.mpr ⟨κ, List.mem_range.mpr hκ', rfl⟩)
    exact hall.sublist (hsub.flatMap _)
  refine (List.perm_ext_iff_of_nodup hnd (List.nodup_range.filter _)).mpr fun i => ?_
  have hslot : ∀ i < records.length, ∃ r s m, At records w i r s ∧ w.metas[s]? = some m ∧
      runKey records w i = ⟨s, m.rank r.tag, r.tag⟩ ∧ (m.key = κ ↔ r.key = kp.key) := by
    intro i hi
    obtain ⟨r, s, m, hat, hm, hlt, hk⟩ := exists_runKey h hi
    obtain ⟨m', o, hm', ho⟩ := h.seg _ _ _ hat
    obtain rfl : m' = m := Option.some.inj (hm'.symm.trans hm)
    refine ⟨r, s, m', hat, hm, hk, ?_⟩
    have hname : (w.keys[κ]?).map KeyPlan.key = some kp.key := by
      rw [← List.getElem?_map, ← hkeys, List.getElem?_map, hκ]; rfl
    constructor
    · rintro rfl
      rw [h.index _ _ _ ho] at hname
      exact Option.some.inj hname
    · intro hr
      obtain ⟨k, hkκ, hkey⟩ := Option.map_eq_some_iff.mp hname
      obtain ⟨o', ho'⟩ := h.keys _ _ hkκ
      rw [hkey, ← hr, ho] at ho'
      exact (Prod.mk.inj (Option.some.inj ho')).1
  simp only [List.mem_flatMap, mem_segmentsAt, mem_runKeys h, mem_members, List.mem_filter,
    List.mem_range, decide_eq_true_eq]
  constructor
  · rintro ⟨s, ⟨m, hm, hkey⟩, a, ⟨-, ha⟩, hi, rfl⟩
    obtain ⟨r, s', m', hat, hm', hk, hiff⟩ := hslot i hi
    rw [hk] at ha
    obtain rfl : s' = s := ha
    obtain rfl : m' = m := Option.some.inj (hm'.symm.trans hm)
    exact ⟨hi, by rw [hat.1, Option.map_some, hiff.mp hkey]⟩
  · rintro ⟨hi, hr⟩
    obtain ⟨r, s, m, hat, hm, hk, hiff⟩ := hslot i hi
    rw [hat.1, Option.map_some] at hr
    exact ⟨s, ⟨m, hm, hiff.mpr (Option.some.inj hr)⟩, _, ⟨⟨i, hi, rfl⟩, by rw [hk]⟩, hi, rfl⟩

/-- **The indices in plan order** are those of the keys, one key after another. -/
theorem flatMap_keys : (plan.keys.flatMap fun kp => (plan.segmentsOf kp).flatMap fun segment =>
    (plan.ranked segment).flatMap fun a => plan.records a.2) = plan.order := by
  have hlen : plan.keys.length = w.keys.length := by
    simpa using congrArg List.length (keys_built h hb).1
  have hrange : plan.keys.map (fun kp => (plan.segmentsOf kp).flatMap fun segment =>
      (plan.ranked segment).flatMap fun a => plan.records a.2) =
        (List.range w.keys.length).map fun κ =>
          (segmentsAt w κ).flatMap fun s => (runKeys records w s).flatMap (members records w) := by
    refine List.ext_getElem (by simp [hlen]) fun κ h1 h2 => ?_
    rw [List.length_map] at h1
    simpa using flatMap_ranked h hb (List.getElem?_eq_getElem h1)
  rw [hb.order, allRuns, allSegments, List.flatMap_assoc, List.flatMap_assoc, List.flatMap_def, hrange,
    List.flatMap_def]

/-- The body runs of a segment hold relaxed records, and two of them have different types. -/
theorem body_relaxed {kp : KeyPlan K} (hkp : kp ∈ plan.keys) {segment : Segment}
    (hseg : segment ∈ plan.segmentsOf kp) :
    (∀ run ∈ plan.body segment, ∀ i ∈ plan.records run, ∃ r, records[i]? = some r ∧
      r.tag = run.tag ∧ r.ordering = .relaxed) ∧ (plan.body segment).Pairwise (·.tag ≠ ·.tag) := by
  obtain ⟨κ, hκ⟩ := List.getElem?_of_mem hkp
  have h1 : plan.segmentView segment ∈ (segmentsAt w κ).map (viewOf records w) := by
    rw [← (keys_built h hb).2 κ kp hκ]
    exact List.mem_map_of_mem hseg
  obtain ⟨s, hs, hview⟩ := List.mem_map.mp h1
  have hbody : (plan.body segment).map plan.runView = (bodyKeys records w s).map (runOf records w) :=
    (congrArg SegmentView.body hview).symm
  constructor
  · intro run hrun i hi
    have h2 : plan.runView run ∈ (bodyKeys records w s).map (runOf records w) :=
      hbody ▸ List.mem_map_of_mem hrun
    obtain ⟨a, ha, heq⟩ := List.mem_map.mp h2
    simp only [runOf, Plan.runView, Prod.mk.injEq] at heq
    rw [← heq.2] at hi
    obtain ⟨hlt, rfl⟩ := mem_members.mp hi
    obtain ⟨-, -, hrank⟩ := mem_bodyKeys.mp ha
    obtain ⟨r, s', m, hat, hm, -, hk⟩ := exists_runKey h hlt
    rw [hk] at hrank
    have hd := h.describes _ _ hm
    refine ⟨r, hat.1, by rw [← heq.1, hk], ?_⟩
    -- a record that acquires is in the head run, a `Release` in the head or the tail run
    have hrank' : m.rank r.tag = .body := hrank
    have hhead : m.head ≠ some r.tag := fun hh => by simp [SegmentMeta.rank, hh] at hrank'
    have htail : m.tail ≠ some r.tag := fun ht => by simp [SegmentMeta.rank, hhead, ht] at hrank'
    cases ho : r.ordering with
    | relaxed => rfl
    | acquire => exact absurd ((hd.head _).mpr ⟨i, r, hat, by simp [ho], rfl⟩) hhead
    | release => exact absurd ((hd.tail _).mpr ⟨i, r, hat, ho, rfl⟩) htail
    | acqRel => exact absurd ((hd.head _).mpr ⟨i, r, hat, by simp [ho], rfl⟩) hhead
  · have htags : (plan.body segment).map (·.tag) = (bodyKeys records w s).map (·.tag) := by
      simpa [List.map_map, Function.comp_def, runOf, Plan.runView] using
        congrArg (List.map Prod.fst) hbody
    have hpw : ((plan.body segment).map (·.tag)).Pairwise (· ≠ ·) := by
      rw [htags, List.pairwise_map]
      exact (pairwise_bodyKeys s).imp fun {a b} hlt he => by rw [he] at hlt; exact Nat.lt_irrefl _ hlt
    exact List.pairwise_map.mp hpw

end Built

/-! ### The order law -/

section Law

variable {records : List (PlanRecord K)} {w : Walk K} (h : Ok records w)
include h

/-- A record that must stay before a later one is in an earlier segment, or in a run that goes
before the other's, or in the same run. -/
theorem segment_order {i j s s' : ℕ} {x y : PlanRecord K} (hi : At records w i x s)
    (hj : At records w j y s') (hij : i < j) (hkey : x.key = y.key)
    (hdep : x.tag = y.tag ∨ x.ordering ≠ .relaxed ∨ y.ordering ≠ .relaxed) :
    s < s' ∨ s = s' ∧ ∃ m, w.metas[s]? = some m ∧
      (x.tag = y.tag ∨ (m.rank x.tag).toNat < (m.rank y.tag).toNat) := by
  rcases (h.mono _ _ _ _ _ _ hi hj hkey hij.le).lt_or_eq with hlt | rfl
  · exact Or.inl hlt
  refine Or.inr ⟨rfl, ?_⟩
  obtain ⟨m, -, hm, -⟩ := h.seg _ _ _ hi
  refine ⟨m, hm, ?_⟩
  by_cases htag : x.tag = y.tag
  · exact Or.inl htag
  right
  have hd := h.describes _ _ hm
  -- `y` does not acquire and `x` is no `Release`: either would have parted them
  have hy := h.first _ _ _ _ _ hi hj hij
  have hx := h.last _ _ _ _ _ hi hj hij
  have hcase : x.ordering.acquires = true ∨ y.ordering = .release := by
    rcases hdep with hc | hc | hc
    · exact absurd hc htag
    · left; cases ho : x.ordering <;> simp_all [EventAtomicOrdering.acquires]
    · right; cases ho : y.ordering <;> simp_all [EventAtomicOrdering.acquires]
  rcases hcase with ha | hr
  · have hhead : m.head = some x.tag := (hd.head _).mpr ⟨i, x, hi, ha, rfl⟩
    have hne : m.head ≠ some y.tag := by rw [hhead]; simpa using htag
    simp only [SegmentMeta.rank, hhead, ↓reduceIte]
    rw [if_neg (by simpa using htag)]
    split_ifs <;> decide
  · have htail : m.tail = some y.tag := (hd.tail _).mpr ⟨j, y, hj, hr, rfl⟩
    -- the head is not of the type of `y`, as the segment holds `x`
    have hhead : m.head ≠ some y.tag := by
      intro hc
      have := h.own _ _ _ _ hj hr hm hc
      rw [hd.mixed.mpr ⟨y.tag, hc, i, x, hi, htag⟩] at this
      cases this
    simp only [SegmentMeta.rank, htail, if_neg hhead, ↓reduceIte]
    split_ifs with h1 h2
    · decide
    · exact absurd (Option.some.inj h2).symm htag
    · decide

/-- Sorting keeps the log order of two records of one key unless they are independent. -/
theorem sortKey_lt_of_dependent {i j s s' : ℕ} {x y : PlanRecord K} (hi : At records w i x s)
    (hj : At records w j y s') (hij : i < j) (hkey : x.key = y.key)
    (hdep : x.tag = y.tag ∨ x.ordering ≠ .relaxed ∨ y.ordering ≠ .relaxed) :
    sortKey records w i < sortKey records w j := by
  obtain ⟨mi, o, hmi, ho⟩ := h.seg _ _ _ hi
  obtain ⟨mj, o', hmj, ho'⟩ := h.seg _ _ _ hj
  have hκ : mi.key = mj.key := by
    rw [hkey, ho'] at ho
    exact (Prod.mk.inj (Option.some.inj ho)).1.symm
  rw [sortKey_lt, runKey_at hi hmi, runKey_at hj hmj]
  simp only [runOrder, hmi, hmj, Option.map_some, Option.getD_some, hκ, Prod.Lex.toLex_lt_toLex,
    toLex_inj, Prod.mk.injEq]
  rcases segment_order h hi hj hij hkey hdep with hlt | ⟨rfl, m, hm, hor⟩
  · exact Or.inl (Or.inr ⟨trivial, Or.inl hlt⟩)
  · obtain rfl : mi = m := Option.some.inj (hmi.symm.trans hm)
    obtain rfl : mj = mi := Option.some.inj (hmj.symm.trans hm)
    rcases hor with htag | hrank
    · exact Or.inr ⟨⟨trivial, rfl, by rw [htag], by rw [htag]⟩, hij⟩
    · exact Or.inl (Or.inr ⟨trivial, Or.inr ⟨rfl, Or.inl hrank⟩⟩)

theorem precedes_of_dependent {plan : Plan K} (hb : Built plan records w) {κ : ℕ} {kp : KeyPlan K}
    (hkp : plan.keys[κ]? = some kp) {i j s s' : ℕ} {x y : PlanRecord K} (hi : At records w i x s)
    (hj : At records w j y s') (hij : i < j) (hkey : x.key = y.key)
    (hdep : x.tag = y.tag ∨ x.ordering ≠ .relaxed ∨ y.ordering ≠ .relaxed) {p q : Place}
    (hp : plan.Placed kp i p) (hq : plan.Placed kp j q) : p.Precedes q := by
  obtain ⟨s₁, a, hs₁, ha, hra, hia⟩ := (placed_iff h hb hkp).mp hp
  obtain ⟨s₂, b, hs₂, hbk, hrb, hjb⟩ := (placed_iff h hb hkp).mp hq
  obtain ⟨-, rfl⟩ := mem_members.mp (List.mem_of_getElem? hia)
  obtain ⟨-, rfl⟩ := mem_members.mp (List.mem_of_getElem? hjb)
  obtain ⟨-, hsa⟩ := (mem_runKeys h).mp (List.mem_of_getElem? ha)
  obtain ⟨-, hsb⟩ := (mem_runKeys h).mp (List.mem_of_getElem? hbk)
  obtain ⟨mi, -, hmi, -⟩ := h.seg _ _ _ hi
  obtain ⟨mj, -, hmj, -⟩ := h.seg _ _ _ hj
  have hki := runKey_at hi hmi
  have hkj := runKey_at hj hmj
  obtain rfl : s = s₁ := by rw [← hsa, hki]
  obtain rfl : s' = s₂ := by rw [← hsb, hkj]
  rcases segment_order h hi hj hij hkey hdep with hlt | ⟨rfl, m, hm, hor⟩
  · exact Or.inl (index_lt (pairwise_segmentsAt κ) (fun _ _ => Nat.lt_asymm) hs₁ hs₂ hlt)
  · have hseg : p.segment = q.segment :=
      index_eq ((pairwise_segmentsAt κ).imp fun hlt => Nat.ne_of_lt hlt) hs₁ hs₂
    obtain rfl : mi = m := Option.some.inj (hmi.symm.trans hm)
    obtain rfl : mj = mi := Option.some.inj (hmj.symm.trans hm)
    refine Or.inr ⟨hseg, ?_⟩
    rcases hor with htag | hrank
    · left
      have hkk : runKey records w i = runKey records w j := by rw [hki, hkj, htag]
      rw [hkk] at ha hia
      have hnd : (runKeys records w s).Nodup :=
        (pairwise_runKeys s).imp fun hlt he => by subst he; exact lt_irrefl _ hlt
      refine ⟨index_eq hnd ha hbk, ?_⟩
      have hsorted : (members records w (runKey records w j)).Pairwise (· < ·) :=
        List.Pairwise.filter _ List.pairwise_lt_range
      exact index_lt hsorted (fun _ _ => Nat.lt_asymm) hia hjb hij
    · right
      rw [← hra, ← hrb, hki, hkj]
      exact hrank

end Law

/-- **The planner keeps the log order** of two records of one key that share a type or of which at
least one is a fence: both are placed, and wherever they are placed, the first precedes. -/
theorem plan_order [DecidableEq K] (records : List (PlanRecord K)) (i j : ℕ) (x y : PlanRecord K)
    (hi : records[i]? = some x) (hj : records[j]? = some y) (hij : i < j) (hkey : x.key = y.key)
    (hdep : x.tag = y.tag ∨ x.ordering ≠ .relaxed ∨ y.ordering ≠ .relaxed) :
    ∃ kp ∈ (Plan.new records).keys, kp.key = x.key ∧
      (∃ p, (Plan.new records).Placed kp i p) ∧ (∃ q, (Plan.new records).Placed kp j q) ∧
        ∀ p q, (Plan.new records).Placed kp i p → (Plan.new records).Placed kp j q →
          p.Precedes q := by
  have h := ok_assignSegments records
  have hb := built_new records
  obtain ⟨s, hs⟩ := exists_at h hi
  obtain ⟨s', hs'⟩ := exists_at h hj
  obtain ⟨κ, kp, hkp, hk, hp⟩ := exists_placed h hb hs
  obtain ⟨κ', kp', hkp', hk', hq⟩ := exists_placed h hb hs'
  -- the two keys are one
  obtain rfl : κ = κ' := by
    have hkeys := (keys_built h hb).1
    have hκ : ∀ κ (kp : KeyPlan K), (Plan.new records).keys[κ]? = some kp →
        ∃ o, (assignSegments records).slots kp.key = some (κ, o) := by
      intro κ kp hkp
      have hk : ((assignSegments records).keys.map KeyPlan.key)[κ]? = some kp.key := by
        rw [← hkeys, List.getElem?_map, hkp]; rfl
      rw [List.getElem?_map, Option.map_eq_some_iff] at hk
      obtain ⟨k, hk, hkk⟩ := hk
      rw [← hkk]
      exact h.keys _ _ hk
    obtain ⟨o, ho⟩ := hκ _ _ hkp
    obtain ⟨o', ho'⟩ := hκ _ _ hkp'
    rw [hk, hkey, ← hk', ho'] at ho
    exact (Prod.mk.inj (Option.some.inj ho)).1.symm
  obtain rfl : kp = kp' := Option.some.inj (hkp.symm.trans hkp')
  exact ⟨kp, List.mem_of_getElem? hkp, hk, hp, hq, fun p q hp hq =>
    precedes_of_dependent h hb hkp hs hs' hij hkey hdep hp hq⟩

/-- The keys of a plan differ. -/
theorem keys_nodup [DecidableEq K] (records : List (PlanRecord K)) :
    ((Plan.new records).keys.map KeyPlan.key).Nodup := by
  have h := ok_assignSegments records
  rw [(keys_built h (built_new records)).1, List.Nodup, List.pairwise_map, List.pairwise_iff_getElem]
  intro i j hi hj hij heq
  obtain ⟨o, ho⟩ := h.keys i _ (List.getElem?_eq_getElem hi)
  obtain ⟨o', ho'⟩ := h.keys j _ (List.getElem?_eq_getElem hj)
  rw [heq, ho'] at ho
  exact Nat.ne_of_gt hij (Prod.mk.inj (Option.some.inj ho)).1

/-- **The plan order only swaps independent records**: it is a rearrangement of the log, and of two
records of one key that it swaps, both are relaxed and their types differ. -/
theorem order_swaps [DecidableEq K] (records : List (PlanRecord K)) :
    (Plan.new records).order.Perm (List.range records.length) ∧
      (Plan.new records).order.Pairwise fun i j => j < i → ∀ x y, records[i]? = some x →
        records[j]? = some y → x.key = y.key →
          x.tag ≠ y.tag ∧ x.ordering = .relaxed ∧ y.ordering = .relaxed := by
  have h := ok_assignSegments records
  set w := assignSegments records with hw
  have horder : (Plan.new records).order = (List.range records.length).insertionSort
      fun i j => sortKey records w i ≤ sortKey records w j := rfl
  have : Std.Total (fun i j => sortKey records w i ≤ sortKey records w j) := ⟨fun _ _ => le_total _ _⟩
  have : IsTrans ℕ (fun i j => sortKey records w i ≤ sortKey records w j) := ⟨fun _ _ _ => le_trans⟩
  rw [horder]
  refine ⟨List.perm_insertionSort _ _, (List.pairwise_insertionSort _ _).imp ?_⟩
  intro i j hle hji x y hx hy hkey
  obtain ⟨s, hs⟩ := exists_at h hx
  obtain ⟨s', hs'⟩ := exists_at h hy
  by_contra hdep
  refine absurd (sortKey_lt_of_dependent h hs' hs hji hkey.symm ?_) (not_lt_of_ge hle)
  by_contra hind
  push Not at hind
  exact hdep ⟨fun he => hind.1 he.symm, hind.2.2, hind.2.1⟩

/-- An `Acquire`, a record of another type, and a `Release` of the type that acquired. -/
def releaseLog : List (PlanRecord ℕ) :=
  [⟨0, ⟨1⟩, .acquire⟩, ⟨0, ⟨2⟩, .relaxed⟩, ⟨0, ⟨1⟩, .release⟩]

/-- The `Release` is not absorbed by the head run of its type. -/
theorem plan_order_release : ∃ kp ∈ (Plan.new releaseLog).keys, kp.key = 0 ∧
    (∃ p, (Plan.new releaseLog).Placed kp 1 p) ∧ (∃ q, (Plan.new releaseLog).Placed kp 2 q) ∧
      ∀ p q, (Plan.new releaseLog).Placed kp 1 p → (Plan.new releaseLog).Placed kp 2 q →
        p.Precedes q :=
  plan_order releaseLog 1 2 ⟨0, ⟨2⟩, .relaxed⟩ ⟨0, ⟨1⟩, .release⟩ rfl rfl (by decide) rfl (by decide)

end Order

end Wakuwaku.Iggy.Partition
