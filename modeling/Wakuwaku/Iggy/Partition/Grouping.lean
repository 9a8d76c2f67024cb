import Wakuwaku.Iggy.Partition.Segments
import Mathlib.Data.List.Dedup
import Mathlib.Data.List.Nodup

/-! # The sorted indices, run by run

The runs of a segment are read off its metadata (`headKey`, `tailKey`) and the tags left over
(`bodyKeys`). Listing the segments of every key (`allSegments`), their runs (`allRuns`) and the
indices of every run (`members`) gives the indices in the order of `sortKey`: this is the list
`Plan.new` sorts them into (`order_eq`). -/

namespace Wakuwaku.Iggy.Partition.Grouping

open Wakuwaku.Iggy.Events Wakuwaku.Iggy.Partition Wakuwaku.Iggy.Partition.Segments

variable {K : Type} (records : List (PlanRecord K)) (w : Walk K)

/-! ### Runs, segments and keys -/

/-- The indices of a run, in log order. -/
def members (a : RunKey) : List ℕ :=
  (List.range records.length).filter fun i => runKey records w i = a

/-- The head run of a segment. -/
def headKey (s : ℕ) : Option RunKey :=
  (w.metas[s]?).bind fun m => m.head.map fun t => ⟨s, .head, t⟩

/-- The tail run of a segment, unless its type is the head already. -/
def tailKey (s : ℕ) : Option RunKey :=
  (w.metas[s]?).bind fun m => (m.tail.filter (m.head != some ·)).map fun t => ⟨s, .tail, t⟩

/-- The body runs of a segment, by tag. -/
def bodyKeys (s : ℕ) : List RunKey :=
  ((((List.range records.length).map (runKey records w)).filter
    fun a => a.segment = s ∧ a.rank = .body).dedup).insertionSort
      fun a b => a.tag.get.toNat ≤ b.tag.get.toNat

/-- The runs of a segment. -/
def runKeys (s : ℕ) : List RunKey :=
  (headKey w s).toList ++ bodyKeys records w s ++ (tailKey w s).toList

/-- The segments of the key at an index. -/
def segmentsAt (κ : ℕ) : List ℕ :=
  (List.range w.metas.length).filter fun s => (w.metas[s]?).map SegmentMeta.key = some κ

/-- The segments of all keys. -/
def allSegments : List ℕ := (List.range w.keys.length).flatMap (segmentsAt w)

/-- The runs of all segments. -/
def allRuns : List RunKey := (allSegments w).flatMap (runKeys records w)

variable {records w}

theorem mem_members {a : RunKey} {i : ℕ} :
    i ∈ members records w a ↔ i < records.length ∧ runKey records w i = a := by
  simp [members]

theorem mem_headKey {s : ℕ} {a : RunKey} : a ∈ headKey w s ↔
    ∃ m t, w.metas[s]? = some m ∧ m.head = some t ∧ a = ⟨s, .head, t⟩ := by
  simp only [headKey, Option.mem_def, Option.bind_eq_some_iff, Option.map_eq_some_iff]
  constructor
  · rintro ⟨m, hm, t, ht, rfl⟩; exact ⟨m, t, hm, ht, rfl⟩
  · rintro ⟨m, t, hm, ht, rfl⟩; exact ⟨m, hm, t, ht, rfl⟩

theorem mem_tailKey {s : ℕ} {a : RunKey} : a ∈ tailKey w s ↔
    ∃ m t, w.metas[s]? = some m ∧ m.tail = some t ∧ m.head ≠ some t ∧ a = ⟨s, .tail, t⟩ := by
  simp only [tailKey, Option.mem_def, Option.bind_eq_some_iff, Option.map_eq_some_iff,
    Option.filter_eq_some_iff, bne_iff_ne]
  constructor
  · rintro ⟨m, hm, t, ⟨ht, hh⟩, rfl⟩; exact ⟨m, t, hm, ht, hh, rfl⟩
  · rintro ⟨m, t, hm, ht, hh, rfl⟩; exact ⟨m, hm, t, ⟨ht, hh⟩, rfl⟩

theorem mem_bodyKeys {s : ℕ} {a : RunKey} : a ∈ bodyKeys records w s ↔
    (∃ i < records.length, runKey records w i = a) ∧ a.segment = s ∧ a.rank = .body := by
  simp only [bodyKeys, List.mem_insertionSort, List.mem_dedup, List.mem_filter, List.mem_map,
    List.mem_range, decide_eq_true_eq]

theorem mem_segmentsAt {κ s : ℕ} : s ∈ segmentsAt w κ ↔ ∃ m, w.metas[s]? = some m ∧ m.key = κ := by
  simp only [segmentsAt, List.mem_filter, List.mem_range, decide_eq_true_eq, Option.map_eq_some_iff]
  constructor
  · rintro ⟨-, h⟩; exact h
  · rintro ⟨m, hm, h⟩; exact ⟨(List.getElem?_eq_some_iff.mp hm).1, m, hm, h⟩

theorem mem_allSegments {s : ℕ} : s ∈ allSegments w ↔
    ∃ m, w.metas[s]? = some m ∧ m.key < w.keys.length := by
  simp only [allSegments, List.mem_flatMap, List.mem_range, mem_segmentsAt]
  constructor
  · rintro ⟨κ, hκ, m, hm, rfl⟩; exact ⟨m, hm, hκ⟩
  · rintro ⟨m, hm, hκ⟩; exact ⟨m.key, hκ, m, hm, rfl⟩

theorem runKey_at {i s : ℕ} {r : PlanRecord K} {m : SegmentMeta} (hi : At records w i r s)
    (hm : w.metas[s]? = some m) : runKey records w i = ⟨s, m.rank r.tag, r.tag⟩ := by
  obtain ⟨h1, h2⟩ := hi
  simp [runKey, List.getD_eq_getElem?_getD, h1, h2, hm]

section Ok

variable (h : Ok records w)
include h

/-- Every record has its run key. -/
theorem exists_runKey {i : ℕ} (hi : i < records.length) : ∃ r s m, At records w i r s ∧
    w.metas[s]? = some m ∧ m.key < w.keys.length ∧
      runKey records w i = ⟨s, m.rank r.tag, r.tag⟩ := by
  obtain ⟨s, hs⟩ := exists_at h (List.getElem?_eq_getElem hi)
  obtain ⟨m, o, hm, ho⟩ := h.seg _ _ _ hs
  exact ⟨_, s, m, hs, hm, (List.getElem?_eq_some_iff.mp (h.index _ _ _ ho)).1, runKey_at hs hm⟩

/-- **The runs of a segment** are the run keys of its records. -/
theorem mem_runKeys {s : ℕ} {a : RunKey} : a ∈ runKeys records w s ↔
    (∃ i < records.length, runKey records w i = a) ∧ a.segment = s := by
  simp only [runKeys, List.mem_append, Option.mem_toList]
  constructor
  · rintro ((ha | ha) | ha)
    · obtain ⟨m, t, hm, ht, rfl⟩ := mem_headKey.mp ha
      obtain ⟨i, r, hi, -, rfl⟩ := ((h.describes s m hm).head t).mp ht
      exact ⟨⟨i, hi.lt, by rw [runKey_at hi hm]; simp [SegmentMeta.rank, ht]⟩, rfl⟩
    · exact ⟨(mem_bodyKeys.mp ha).1, (mem_bodyKeys.mp ha).2.1⟩
    · obtain ⟨m, t, hm, ht, hh, rfl⟩ := mem_tailKey.mp ha
      obtain ⟨i, r, hi, -, rfl⟩ := ((h.describes s m hm).tail t).mp ht
      exact ⟨⟨i, hi.lt, by rw [runKey_at hi hm]; simp [SegmentMeta.rank, ht, hh]⟩, rfl⟩
  · rintro ⟨⟨i, hi, rfl⟩, hseg⟩
    obtain ⟨r, s', m, hat, hm, -, hk⟩ := exists_runKey h hi
    rw [hk] at hseg ⊢
    obtain rfl : s' = s := hseg
    by_cases hh : m.head = some r.tag
    · left; left
      exact mem_headKey.mpr ⟨m, r.tag, hm, hh, by simp [SegmentMeta.rank, hh]⟩
    · by_cases ht : m.tail = some r.tag
      · right
        exact mem_tailKey.mpr ⟨m, r.tag, hm, ht, hh, by simp [SegmentMeta.rank, hh, ht]⟩
      · left; right
        refine mem_bodyKeys.mpr ⟨⟨i, hi, hk⟩, rfl, by simp [SegmentMeta.rank, hh, ht]⟩

theorem mem_allRuns {a : RunKey} : a ∈ allRuns records w ↔
    ∃ i < records.length, runKey records w i = a := by
  simp only [allRuns, List.mem_flatMap, mem_runKeys h]
  constructor
  · rintro ⟨-, -, hi, -⟩; exact hi
  · rintro ⟨i, hi, rfl⟩
    obtain ⟨r, s, m, -, hm, hκ, hk⟩ := exists_runKey h hi
    exact ⟨s, mem_allSegments.mpr ⟨m, hm, hκ⟩, ⟨i, hi, rfl⟩, by rw [hk]⟩

theorem members_ne_nil {a : RunKey} (ha : a ∈ allRuns records w) : members records w a ≠ [] := by
  obtain ⟨i, hi, hk⟩ := (mem_allRuns h).mp ha
  exact List.ne_nil_of_mem (mem_members.mpr ⟨hi, hk⟩)

theorem runKeys_ne_nil {s : ℕ} (hs : s ∈ allSegments w) : runKeys records w s ≠ [] := by
  obtain ⟨m, hm, -⟩ := mem_allSegments.mp hs
  obtain ⟨i, r, hi⟩ := h.nonempty s (List.getElem?_eq_some_iff.mp hm).1
  exact List.ne_nil_of_mem ((mem_runKeys h).mpr ⟨⟨i, hi.lt, runKey_at hi hm⟩, rfl⟩)

end Ok

/-! ### The order of the runs -/

variable (w) in
/-- What the runs are sorted by. -/
def runOrder (a : RunKey) : ℕ ×ₗ ℕ ×ₗ ℕ ×ₗ ℕ :=
  toLex (((w.metas[a.segment]?).map SegmentMeta.key).getD 0, toLex (a.segment, toLex (a.rank.toNat,
    a.tag.get.toNat)))

theorem sortKey_lt {i j : ℕ} : sortKey records w i < sortKey records w j ↔
    runOrder w (runKey records w i) < runOrder w (runKey records w j) ∨
      runOrder w (runKey records w i) = runOrder w (runKey records w j) ∧ i < j := by
  simp only [sortKey, runOrder, Prod.Lex.toLex_lt_toLex, toLex_inj, Prod.mk.injEq]
  tauto

theorem sortKey_injective : Function.Injective (sortKey records w) := by
  intro i j hij
  simp only [sortKey, toLex_inj, Prod.mk.injEq] at hij
  exact hij.2.2.2.2

/-- The members of one run are sorted. -/
theorem pairwise_members (a : RunKey) :
    (members records w a).Pairwise fun i j => sortKey records w i < sortKey records w j := by
  have hlt : (members records w a).Pairwise (· < ·) := List.Pairwise.filter _ List.pairwise_lt_range
  refine hlt.imp_of_mem fun hi hj hij => sortKey_lt.mpr (Or.inr ⟨?_, hij⟩)
  rw [(mem_members.mp hi).2, (mem_members.mp hj).2]

theorem pairwise_bodyKeys (s : ℕ) :
    (bodyKeys records w s).Pairwise fun a b => a.tag.get.toNat < b.tag.get.toNat := by
  have : Std.Total (fun a b : RunKey => a.tag.get.toNat ≤ b.tag.get.toNat) := ⟨fun _ _ => le_total _ _⟩
  have : IsTrans RunKey (fun a b => a.tag.get.toNat ≤ b.tag.get.toNat) := ⟨fun _ _ _ => le_trans⟩
  have hle : (bodyKeys records w s).Pairwise fun a b => a.tag.get.toNat ≤ b.tag.get.toNat :=
    List.pairwise_insertionSort _ _
  have hnd : (bodyKeys records w s).Nodup :=
    (List.perm_insertionSort _ _).nodup_iff.mpr (List.nodup_dedup _)
  refine (hle.and hnd).imp_of_mem fun {a b} ha hb hab => lt_of_le_of_ne hab.1 fun he => hab.2 ?_
  obtain ⟨-, hsa, hra⟩ := mem_bodyKeys.mp ha
  obtain ⟨-, hsb, hrb⟩ := mem_bodyKeys.mp hb
  cases a; cases b
  simp only [RunKey.mk.injEq] at *
  exact ⟨hsa.trans hsb.symm, hra.trans hrb.symm, EventTypeTag.toNat_inj.mp he⟩

theorem pairwise_runKeys (s : ℕ) :
    (runKeys records w s).Pairwise fun a b => runOrder w a < runOrder w b := by
  have hh : ∀ a ∈ headKey w s, a.segment = s ∧ a.rank = .head := by
    intro a ha; obtain ⟨m, t, -, -, rfl⟩ := mem_headKey.mp ha; exact ⟨rfl, rfl⟩
  have ht : ∀ a ∈ tailKey w s, a.segment = s ∧ a.rank = .tail := by
    intro a ha; obtain ⟨m, t, -, -, -, rfl⟩ := mem_tailKey.mp ha; exact ⟨rfl, rfl⟩
  have hrank : ∀ {a b : RunKey}, a.segment = s → b.segment = s → a.rank.toNat < b.rank.toNat →
      runOrder w a < runOrder w b := by
    intro a b ha hb hab
    simp only [runOrder, Prod.Lex.toLex_lt_toLex, ha, hb]
    exact Or.inr ⟨trivial, Or.inr ⟨trivial, Or.inl hab⟩⟩
  unfold runKeys
  rw [List.pairwise_append, List.pairwise_append]
  refine ⟨⟨?_, ?_, ?_⟩, ?_, ?_⟩
  · cases headKey w s <;> simp
  · refine (pairwise_bodyKeys s).imp_of_mem fun ha hb hab => ?_
    obtain ⟨-, hsa, hra⟩ := mem_bodyKeys.mp ha
    obtain ⟨-, hsb, hrb⟩ := mem_bodyKeys.mp hb
    simp only [runOrder, Prod.Lex.toLex_lt_toLex, hsa, hsb, hra, hrb]
    exact Or.inr ⟨trivial, Or.inr ⟨trivial, Or.inr ⟨trivial, hab⟩⟩⟩
  · intro a ha b hb
    obtain ⟨h1, h2⟩ := hh a (Option.mem_toList.mp ha)
    obtain ⟨-, h3, h4⟩ := mem_bodyKeys.mp hb
    exact hrank h1 h3 (by rw [h2, h4]; decide)
  · cases tailKey w s <;> simp
  · intro a ha b hb
    obtain ⟨h3, h4⟩ := ht b (Option.mem_toList.mp hb)
    rcases List.mem_append.mp ha with ha | ha
    · obtain ⟨h1, h2⟩ := hh a (Option.mem_toList.mp ha)
      exact hrank h1 h3 (by rw [h2, h4]; decide)
    · obtain ⟨-, h1, h2⟩ := mem_bodyKeys.mp ha
      exact hrank h1 h3 (by rw [h2, h4]; decide)

theorem pairwise_segmentsAt (κ : ℕ) : (segmentsAt w κ).Pairwise (· < ·) :=
  List.Pairwise.filter _ List.pairwise_lt_range

theorem pairwise_allSegments : (allSegments w).Pairwise fun s s' =>
    toLex (((w.metas[s]?).map SegmentMeta.key).getD 0, s) <
      toLex (((w.metas[s']?).map SegmentMeta.key).getD 0, s') := by
  have hkey : ∀ {κ s : ℕ}, s ∈ segmentsAt w κ → ((w.metas[s]?).map SegmentMeta.key).getD 0 = κ := by
    intro κ s hs; obtain ⟨m, hm, rfl⟩ := mem_segmentsAt.mp hs; simp [hm]
  unfold allSegments
  refine List.pairwise_flatMap.mpr ⟨fun κ _ => ?_, ?_⟩
  · refine (pairwise_segmentsAt κ).imp_of_mem fun hs hs' hlt => ?_
    rw [hkey hs, hkey hs', Prod.Lex.toLex_lt_toLex]
    exact Or.inr ⟨rfl, hlt⟩
  · refine List.pairwise_lt_range.imp fun hlt s hs s' hs' => ?_
    rw [hkey hs, hkey hs', Prod.Lex.toLex_lt_toLex]
    exact Or.inl hlt

theorem nodup_allSegments : (allSegments w).Nodup :=
  pairwise_allSegments.imp fun hlt he => by subst he; exact lt_irrefl _ hlt

theorem pairwise_allRuns (h : Ok records w) :
    (allRuns records w).Pairwise fun a b => runOrder w a < runOrder w b := by
  unfold allRuns
  refine List.pairwise_flatMap.mpr ⟨fun s _ => pairwise_runKeys s, ?_⟩
  refine pairwise_allSegments.imp fun {s s'} hlt a ha b hb => ?_
  obtain ⟨-, rfl⟩ := (mem_runKeys h).mp ha
  obtain ⟨-, rfl⟩ := (mem_runKeys h).mp hb
  simp only [runOrder, Prod.Lex.toLex_lt_toLex] at hlt ⊢
  tauto

theorem nodup_allRuns (h : Ok records w) : (allRuns records w).Nodup :=
  (pairwise_allRuns h).imp fun hlt he => by subst he; exact lt_irrefl _ hlt

/-- **The sorted indices**, run by run. -/
theorem order_eq (h : Ok records w) :
    (List.range records.length).insertionSort (fun i j => sortKey records w i ≤ sortKey records w j) =
      (allRuns records w).flatMap (members records w) := by
  have : Std.Total (fun i j => sortKey records w i ≤ sortKey records w j) := ⟨fun _ _ => le_total _ _⟩
  have : IsTrans ℕ (fun i j => sortKey records w i ≤ sortKey records w j) := ⟨fun _ _ _ => le_trans⟩
  have hsorted : ((allRuns records w).flatMap (members records w)).Pairwise
      fun i j => sortKey records w i < sortKey records w j := by
    refine List.pairwise_flatMap.mpr ⟨fun a _ => pairwise_members a, ?_⟩
    refine (pairwise_allRuns h).imp fun {a b} hlt i hi j hj => sortKey_lt.mpr (Or.inl ?_)
    rw [(mem_members.mp hi).2, (mem_members.mp hj).2]
    exact hlt
  have hnd : ((allRuns records w).flatMap (members records w)).Nodup :=
    hsorted.imp fun hlt he => by subst he; exact lt_irrefl _ hlt
  have hperm : (List.range records.length).Perm ((allRuns records w).flatMap (members records w)) := by
    refine (List.perm_ext_iff_of_nodup List.nodup_range hnd).mpr fun i => ?_
    simp only [List.mem_range, List.mem_flatMap, mem_members]
    constructor
    · intro hi; exact ⟨_, (mem_allRuns h).mpr ⟨i, hi, rfl⟩, hi, rfl⟩
    · rintro ⟨-, -, hi, -⟩; exact hi
  refine @List.Perm.eq_of_pairwise _ (fun i j => sortKey records w i ≤ sortKey records w j) _ _
    (fun i j _ _ hij hji => sortKey_injective (le_antisymm hij hji))
    (List.pairwise_insertionSort _ _) (hsorted.imp le_of_lt) ?_
  exact (List.perm_insertionSort _ _).trans hperm

end Wakuwaku.Iggy.Partition.Grouping
